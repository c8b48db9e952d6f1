import Kmod.Index.Contents
import Kmod.Index.Search

/-!
# Wildcard lookup

Keys of an index are patterns. `index_mm_searchwild` descends literally as long
as it meets no wildcard character and hands every subtree below one to
`index_mm_searchwild_all`, which spells out the keys of the subtree and matches
each with `fnmatch`.

`wildAt` is the descent as a function on trees, and a reader's search computes it
(`searchwildNode_eq`). For a query without wildcard characters it collects exactly
the entries whose keys match (`wildAt_perm`).
-/

namespace Kmod.Index

open Kmod.Lists Bytes

/-! ## The search below a wildcard -/

section Reader

variable {N : Type} {r : Reader N} {g : List IndexValue → List IndexValue}
  {R : N → NodeData → (UInt8 → IndexNode) → Prop} (hR : Represents r g R)
  (fnmatch : CStr → CStr → Bool)

include hR

/-- **Below a wildcard the search goes through the whole subtree.** -/
theorem searchwildAll_eq (subkey : CStr) :
    ∀ {fuel : Nat} {x : N} {d : NodeData} {children : UInt8 → IndexNode} {pfx buf : CStr}
      {out : List IndexValue}, R x d children → (IndexNode.node d children).nodes + 128 ≤ fuel →
      searchwildAll r fnmatch fuel x pfx buf subkey out
        = .ok (addValues out (matching fnmatch subkey (contentsFrom g d children (buf ++ pfx)))) := by
  intro fuel
  induction fuel with
  | zero => intro x d children pfx buf out _ hfuel; omega
  | succ fuel ih =>
    intro x d children pfx buf out hx hfuel
    have hok := hR.ok hx
    -- one child: nothing, or its whole subtree by induction
    have hbody : ∀ c, d.first ≤ c → c ≤ d.last → ∀ out,
        r.withChild x c out (fun child =>
          searchwildAll r fnmatch fuel child (r.pfx child) (buf ++ pfx ++ [c]) subkey out)
        = .ok (addValues out (matching fnmatch subkey
            (((children c).contents g).map (fun e => (buf ++ pfx ++ c :: e.1, e.2))))) := by
      intro c _ _ out
      cases hc : children c with
      | null => rw [hR.withChild_null hx hc]; rfl
      | node d' children' =>
        obtain ⟨y, hRy, hy⟩ := hR.withChild_node hx hc out
        have hnodes := nodes_child hok hc
        rw [hy, ih hRy (by omega), hR.pfx hRy, contents_node, contentsFrom_append]
        simp
    have hlast : d.last.toNat < 128 := UInt8.lt_iff_toNat_lt.mp hok.last_lt
    have hnodes := nodes_pos d children
    have hloop := forChars_eq hok.last_lt fuel d.first out (by omega) hbody
    rw [foldl_addValues] at hloop
    rw [searchwildAll, hR.first hx, hR.last hx, hR.hasValues hx, matching_contentsFrom,
      addValues_append, hloop]
    show (if _ then _ else _) = _
    -- the node's own values come after those below it
    by_cases hm : fnmatch (buf ++ pfx) subkey = true
    · rw [if_pos hm]
      by_cases hv : d.values = []
      · rw [if_neg (by simp [hv]), hv, hR.nil]
        rfl
      · rw [if_pos (by simpa [hm] using hv), searchwildAllvalues, hR.values hx]
        rfl
    · rw [if_neg hm, if_neg (by simp [hm])]
      rfl

end Reader

/-! ## The descent -/

section Descent

variable (g : List IndexValue → List IndexValue) (fnmatch : CStr → CStr → Bool)

/-- What the three wildcard children of a node contribute. -/
def wildChildren (children : UInt8 → IndexNode) (key : CStr) : List IndexValue :=
  [42, 63, 91].flatMap (fun c =>
    matching fnmatch key (((children c).contents g).map (fun e => (c :: e.1, e.2))))

/-- What the search collects at a node, with `pfx` left of its prefix. -/
def wildAt (key pfx : CStr) (d : NodeData) (children : UInt8 → IndexNode) : List IndexValue :=
  match key, pfx with
  | [], p :: pfx =>
    if isWild p then matching fnmatch [] (contentsFrom g d children (p :: pfx)) else []
  | k :: key, p :: pfx =>
    if isWild p then matching fnmatch (k :: key) (contentsFrom g d children (p :: pfx))
    else if p = k then wildAt key pfx d children
    else []
  | [], [] => wildChildren g fnmatch children [] ++ g d.values
  | k :: key, [] =>
    wildChildren g fnmatch children (k :: key) ++
      match children k with
      | .null => []
      | .node d' children' => wildAt key d'.pfx d' children'

end Descent

section Reader

variable {N : Type} {r : Reader N} {g : List IndexValue → List IndexValue}
  {R : N → NodeData → (UInt8 → IndexNode) → Prop} (hR : Represents r g R) {host : Host}
  (fnmatch : CStr → CStr → Bool)
include hR

theorem searchwildChild_eq {x : N} {d : NodeData} {children : UInt8 → IndexNode}
    (hx : R x d children)
    {fuel : Nat} (hfuel : (IndexNode.node d children).nodes + 128 ≤ fuel) (key : CStr) (c : UInt8)
    (out : List IndexValue) :
    searchwildChild r fnmatch fuel x key c out
      = .ok (addValues out (matching fnmatch key
          (((children c).contents g).map (fun e => (c :: e.1, e.2))))) := by
  unfold searchwildChild
  cases hc : children c with
  | null => rw [hR.withChild_null hx hc]; rfl
  | node d' children' =>
    obtain ⟨y, hRy, hy⟩ := hR.withChild_node hx hc out
    have hnodes := nodes_child (hR.ok hx) hc
    rw [hy, searchwildAll_eq hR fnmatch key hRy (by omega), hR.pfx hRy, contents_node,
      contentsFrom_append]
    rfl

theorem searchwildChildren_eq {x : N} {d : NodeData} {children : UInt8 → IndexNode}
    (hx : R x d children) {fuel : Nat} (hfuel : (IndexNode.node d children).nodes + 128 ≤ fuel)
    (key : CStr) (out : List IndexValue) :
    searchwildChildren r fnmatch fuel x key out
      = .ok (addValues out (wildChildren g fnmatch children key)) := by
  simp only [searchwildChildren, searchwildChild_eq hR fnmatch hx hfuel, bind, Except.bind,
    wildChildren, List.flatMap_cons, List.flatMap_nil, List.append_nil, addValues_append]

/-- **A reader's search is the descent through the tree.** -/
theorem searchwildNode_eq (key : CStr) :
    ∀ {fuel : Nat} {pfx : CStr} {x : N} {d : NodeData} {children : UInt8 → IndexNode}
      {out : List IndexValue}, R x d children → Clean pfx →
      (IndexNode.node d children).nodes + 128 ≤ fuel →
      searchwildNode host r fnmatch fuel x pfx key out
        = .ok (addValues out (wildAt g fnmatch key pfx d children)) := by
  -- on the key, as in the exact search; a wildcard in the prefix turns to the whole subtree
  induction key with
  | nil =>
    intro fuel pfx x d children out hx hpfx hfuel
    cases pfx with
    | nil =>
      unfold searchwildNode
      rw [searchwildChildren_eq hR fnmatch hx hfuel, wildAt, addValues_append]
      simp only [searchwildAllvalues, hR.values hx, bind, Except.bind]
    | cons p pfx =>
      unfold searchwildNode wildAt
      by_cases hp : isWild p = true
      · rw [if_pos hp, if_pos hp, searchwildAll_eq hR fnmatch [] hx hfuel]
        rfl
      · rw [if_neg hp, if_neg hp]
        rfl
  | cons k key ih =>
    intro fuel pfx x d children out hx hpfx hfuel
    cases pfx with
    | nil =>
      unfold searchwildNode
      rw [searchwildChildren_eq hR fnmatch hx hfuel, wildAt, addValues_append]
      show r.withChild x k _ _ = _
      cases hc : children k with
      | null => rw [hR.withChild_null hx hc]; rfl
      | node d' children' =>
        obtain ⟨y, hRy, hy⟩ := hR.withChild_node hx hc
          (addValues out (wildChildren g fnmatch children (k :: key)))
        have hnodes := nodes_child (hR.ok hx) hc
        rw [hy, ih hRy (hR.pfx hRy ▸ (hR.ok hRy).pfx) (by omega), hR.pfx hRy]
    | cons p pfx =>
      obtain ⟨⟨-, hlt⟩, hpfx⟩ := List.forall_mem_cons.mp hpfx
      unfold searchwildNode wildAt
      simp only [sameChar_of_lt hlt]
      by_cases hp : isWild p = true
      · rw [if_pos hp, if_pos hp, searchwildAll_eq hR fnmatch (k :: key) hx hfuel]
        rfl
      · rw [if_neg hp, if_neg hp]
        by_cases hpk : p = k
        · rw [if_pos hpk, if_pos hpk]
          exact ih hx hpfx hfuel
        · rw [if_neg hpk, if_neg hpk]
          rfl

theorem searchwild_eq {root : Option N} {d : NodeData} {children : UInt8 → IndexNode}
    (h : ShowsRoot R root d children) {fuel : Nat}
    (hfuel : (IndexNode.node d children).nodes + 128 ≤ fuel) (key : CStr) :
    searchwild host r fnmatch fuel root key
      = .ok (addValues [] (wildAt g fnmatch key d.pfx d children)) := by
  cases root with
  | none =>
    obtain ⟨hv, hp, hnull⟩ := h
    have hwild : ∀ key, wildChildren g fnmatch children key = [] := by
      intro key
      simp [wildChildren, hnull, IndexNode.contents, matching]
    have hempty : wildAt g fnmatch key d.pfx d children = [] := by
      rw [hp]
      cases key with
      | nil => rw [wildAt, hwild, hv, hR.nil]; rfl
      | cons k key => rw [wildAt, hwild, hnull]; rfl
    rw [hempty]
    rfl
  | some x =>
    rw [searchwild, hR.pfx h]
    exact searchwildNode_eq hR fnmatch key h (hR.ok h).pfx hfuel

end Reader

/-! ## Which keys match -/

/--
A key is a literal part, up to its first wildcard character, and a pattern. It
matches a query that is its literal part, if there is no pattern, and else a
query that begins with the literal part and goes on as the pattern says.
-/
def keyMatches (fnmatch : CStr → CStr → Bool) (key query : CStr) : Bool :=
  let lit := key.takeWhile (fun c => !isWild c)
  let wild := key.dropWhile (fun c => !isWild c)
  if wild = [] then lit = query
  else lit.isPrefixOf query && fnmatch wild (query.drop lit.length)

section Matches

variable {fnmatch : CStr → CStr → Bool} {c : UInt8}

theorem keyMatches_nil (query : CStr) : keyMatches fnmatch [] query = decide (query = []) := by
  simp [keyMatches, eq_comm]

theorem keyMatches_wild (hc : isWild c = true) (key query : CStr) :
    keyMatches fnmatch (c :: key) query = fnmatch (c :: key) query := by
  simp [keyMatches, hc]

theorem keyMatches_cons_nil (hc : isWild c = false) (key : CStr) :
    keyMatches fnmatch (c :: key) [] = false := by
  simp [keyMatches, hc]

theorem keyMatches_cons_cons (hc : isWild c = false) (key : CStr) (q : UInt8) (query : CStr) :
    keyMatches fnmatch (c :: key) (q :: query)
      = (decide (c = q) && keyMatches fnmatch key query) := by
  by_cases hcq : c = q
  · subst hcq
    simp only [keyMatches, hc, Bool.not_false, List.takeWhile_cons_of_pos,
      List.dropWhile_cons_of_pos, decide_true, Bool.true_and, List.length_cons,
      List.drop_succ_cons, List.isPrefixOf, beq_self_eq_true, List.cons.injEq, true_and]
  · simp [keyMatches, hc, hcq, List.isPrefixOf]

/-- A child for a wildcard character: its keys are patterns. -/
theorem matching_wildChild (hc : isWild c = true) (key : CStr)
    (contents : List (CStr × IndexValue)) :
    matching (keyMatches fnmatch) key (contents.map (fun e => (c :: e.1, e.2)))
      = matching fnmatch key (contents.map (fun e => (c :: e.1, e.2))) := by
  rw [matching, matching, List.filter_map, List.filter_map]
  refine congrArg (fun l => (List.map _ l).map _) (List.filter_congr (fun e _ => ?_))
  exact keyMatches_wild hc e.1 key

/-- A child for another character matches only what goes on with it. -/
theorem matching_literalChild (hc : isWild c = false) (k : UInt8) (key : CStr)
    (contents : List (CStr × IndexValue)) :
    matching (keyMatches fnmatch) (k :: key) (contents.map (fun e => (c :: e.1, e.2)))
      = if c = k then matching (keyMatches fnmatch) key contents else [] := by
  by_cases hck : c = k
  · subst hck
    rw [if_pos rfl]
    exact matching_cons (fun _ => by simp [keyMatches_cons_cons hc]) _
  · rw [if_neg hck]
    exact matching_cons_nil (fun _ => by simp [keyMatches_cons_cons hc, hck]) _

theorem matching_literalChild_nil (hc : isWild c = false) (contents : List (CStr × IndexValue)) :
    matching (keyMatches fnmatch) [] (contents.map (fun e => (c :: e.1, e.2))) = [] :=
  matching_cons_nil (fun key => keyMatches_cons_nil hc key) contents

end Matches

/-- The wildcard characters are three. -/
theorem mem_wild_iff {c : UInt8} : c ∈ [42, 63, 91] ↔ isWild c = true := by
  simp [isWild, or_assoc]

theorem wild_cases {c : UInt8} (h : isWild c = true) : c = 42 ∨ c = 63 ∨ c = 91 := by
  simpa using mem_wild_iff.mpr h

theorem not_wild_of_notMem {c : UInt8} (h : c ∉ [42, 63, 91]) : isWild c = false := by
  rw [← Bool.not_eq_true, ← mem_wild_iff]
  exact h

theorem nodup_wild_concat {c : UInt8} (h : isWild c = false) : ([42, 63, 91] ++ [c]).Nodup := by
  rw [List.nodup_append]
  refine ⟨by decide, List.nodup_singleton c, fun a ha b hb hab => ?_⟩
  rw [mem_wild_iff, hab, List.mem_singleton.mp hb, h] at ha
  exact absurd ha (by simp)

theorem wildChildren_eq (g : List IndexValue → List IndexValue) (fnmatch : CStr → CStr → Bool)
    (children : UInt8 → IndexNode) (key : CStr) :
    wildChildren g fnmatch children key = [42, 63, 91].flatMap (fun c =>
      matching (keyMatches fnmatch) key
        (((children c).contents g).map (fun e => (c :: e.1, e.2)))) := by
  refine List.flatMap_congr (fun c hc => ?_)
  rw [matching_wildChild (mem_wild_iff.mp hc)]

/-- No wildcard character stands in the query before the first byte that no key has. -/
def WildFree (query : CStr) : Prop :=
  ∀ c ∈ query.takeWhile (fun c => c < INDEX_CHILDMAX), isWild c = false

theorem wildFree_of_forall {query : CStr} (h : ∀ c ∈ query, isWild c = false) : WildFree query :=
  fun c hc => h c (List.takeWhile_subset _ hc)

theorem WildFree.head {k : UInt8} {query : CStr} (h : WildFree (k :: query)) :
    isWild k = false := by
  by_cases hk : k < INDEX_CHILDMAX
  · refine h k ?_
    rw [List.takeWhile_cons_of_pos (by simpa using hk)]
    exact List.mem_cons_self ..
  · rw [Bool.eq_false_iff]
    intro hwild
    rcases wild_cases hwild with rfl | rfl | rfl
    · exact hk (by decide)
    · exact hk (by decide)
    · exact hk (by decide)

theorem WildFree.tail {k : UInt8} {query : CStr} (h : WildFree (k :: query))
    (hk : k < INDEX_CHILDMAX) : WildFree query := by
  intro c hc
  refine h c ?_
  rw [List.takeWhile_cons_of_pos (by simpa using hk)]
  exact List.mem_cons_of_mem _ hc

/-- **The descent collects exactly the entries whose keys match.** -/
theorem wildAt_perm (g : List IndexValue → List IndexValue) (fnmatch : CStr → CStr → Bool)
    (key : CStr) :
    WildFree key → ∀ (pfx : CStr) (d : NodeData) (children : UInt8 → IndexNode),
      Ok (.node d children) → Clean pfx →
      (wildAt g fnmatch key pfx d children).Perm
        (matching (keyMatches fnmatch) key (contentsFrom g d children pfx)) := by
  induction key with
  | nil =>
    intro _ pfx d children hok _
    cases pfx with
    | nil =>
      unfold wildAt
      rw [matching_contentsFrom, keyMatches_nil, if_pos (by simp),
        wildChildren_eq]
      refine List.Perm.append_right _ (List.Perm.symm ?_)
      refine flatMap_perm_of_support (nodup_charsBetween ..) (by decide) (fun c _ hc => ?_)
        (fun c _ hc => ?_)
      · exact matching_literalChild_nil (not_wild_of_notMem hc) _
      · rw [hok.node.contents_out g hc]; rfl
    | cons p pfx =>
      unfold wildAt
      rw [contentsFrom_cons]
      by_cases hp : isWild p = true
      · rw [if_pos hp, matching_wildChild hp]
      · rw [if_neg hp, matching_literalChild_nil (by simpa using hp)]
  | cons k key ih =>
    intro hkey pfx d children hok hpfx
    have hk := hkey.head
    cases pfx with
    | nil =>
      unfold wildAt
      rw [matching_contentsFrom, keyMatches_nil, if_neg (by simp), List.append_nil,
        wildChildren_eq]
      -- only the wildcard children and the child for `k` contribute
      have hperm := flatMap_perm_of_support (f := fun c => matching (keyMatches fnmatch) (k :: key)
          (((children c).contents g).map (fun e => (c :: e.1, e.2))))
        (nodup_charsBetween d.first d.last) (nodup_wild_concat hk) (fun c _ hc => by
          rw [List.mem_append, not_or, List.mem_singleton] at hc
          rw [matching_literalChild (not_wild_of_notMem hc.1), if_neg hc.2])
        (fun c _ hc => by rw [hok.node.contents_out g hc]; rfl)
      refine List.Perm.trans ?_ hperm.symm
      rw [List.flatMap_append]
      refine List.Perm.append_left _ ?_
      rw [List.flatMap_singleton, matching_literalChild hk, if_pos rfl]
      cases hc : children k with
      | null => exact List.Perm.refl _
      | node d' children' =>
        have hok' := hok.child k
        rw [hc] at hok'
        -- a byte that has a child is one that keys have
        have hlt : k < INDEX_CHILDMAX := UInt8.lt_of_le_of_lt
          (hok.node.range k (by rw [hc]; exact fun h => nomatch h)).2 hok.node.last_lt
        exact ih (hkey.tail hlt) d'.pfx d' children' hok' hok'.node.pfx
    | cons p pfx =>
      unfold wildAt
      rw [contentsFrom_cons]
      by_cases hp : isWild p = true
      · rw [if_pos hp, matching_wildChild hp]
      · rw [if_neg hp, matching_literalChild (by simpa using hp)]
        by_cases hpk : p = k
        · rw [if_pos hpk, if_pos hpk]
          have hlt := (hpfx p (List.mem_cons_self ..)).2
          exact ih (hkey.tail (hpk ▸ hlt)) pfx d children hok
            (fun c hc => hpfx c (List.mem_cons_of_mem _ hc))
        · rw [if_neg hpk, if_neg hpk]

/-- A search in the file of a tree is the descent in the tree. -/
theorem indexMmSearchwild_wildAt {d : NodeData} {children : UInt8 → IndexNode}
    (hok : Ok (.node d children)) (hlt : (indexWrite (.node d children)).length < 2 ^ 28)
    (fnmatch : CStr → CStr → Bool) :
    ∃ idx bound, indexMmOpen (indexWrite (.node d children)) = .ok idx ∧
      ∀ host query, ∀ fuel ≥ bound, indexMmSearchwild host fnmatch fuel idx query
        = .ok (addValues [] (wildAt id fnmatch query d.pfx d children)) := by
  obtain ⟨idx, x, hopen, hsize, hroot, hshows⟩ := indexMmOpen_written hok hlt
  refine ⟨idx, (IndexNode.node d children).nodes + 128, hopen, fun host query fuel hfuel => ?_⟩
  unfold indexMmSearchwild
  rw [hroot]
  exact searchwild_eq (mmReader_represents hsize) fnmatch hshows hfuel query

/-- What the descent finds in a tree with the given entries. -/
theorem Contains.wildAt_perm {d : NodeData} {children : UInt8 → IndexNode} {es : List Entry}
    (hcont : Contains (.node d children) es) (fnmatch : CStr → CStr → Bool) {query : CStr}
    (hquery : WildFree query) :
    (addValues [] (wildAt id fnmatch query d.pfx d children)).Perm
      ((es.filter (fun e => keyMatches fnmatch e.key query)).map
        (fun e => ⟨e.priority, e.value⟩)) := by
  -- the matching keys of the tree are those of the entries
  have hall : (matching (keyMatches fnmatch) query (contentsFrom id d children d.pfx)).Perm
      ((es.filter (fun e => keyMatches fnmatch e.key query)).map
        (fun e => ⟨e.priority, e.value⟩)) := by
    have hfilter := (hcont.contents_perm.filter (fun e => keyMatches fnmatch e.1 query)).map
      Prod.snd
    rw [List.filter_map, List.map_map] at hfilter
    exact hfilter
  rw [addValues_eq]
  refine (Sorting.insertAll_perm [] _).trans ?_
  rw [List.append_nil]
  exact (Index.wildAt_perm id fnmatch query hquery d.pfx d children hcont.ok
    hcont.ok.node.pfx).trans hall

/--
**Wildcard lookup in a written index.** For every sequence of insertions of clean
strings that leads to a file smaller than `2 ^ 28` bytes, and every query without
wildcard characters: `index_mm_searchwild` ends, and returns the values of
exactly the entries whose keys match the query, ordered by priority.
-/
theorem indexMmSearchwild_written {es : List Entry} (hes : ∀ e ∈ es, e.Clean)
    (fnmatch : CStr → CStr → Bool) :
    ∃ root, insertEntries indexCreate es = .ok root ∧
      ((indexWrite root).length < 2 ^ 28 →
        ∃ idx bound, indexMmOpen (indexWrite root) = .ok idx ∧
          ∀ query, (∀ c ∈ query, isWild c = false) →
            ∃ out, (∀ host, ∀ fuel ≥ bound,
                indexMmSearchwild host fnmatch fuel idx query = .ok out) ∧
              out.Perm ((es.filter (fun e => keyMatches fnmatch e.key query)).map
                (fun e => ⟨e.priority, e.value⟩)) ∧
              out.Pairwise (fun a b => a.priority ≤ b.priority)) := by
  obtain ⟨root, hrun, hcont⟩ := insertEntries_contains hes
  refine ⟨root, hrun, fun hlt => ?_⟩
  cases root with
  | null => exact absurd hcont.rooted (by simp [Rooted])
  | node d children =>
    obtain ⟨idx, bound, hopen, hsearch⟩ := indexMmSearchwild_wildAt hcont.ok hlt fnmatch
    refine ⟨idx, bound, hopen, fun query hquery => ⟨_, fun host => hsearch host query,
      hcont.wildAt_perm fnmatch (wildFree_of_forall hquery), ?_⟩⟩
    rw [addValues_eq]
    exact Sorting.insertAll_sorted (r := ByPriority) List.Pairwise.nil _

theorem indexMmSearchwild_written_sample :
    (∀ e ∈ sampleEntries, e.Clean) ∧
      ∃ root, insertEntries indexCreate sampleEntries = .ok root ∧
        (indexWrite root).length < 2 ^ 28 ∧
        ∃ idx bound, indexMmOpen (indexWrite root) = .ok idx ∧
          ∀ query, (∀ c ∈ query, isWild c = false) →
            ∃ out, (∀ host, ∀ fuel ≥ bound,
                indexMmSearchwild host (fun _ _ => true) fuel idx query = .ok out) ∧
              out.Perm ((sampleEntries.filter (fun e => keyMatches (fun _ _ => true) e.key query)).map
                (fun e => ⟨e.priority, e.value⟩)) ∧
              out.Pairwise (fun a b => a.priority ≤ b.priority) := by
  obtain ⟨root, hrun, hread⟩ := indexMmSearchwild_written
    (show ∀ e ∈ sampleEntries, e.Clean by decide) (fun _ _ => true)
  have hsmall : (indexWrite root).length < 2 ^ 28 := by
    injection hrun with hrun
    rw [← hrun]
    decide
  exact ⟨by decide, root, hrun, hsmall, hread hsmall⟩

/-! ## Larger files

An offset has 28 bits. When the first of two values fills the file up to
`2 ^ 28`, the node of the second key stands at an offset whose address part is
zero, the mark of a missing child.
-/

section Large

variable (value other : CStr) (p q : UInt32)

/-- Two entries with keys `a` and `b`. -/
def twoEntries : List Entry := [⟨cstr "a", value, p⟩, ⟨cstr "b", other, q⟩]

/-- A node with one value and nothing else. -/
def leafWith (v : CStr) (priority : UInt32) : IndexNode :=
  .node ⟨[], [⟨priority, v⟩], INDEX_CHILDMAX, 0, 0, 0⟩ noChildren

/-- The root of their tree, and its children. -/
def twoRoot : NodeData := ⟨[], [], 97, 98, 0, 0⟩

def twoChildren : UInt8 → IndexNode :=
  Function.update (Function.update noChildren 97 (leafWith value p)) 98 (leafWith other q)

section Clean

variable {value other} (hv : Clean value) (ho : Clean other)
include hv ho

theorem insertEntries_two :
    insertEntries indexCreate (twoEntries value other p q)
      = .ok (.node twoRoot (twoChildren value other p q)) := by
  have hcheck := checkstring_of_clean hv
  have hcheck' := checkstring_of_clean ho
  simp only [twoEntries, insertEntries, indexInsert, hcheck, hcheck', bind, Except.bind]
  rfl

theorem two_clean : ∀ e ∈ twoEntries value other p q, e.Clean := by
  intro e he
  rcases List.mem_cons.mp he with rfl | he
  · exact ⟨show Clean (cstr "a") by decide, hv⟩
  · rw [List.mem_singleton.mp he]
    exact ⟨show Clean (cstr "b") by decide, ho⟩

theorem two_ok : Ok (.node twoRoot (twoChildren value other p q)) := by
  obtain ⟨root, hrun, hcont⟩ := insertEntries_contains (two_clean p q hv ho)
  rw [insertEntries_two p q hv ho] at hrun
  injection hrun with hrun
  exact hrun ▸ hcont.ok

end Clean

theorem byteLen_leafWith (v : CStr) (priority : UInt32) :
    byteLen (leafWith v priority) = v.length + 9 := by
  show (0 + 0 + (4 + ((4 + (v.length + 1)) + 0))) + 0 = _
  omega

theorem childOffset_leafWith (v : CStr) (priority : UInt32) (off : Nat) :
    childOffset (leafWith v priority) off = off ||| INDEX_NODE_VALUES := by
  simp [childOffset, leafWith, indexGetMask, indexHaschildren]

/-- The offsets of the two children, if the second one stands at `2 ^ 28`. -/
def twoOffsets : List Nat := [22 ||| INDEX_NODE_VALUES, 2 ^ 28 ||| INDEX_NODE_VALUES]

theorem two_childOffsets (hlen : value.length = 2 ^ 28 - 31) :
    childOffsets (twoChildren value other p q) (charsOf twoRoot) (12 + bodyLen twoRoot)
      = twoOffsets := by
  have h97 : twoChildren value other p q 97 = leafWith value p := rfl
  have h98 : twoChildren value other p q 98 = leafWith other q := rfl
  rw [show charsOf twoRoot = [97, 98] by decide, show 12 + bodyLen twoRoot = 22 from rfl,
    childOffsets, childOffsets, childOffsets, h97, h98, childOffset_leafWith,
    childOffset_leafWith, byteLen_leafWith, hlen, show 22 + (2 ^ 28 - 31 + 9) = 2 ^ 28 by omega]
  rfl

/-- The bytes of the file: the header, the root with its offsets, and the two leaves. -/
theorem two_bytes {value other : CStr} (hv : Clean value) (ho : Clean other)
    (hlen : value.length = 2 ^ 28 - 31) (hlen' : other.length < 2 ^ 31) :
    ∃ rest, indexWrite (.node twoRoot (twoChildren value other p q))
        = be32 INDEX_MAGIC ++ (be32 INDEX_VERSION ++ (be32 (12 ||| indexGetMask twoRoot) ++
          (97 :: 98 :: twoOffsets.flatMap be32 ++ rest))) ∧
      12 < (indexWrite (.node twoRoot (twoChildren value other p q))).length := by
  have hok := two_ok p q hv ho
  have hbytes : byteLen (.node twoRoot (twoChildren value other p q))
      = 2 ^ 28 - 12 + (other.length + 9) := by
    show (2 + 2 * 4 + 0 + 0) + (byteLen (leafWith value p) + (byteLen (leafWith other q) + 0)) = _
    rw [byteLen_leafWith, byteLen_leafWith, hlen]
    omega
  have hfile := indexWrite_eq hok (by rw [hbytes]; omega)
  have hsize := length_indexWrite hok
  unfold layout at hfile
  rw [two_childOffsets value other p q hlen] at hfile
  generalize spread _ _ _ _ = rest at hfile
  exact ⟨rest, hfile, by omega⟩

/-- The mapping shows the root, but a missing child where the second one should be. -/
theorem two_readRoot {value other : CStr} (hv : Clean value) (ho : Clean other)
    (hlen : value.length = 2 ^ 28 - 31) (hlen' : other.length < 2 ^ 31) :
    ∃ idx x, indexMmOpen (indexWrite (.node twoRoot (twoChildren value other p q))) = .ok idx ∧
      indexMmReadNode idx idx.rootOffset = .ok (some x) ∧ x.pfx = [] ∧
      ∀ c, c ≠ 97 → indexMmReadchild idx x c = .ok none := by
  obtain ⟨rest, hfile, hsize⟩ := two_bytes p q hv ho hlen hlen'
  generalize indexWrite (.node twoRoot (twoChildren value other p q)) = file at hfile hsize
  have hword : (12 ||| indexGetMask twoRoot) % 2 ^ 32 = 12 ||| indexGetMask twoRoot := rfl
  have hdrop : file.drop 12 = 97 :: 98 :: twoOffsets.flatMap be32 ++ rest := by
    rw [hfile]
    rfl
  have hopen : indexMmOpen file = .ok ⟨file, 12 ||| indexGetMask twoRoot⟩ := by
    unfold indexMmOpen
    rw [if_neg (by omega)]
    have htake : takeBe32 file = some (INDEX_MAGIC, be32 INDEX_VERSION ++
        (be32 (12 ||| indexGetMask twoRoot) ++ file.drop 12)) := by
      rw [hdrop, hfile]
      rfl
    simp only [htake, takeBe32_be32, hword]
    rfl
  refine ⟨⟨file, 12 ||| indexGetMask twoRoot⟩,
    ⟨[], 97, 98, twoOffsets.flatMap be32 ++ rest, 0, []⟩, hopen, ?_, rfl, fun c hc => ?_⟩
  · have hin : ¬ (12 = 0 ∨ 12 ≥ file.length) := by omega
    have hpfx : readPfxMm (12 ||| indexGetMask twoRoot)
        (97 :: 98 :: twoOffsets.flatMap be32 ++ rest)
        = .ok ([], 97 :: 98 :: twoOffsets.flatMap be32 ++ rest) := rfl
    have hchilds : readChildsMm (12 ||| indexGetMask twoRoot)
        (97 :: 98 :: twoOffsets.flatMap be32 ++ rest)
        = .ok (some (97, 98, twoOffsets.flatMap be32 ++ rest, rest)) := rfl
    have hcount : readCountMm (12 ||| indexGetMask twoRoot) rest = .ok (0, []) := rfl
    unfold indexMmReadNode
    rw [word_address (by decide) twoRoot, if_neg hin, hdrop]
    simp only [hpfx, hchilds, hcount, bind, Except.bind]
  · unfold indexMmReadchild
    by_cases hin : (97 : UInt8) ≤ c ∧ c ≤ 98
    · have hc98 : c = 98 := by
        rw [UInt8.le_iff_toNat_le, UInt8.le_iff_toNat_le] at hin
        have h97 : c.toNat ≠ 97 := fun h => hc (UInt8.toNat_inj.mp h)
        refine UInt8.toNat_inj.mp ?_
        show c.toNat = 98
        have h1 : 97 ≤ c.toNat := hin.1
        have h2 : c.toNat ≤ 98 := hin.2
        omega
      subst hc98
      obtain ⟨rest', htake⟩ := takeBe32_drop
        (show twoOffsets[1]? = some (2 ^ 28 ||| INDEX_NODE_VALUES) from rfl) rest
      -- the address part of `2 ^ 28` is zero
      have haddr : ((2 ^ 28 ||| INDEX_NODE_VALUES) % 2 ^ 32) &&& INDEX_NODE_MASK = 0 := by decide
      rw [if_pos hin, readU32Mm, mmRead, show (98 : UInt8).toNat - (97 : UInt8).toNat = 1 from rfl,
        htake]
      show indexMmReadNode ⟨file, 12 ||| indexGetMask twoRoot⟩
        ((2 ^ 28 ||| INDEX_NODE_VALUES) % 2 ^ 32) = _
      unfold indexMmReadNode
      rw [haddr, if_pos (.inl rfl)]
    · rw [if_neg hin]

end Large

/-- The value that fills the file up to `2 ^ 28`. -/
def largeValue : CStr := List.replicate (2 ^ 28 - 31) 120

theorem largeValue_clean : Clean largeValue := by
  intro c hc
  rw [List.eq_of_mem_replicate hc]
  decide

/-- In the file with this value under `a`, the key `b` is not found. -/
theorem indexMmSearchwild_large :
    (∀ e ∈ twoEntries largeValue (cstr "v") 0 0, e.Clean) ∧
      ∃ root idx, insertEntries indexCreate (twoEntries largeValue (cstr "v") 0 0) = .ok root ∧
        indexMmOpen (indexWrite root) = .ok idx ∧
        (∀ host fnmatch fuel, indexMmSearchwild host fnmatch fuel idx (cstr "b") = .ok []) ∧
        ∃ e ∈ twoEntries largeValue (cstr "v") 0 0,
          ∀ fnmatch, keyMatches fnmatch e.key (cstr "b") = true := by
  have hother : Clean (cstr "v") := by decide
  obtain ⟨idx, x, hopen, hroot, hpfx, hnone⟩ := two_readRoot 0 0 largeValue_clean hother
    (List.length_replicate ..) (by decide)
  refine ⟨two_clean 0 0 largeValue_clean hother, _, idx,
    insertEntries_two 0 0 largeValue_clean hother, hopen,
    fun host fnmatch fuel => ?_, ⟨cstr "b", cstr "v", 0⟩, by simp [twoEntries], fun _ => rfl⟩
  have hchild : ∀ c ≠ 97, ∀ (out : List IndexValue) next,
      (mmReader idx).withChild x c out next = .ok out := by
    intro c hc out next
    unfold Reader.withChild
    rw [show (mmReader idx).readchild x c = .ok none from hnone c hc]
    rfl
  unfold indexMmSearchwild
  rw [hroot]
  show searchwildNode _ _ _ _ _ x.pfx [98] [] = _
  rw [hpfx, searchwildNode]
  simp only [searchwildChildren, searchwildChild, hchild 42 (by decide), hchild 63 (by decide),
    hchild 91 (by decide), hchild 98 (by decide), bind, Except.bind]

end Kmod.Index
