import Kmod.Libkmod.Aliases

/-!
# Queries with wildcards

A query is a name to be matched by the patterns in an index, but nothing keeps
`*`, `?` and `[` out of it: `alias_normalize` lets them through. The search treats
the three characters of a key in two ways. It looks for patterns below the child
of a node for such a character, and then follows the child for the next character
of the query. If that is one of the three, the same subtree is searched twice.
This happens only where a node ends before the character, so what a query finds
depends on how the other keys have divided the tree
(`searchwild_independent_iff`).
-/

namespace Kmod

open Index Fnmatch

/-! ## What is asked of a query -/

/-- The file of the index with these entries is no larger than an offset can count. -/
def Small (es : List Entry) : Prop :=
  ∀ root, insertEntries indexCreate es = .ok root → (indexWrite root).length < 2 ^ 28

/-- What the query finds of an entry does not depend on the other entries, and it finds no entry
twice. -/
def Independent (fnmatch : CStr → CStr → Bool) (q : CStr) : Prop :=
  ∀ es e, (∀ x ∈ e :: es, x.Clean) → e ∉ es → Small es → Small [e] → Small (es ++ [e]) →
    ∃ out out₁ out₂, SearchwildReturns fnmatch (es ++ [e]) q out ∧
      SearchwildReturns fnmatch es q out₁ ∧ SearchwildReturns fnmatch [e] q out₂ ∧
      out.Perm (out₁ ++ out₂) ∧ out₂.length ≤ 1

/-- What the search collects in a tree. -/
def found (fnmatch : CStr → CStr → Bool) (q : CStr) : IndexNode → List IndexValue
  | .null => []
  | .node d children => wildAt id fnmatch q d.pfx d children

section Returns

variable {es : List Entry} {root : IndexNode} (hes : ∀ e ∈ es, e.Clean) (hsmall : Small es)
  (hroot : insertEntries indexCreate es = .ok root) (fnmatch : CStr → CStr → Bool) (q : CStr)
include hes hsmall hroot

/-- **The search ends**, with what the descent collects in the tree. -/
theorem searchwildReturns_found :
    SearchwildReturns fnmatch es q (addValues [] (found fnmatch q root)) := by
  obtain ⟨root', hrun, hcont⟩ := insertEntries_contains hes
  obtain rfl : root' = root := Except.ok.inj (hrun.symm.trans hroot)
  cases root' with
  | null => exact absurd hcont.rooted (by simp [Rooted])
  | node d children =>
    obtain ⟨idx, bound, hopen, hsearch⟩ :=
      indexMmSearchwild_wildAt hcont.ok (hsmall _ hrun) fnmatch
    exact ⟨_, idx, bound, hrun, hopen, fun host => hsearch host q⟩

/-- The number of values that are returned. -/
theorem length_searchwildReturns {out : List IndexValue} (h : SearchwildReturns fnmatch es q out) :
    out.length = (found fnmatch q root).length := by
  rw [h.unique (searchwildReturns_found hes hsmall hroot fnmatch q), addValues_eq,
    (Sorting.insertAll_perm [] _).length_eq, List.append_nil]

end Returns

/-! ## Queries without wildcards -/

theorem searchwildReturns_wildFree {es : List Entry} (hes : ∀ e ∈ es, e.Clean) (hsmall : Small es)
    (fnmatch : CStr → CStr → Bool) {q : CStr} (hq : WildFree q) :
    ∃ out, SearchwildReturns fnmatch es q out ∧
      out.Perm ((es.filter (fun e => keyMatches fnmatch e.key q)).map
        (fun e => ⟨e.priority, e.value⟩)) := by
  obtain ⟨root, hrun, hcont⟩ := insertEntries_contains hes
  refine ⟨_, searchwildReturns_found hes hsmall hrun fnmatch q, ?_⟩
  cases root with
  | null => exact absurd hcont.rooted (by simp [Rooted])
  | node d children => exact hcont.wildAt_perm fnmatch hq

theorem independent_of_wildFree (fnmatch : CStr → CStr → Bool) {q : CStr} (hq : WildFree q) :
    Independent fnmatch q := by
  intro es e hclean _ hes he hall
  have hclean' : ∀ x ∈ es ++ [e], x.Clean := by
    intro x hx
    rcases List.mem_append.mp hx with hx | hx
    · exact hclean x (List.mem_cons_of_mem _ hx)
    · exact hclean x (List.mem_singleton.mp hx ▸ List.mem_cons_self ..)
  obtain ⟨out, hout, hperm⟩ := searchwildReturns_wildFree hclean' hall fnmatch hq
  obtain ⟨out₁, hout₁, hperm₁⟩ := searchwildReturns_wildFree
    (fun x hx => hclean x (List.mem_cons_of_mem _ hx)) hes fnmatch hq
  obtain ⟨out₂, hout₂, hperm₂⟩ := searchwildReturns_wildFree
    (fun x hx => hclean x (List.mem_singleton.mp hx ▸ List.mem_cons_self ..)) he fnmatch hq
  refine ⟨out, out₁, out₂, hout, hout₁, hout₂, ?_, ?_⟩
  · rw [List.filter_append, List.map_append] at hperm
    exact hperm.trans (hperm₁.symm.append hperm₂.symm)
  · rw [hperm₂.length_eq, List.length_map]
    exact List.length_filter_le ..

/-! ## The descent in a tree with one branch -/

section Descent

variable {fnmatch : CStr → CStr → Bool} {d : NodeData} {children : UInt8 → IndexNode}

/-- A prefix without wildcards is passed over. -/
theorem wildAt_append {us : CStr} (hus : ∀ c ∈ us, isWild c = false) (key pfx : CStr) :
    wildAt id fnmatch (us ++ key) (us ++ pfx) d children =
      wildAt id fnmatch key pfx d children := by
  induction us with
  | nil => rfl
  | cons u us ih =>
    have hu := hus u (List.mem_cons_self ..)
    rw [List.cons_append, List.cons_append, wildAt, if_neg (by simp [hu]), if_pos rfl]
    exact ih (fun c hc => hus c (List.mem_cons_of_mem _ hc))

/-- A wildcard in the prefix makes everything below a pattern. -/
theorem wildAt_wild {p : UInt8} (hp : isWild p = true) (key pfx : CStr) :
    wildAt id fnmatch key (p :: pfx) d children
      = matching fnmatch key (contentsFrom id d children (p :: pfx)) := by
  cases key with
  | nil => rw [wildAt, if_pos hp]
  | cons k key => rw [wildAt, if_pos hp]

/-- The wildcard children of a node with one child. -/
theorem wildChildren_only (c : UInt8) (child : IndexNode) (key : CStr) :
    wildChildren id fnmatch (Function.update noChildren c child) key
      = if isWild c then
          matching fnmatch key ((child.contents id).map (fun e => (c :: e.1, e.2)))
        else [] := by
  have hother : ∀ x, x ≠ c → matching fnmatch key
      (((Function.update noChildren c child x).contents id).map (fun e => (x :: e.1, e.2))) = [] := by
    intro x hx
    rw [Function.update_of_ne hx]
    rfl
  unfold wildChildren
  split
  · next hc =>
    rw [Lists.flatMap_eq_single (by decide) (fun x _ hx => hother x hx)
      (fun hno => absurd (mem_wild_iff.mpr hc) hno), Function.update_self]
  · next hc =>
    refine List.flatMap_eq_nil_iff.mpr (fun x hx => hother x ?_)
    rintro rfl
    exact hc (mem_wild_iff.mp hx)

/-- What the root of a tree with one branch contributes. -/
theorem found_onlyChild (pfx : CStr) (hpfx : ∀ c ∈ pfx, isWild c = false) (values : List IndexValue)
    (c : UInt8) (child : IndexNode) (k : UInt8) (q : CStr) :
    found fnmatch (pfx ++ k :: q) (onlyChild pfx values c child)
      = (if isWild c then
          matching fnmatch (k :: q) ((child.contents id).map (fun e => (c :: e.1, e.2))) else []) ++
        if k = c then found fnmatch q child else [] := by
  have happend : wildAt id fnmatch (pfx ++ k :: q) (pfx ++ []) ⟨pfx, values, c, c, 0, 0⟩
      (Function.update noChildren c child) = _ := wildAt_append hpfx (k :: q) []
  rw [List.append_nil] at happend
  refine happend.trans ?_
  rw [wildAt, wildChildren_only]
  refine congrArg _ ?_
  by_cases hk : k = c
  · subst hk
    rw [if_pos rfl, Function.update_self]
    cases child with
    | null => rfl
    | node d' children' => rfl
  · rw [if_neg hk, Function.update_of_ne hk]
    rfl

theorem contentsFrom_leaf (pfx pfx' value : CStr) (priority : UInt32) :
    contentsFrom id ⟨pfx, [⟨priority, value⟩], INDEX_CHILDMAX, 0, 0, 0⟩ noChildren pfx'
      = [(pfx', ⟨priority, value⟩)] := by
  unfold contentsFrom
  rw [show charsBetween INDEX_CHILDMAX 0 = [] by decide]
  rfl

/-- A leaf that ends before the query does. -/
theorem found_leafNode_short {us : CStr} (hus : ∀ c ∈ us, isWild c = false) (value : CStr)
    (priority : UInt32) (k : UInt8) (q : CStr) :
    found fnmatch (us ++ k :: q) (leafNode us value priority) = [] := by
  have happend : wildAt id fnmatch (us ++ k :: q) (us ++ [])
      ⟨us, [⟨priority, value⟩], INDEX_CHILDMAX, 0, 0, 0⟩ noChildren = _ :=
    wildAt_append hus (k :: q) []
  rw [List.append_nil] at happend
  exact happend

/-- A leaf with a wildcard in its prefix. -/
theorem found_leafNode_wild {us : CStr} (hus : ∀ c ∈ us, isWild c = false) {c : UInt8}
    (hc : isWild c = true) (rest value : CStr) (priority : UInt32) (q : CStr) :
    found fnmatch (us ++ q) (leafNode (us ++ c :: rest) value priority)
      = matching fnmatch q [(c :: rest, ⟨priority, value⟩)] := by
  have happend : wildAt id fnmatch (us ++ q) (us ++ c :: rest)
      ⟨us ++ c :: rest, [⟨priority, value⟩], INDEX_CHILDMAX, 0, 0, 0⟩ noChildren = _ :=
    wildAt_append hus q (c :: rest)
  refine happend.trans ?_
  rw [wildAt_wild hc, contentsFrom_leaf]

/-- **A node before a wildcard**: what is below is found as a pattern, and once more because the
query goes on with the same character. -/
theorem length_found_twice (hf : Posix fnmatch) {us : CStr} (hus : ∀ c ∈ us, isWild c = false)
    {c : UInt8} (hc : isWild c = true) (values : List IndexValue) (value : CStr)
    (priority : UInt32) (q : CStr) :
    (found fnmatch (us ++ c :: q) (onlyChild us values c (leafNode [42] value priority))).length
      = (matching fnmatch (c :: q) [([c, 42], ⟨priority, value⟩)]).length + 1 := by
  have hstar : fnmatch [42] q = true :=
    (hf.star [] q).mpr ⟨[], List.nil_suffix, (hf.nil []).mpr rfl⟩
  have hleaf : found fnmatch q (leafNode [42] value priority) = [⟨priority, value⟩] := by
    have hwild : found fnmatch ([] ++ q) (leafNode ([] ++ [42]) value priority) = _ :=
      found_leafNode_wild (by simp) (by decide) [] value priority q
    rw [List.nil_append, List.nil_append] at hwild
    rw [hwild]
    simp [matching, hstar]
  have hcontents : (leafNode [42] value priority).contents id = [([42], ⟨priority, value⟩)] :=
    contentsFrom_leaf [42] [42] value priority
  rw [found_onlyChild us hus, if_pos hc, if_pos rfl, hleaf, List.length_append, hcontents]
  rfl

end Descent

/-! ## Queries with wildcards -/

/-- A key with a wildcard, and more of them behind it. -/
def starred (u : CStr) (c : UInt8) : Entry := ⟨u ++ [c, 42], cstr "k", 0⟩

/-- A key that ends before the wildcard. -/
def stem (u : CStr) : Entry := ⟨u, cstr "s", 0⟩

section Starred

variable {u : UInt8} {us : CStr} {c : UInt8}

theorem starred_clean {us : CStr} (hus : Index.Clean us) (hc : isWild c = true) :
    (starred us c).Clean := by
  refine ⟨fun x hx => ?_, show Index.Clean (cstr "k") by decide⟩
  rcases List.mem_append.mp hx with hx | hx
  · exact hus x hx
  · rcases List.mem_cons.mp hx with rfl | hx
    · rcases wild_cases hc with rfl | rfl | rfl
      · decide
      · decide
      · decide
    · rw [List.mem_singleton.mp hx]
      decide

theorem stem_clean (hus : Index.Clean us) : (stem us).Clean :=
  ⟨hus, show Index.Clean (cstr "s") by decide⟩

/-- The stem keeps the branch open: the wildcard is on an arc of the tree. -/
theorem insertEntries_starred (hus : Index.Clean (u :: us)) (hc : isWild c = true) :
    insertEntries indexCreate [stem (u :: us), starred (u :: us) c]
      = .ok (onlyChild [] [] u (onlyChild us [⟨0, cstr "s"⟩] c (leafNode [42] (cstr "k") 0))) := by
  have hkey := (starred_clean hus hc).1
  have hvalue := (starred_clean hus hc).2
  have hrest : Index.Clean [c, 42] := fun x hx => hkey x (List.mem_append_right _ hx)
  have hlower : insertLoop (leafNode us (cstr "s") 0) (us ++ [c, 42]) (cstr "k") 0
      = (onlyChild us [⟨0, cstr "s"⟩] c (leafNode [42] (cstr "k") 0), 0) := by
    unfold leafNode insertLoop
    rw [Lists.commonPrefix_append]
    exact congrArg (fun t => (t, (0 : Int))) (addChild_first hrest us [⟨0, cstr "s"⟩] 0)
  have hupper : insertLoop (onlyChild [] [] u (leafNode us (cstr "s") 0)) (u :: us ++ [c, 42])
      (cstr "k") 0
      = (onlyChild [] [] u (onlyChild us [⟨0, cstr "s"⟩] c (leafNode [42] (cstr "k") 0)), 0) := by
    have hchild : Function.update noChildren u (leafNode us (cstr "s") 0) u
        = leafNode us (cstr "s") 0 := Function.update_self ..
    unfold onlyChild
    rw [List.cons_append, insertLoop]
    show (if (Function.update noChildren u (leafNode us (cstr "s") 0) u).isNull then _ else _) = _
    rw [hchild, hlower]
    show (IndexNode.node _ (Function.update (Function.update noChildren u _) u _), (0 : Int)) = _
    rw [Function.update_idem]
    rfl
  have hfirst : indexInsert indexCreate (u :: us) (cstr "s") 0
      = .ok (onlyChild [] [] u (leafNode us (cstr "s") 0), 0) :=
    indexInsert_first hus (stem_clean hus).2 0
  have hsecond : indexInsert (onlyChild [] [] u (leafNode us (cstr "s") 0)) (u :: us ++ [c, 42])
      (cstr "k") 0 = .ok (onlyChild [] [] u
        (onlyChild us [⟨0, cstr "s"⟩] c (leafNode [42] (cstr "k") 0)), 0) := by
    unfold indexInsert
    rw [← hupper]
    refine if_pos ?_
    rw [Bool.and_eq_true]
    exact ⟨checkstring_of_clean hkey, checkstring_of_clean hvalue⟩
  simp only [insertEntries, stem, starred, hfirst, hsecond, ok_bind]

/-- None of these files is large. -/
theorem small_starred (hus : Index.Clean us) (hc : isWild c = true) (hlen : us.length < PATH_MAX) :
    Small [starred us c] := by
  intro root hroot
  have hsize := length_indexWrite_single (starred_clean hus hc).1 (starred_clean hus hc).2 hroot
  have hvalue : (starred us c).value.length = 1 := rfl
  have hkey : (starred us c).key.length = us.length + 2 := List.length_append
  unfold PATH_MAX at hlen
  rw [hkey, hvalue] at hsize
  omega

theorem small_stem (hus : Index.Clean us) (hlen : us.length < PATH_MAX) : Small [stem us] := by
  intro root hroot
  have hsize := length_indexWrite_single (stem_clean hus).1 (stem_clean hus).2 hroot
  have hvalue : (stem us).value.length = 1 := rfl
  have hkey : (stem us).key = us := rfl
  unfold PATH_MAX at hlen
  rw [hkey] at hsize
  omega

theorem small_both (hus : Index.Clean (u :: us)) (hc : isWild c = true)
    (hlen : (u :: us).length < PATH_MAX) : Small [stem (u :: us), starred (u :: us) c] := by
  intro root hroot
  have hclean : ∀ e ∈ [stem (u :: us), starred (u :: us) c], e.Clean := by
    intro e he
    rcases List.mem_cons.mp he with rfl | he
    · exact stem_clean hus
    · rw [List.mem_singleton.mp he]
      exact starred_clean hus hc
  obtain ⟨root', hrun, hcont⟩ := insertEntries_contains hclean
  obtain rfl : root' = root := Except.ok.inj (hrun.symm.trans hroot)
  obtain rfl := Except.ok.inj (hroot.symm.trans (insertEntries_starred hus hc))
  have hu := (hus u (List.mem_cons_self ..)).2
  have hc' : c < INDEX_CHILDMAX :=
    ((starred_clean hus hc).1 c (List.mem_append_right _ (List.mem_cons_self ..))).2
  have hupper : bodyLen ⟨[], [], u, u, 0, 0⟩ = 6 := by simp [bodyLen, indexHaschildren, hu]
  have hlower : bodyLen ⟨us, [⟨0, cstr "s"⟩], c, c, 0, 0⟩ ≤ us.length + 17 := by
    have hvalue : (cstr "s").length = 1 := rfl
    unfold bodyLen
    simp only [indexHaschildren, hc', decide_true, if_true, List.map_cons, List.map_nil,
      List.sum_cons, List.sum_nil, hvalue]
    split <;> split <;> omega
  have hleaf := byteLen_leafNode_le [42] (cstr "k") 0
  have hbytes : byteLen (onlyChild [] [] u
      (onlyChild us [⟨0, cstr "s"⟩] c (leafNode [42] (cstr "k") 0))) ≤ us.length + 35 := by
    rw [byteLen_onlyChild hu, byteLen_onlyChild hc', hupper]
    have hvalue : (cstr "k").length = 1 := rfl
    rw [hvalue, List.length_singleton] at hleaf
    omega
  have hsize := length_indexWrite hcont.ok
  unfold PATH_MAX at hlen
  rw [List.length_cons] at hlen
  unfold onlyChild at hbytes hsize ⊢
  omega

end Starred

/-- The first wildcard of a query, where it is in reach of a key. -/
theorem exists_first_wild {q : CStr} (h : ¬ WildFree q) :
    ∃ u c v, q = u ++ c :: v ∧ (∀ x ∈ u, isWild x = false ∧ x < INDEX_CHILDMAX) ∧
      isWild c = true := by
  induction q with
  | nil => exact absurd (fun c hc => nomatch hc) h
  | cons k q ih =>
    by_cases hk : isWild k = true
    · exact ⟨[], k, q, rfl, by simp, hk⟩
    · rw [Bool.not_eq_true] at hk
      by_cases hlt : k < INDEX_CHILDMAX
      · have hq : ¬ WildFree q := by
          intro hq
          refine h (fun c hc => ?_)
          rw [List.takeWhile_cons_of_pos (by simpa using hlt)] at hc
          rcases List.mem_cons.mp hc with rfl | hc
          · exact hk
          · exact hq c hc
        obtain ⟨u, c, v, rfl, hu, hc⟩ := ih hq
        refine ⟨k :: u, c, v, rfl, fun x hx => ?_, hc⟩
        rcases List.mem_cons.mp hx with rfl | hx
        · exact ⟨hk, hlt⟩
        · exact hu x hx
      · -- no key has this byte
        refine absurd (fun c hc => ?_) h
        rw [List.takeWhile_cons_of_neg (by simpa using hlt)] at hc
        exact nomatch hc

/-- As a pattern, a wildcard and a star match what begins with the wildcard. -/
theorem starred_match {fnmatch : CStr → CStr → Bool} (hf : Posix fnmatch) {c : UInt8}
    (hc : isWild c = true) (q : CStr) : fnmatch [c, 42] (c :: q) = true := by
  have hstar : fnmatch [42] q = true :=
    (hf.star [] q).mpr ⟨[], List.nil_suffix, (hf.nil []).mpr rfl⟩
  rcases wild_cases hc with rfl | rfl | rfl
  · exact (hf.star [42] _).mpr ⟨q, List.suffix_cons .., hstar⟩
  · exact (hf.question [42] _).mpr ⟨63, q, rfl, hstar⟩
  · exact (hf.bracket [42] _ (by decide)).mpr ⟨q, rfl, hstar⟩

section Dependent

variable {fnmatch : CStr → CStr → Bool} (hf : Posix fnmatch) {c : UInt8} (hc : isWild c = true)
  {q : CStr}
include hf hc

/-- At the root there is always a branch: the entry is found twice. -/
theorem not_independent_root : ¬ Independent fnmatch (c :: q) := by
  intro h
  have hclean : (starred [] c).Clean := starred_clean (by simp [Index.Clean]) hc
  have hsmall : Small [starred [] c] := small_starred (by simp [Index.Clean]) hc (by decide)
  have hempty : Small [] := by
    intro root hroot
    obtain rfl : indexCreate = root := Except.ok.inj hroot
    decide
  obtain ⟨_, _, out, _, _, hout, _, hlen⟩ := h [] (starred [] c)
    (fun x hx => List.mem_singleton.mp hx ▸ hclean) (by simp) hempty hsmall hsmall
  have hsingle : insertEntries indexCreate [starred [] c]
      = .ok (onlyChild [] [] c (leafNode [42] (cstr "k") 0)) :=
    insertEntries_single hclean.1 hclean.2 0
  have hcount := length_searchwildReturns (fun x hx => List.mem_singleton.mp hx ▸ hclean) hsmall
    hsingle fnmatch _ hout
  have htwice : (found fnmatch ([] ++ c :: q) (onlyChild [] [] c (leafNode [42] (cstr "k") 0))).length
      = _ := length_found_twice hf (by simp) hc [] (cstr "k") 0 q
  rw [List.nil_append, ← hcount] at htwice
  simp only [matching, List.filter_cons, starred_match hf hc q, if_true, List.filter_nil,
    List.map_cons, List.map_nil, List.length_singleton] at htwice
  omega

/-- Below the root it takes another key: with the stem alone nothing is found, and with both keys
the starred one is found once more than by itself. -/
theorem not_independent_below {u : UInt8} {us : CStr} (hus : Index.Clean (u :: us))
    (hwild : ∀ x ∈ u :: us, isWild x = false) (hlen : (u :: us).length < PATH_MAX) :
    ¬ Independent fnmatch (u :: us ++ c :: q) := by
  intro h
  have hu : isWild u = false := hwild u (List.mem_cons_self ..)
  have hwild' : ∀ x ∈ us, isWild x = false := fun x hx => hwild x (List.mem_cons_of_mem _ hx)
  have hclean := starred_clean hus hc
  have hclean₁ := stem_clean hus
  have hboth : ∀ x ∈ [stem (u :: us), starred (u :: us) c], x.Clean := by
    intro x hx
    rcases List.mem_cons.mp hx with rfl | hx
    · exact hclean₁
    · exact List.mem_singleton.mp hx ▸ hclean
  have hne : starred (u :: us) c ∉ [stem (u :: us)] := by
    intro hmem
    have hvalue := congrArg Entry.value (List.mem_singleton.mp hmem)
    exact absurd hvalue (show cstr "k" ≠ cstr "s" by decide)
  obtain ⟨out, out₁, out₂, hout, hout₁, hout₂, hperm, _⟩ := h [stem (u :: us)] (starred (u :: us) c)
    (fun x hx => hboth x (by simpa [or_comm] using hx)) hne (small_stem hus hlen)
    (small_starred hus hc hlen) (small_both hus hc hlen)
  -- one search after the other
  have hroot : ∀ child, found fnmatch (u :: us ++ c :: q) (onlyChild [] [] u child)
      = found fnmatch (us ++ c :: q) child := by
    intro child
    have hstep : found fnmatch ([] ++ u :: (us ++ c :: q)) (onlyChild [] [] u child) = _ :=
      found_onlyChild [] (by simp) [] u child u (us ++ c :: q)
    rw [hu, if_neg (by simp), if_pos rfl] at hstep
    exact hstep
  have hcount := length_searchwildReturns hboth (small_both hus hc hlen)
    (insertEntries_starred hus hc) fnmatch _ hout
  have hcount₁ := length_searchwildReturns (fun x hx => List.mem_singleton.mp hx ▸ hclean₁)
    (small_stem hus hlen) (insertEntries_single hclean₁.1 hclean₁.2 0) fnmatch _ hout₁
  have hsingle : insertEntries indexCreate [starred (u :: us) c]
      = .ok (onlyChild [] [] u (leafNode (us ++ [c, 42]) (cstr "k") 0)) :=
    insertEntries_single hclean.1 hclean.2 0
  have hcount₂ := length_searchwildReturns (fun x hx => List.mem_singleton.mp hx ▸ hclean)
    (small_starred hus hc hlen) hsingle fnmatch _ hout₂
  rw [hroot, length_found_twice hf hwild' hc] at hcount
  rw [hroot, found_leafNode_short hwild'] at hcount₁
  rw [hroot, found_leafNode_wild hwild' hc] at hcount₂
  have hlens := hperm.length_eq
  rw [List.length_append, hcount, hcount₁, hcount₂, List.length_nil] at hlens
  omega

end Dependent

/--
**Which queries are independent of the other keys.** For every query that
`alias_normalize` lets through: what it finds in an index is what it finds in its
parts, and nothing twice, if and only if it has no wildcard character before the
first byte that no key can have.
-/
theorem searchwild_independent_iff {fnmatch : CStr → CStr → Bool} (hf : Posix fnmatch)
    {s q : CStr} (hnorm : aliasNormalize s = some q) (hnul : 0 ∉ q) :
    Independent fnmatch q ↔ WildFree q := by
  refine ⟨fun h => ?_, independent_of_wildFree fnmatch⟩
  by_contra hno
  obtain ⟨u, c, v, rfl, hu, hc⟩ := exists_first_wild hno
  cases u with
  | nil => exact not_independent_root hf hc h
  | cons u us =>
    have hclean : Index.Clean (u :: us) :=
      fun x hx => ⟨fun h0 => hnul (h0 ▸ List.mem_append_left _ hx), (hu x hx).2⟩
    have hlen := length_aliasNormalize hnorm
    rw [List.length_append] at hlen
    exact not_independent_below hf hc hclean (fun x hx => (hu x hx).1) (by omega) h

/-- A query with a star. -/
theorem searchwild_independent_iff_star :
    aliasNormalize (cstr "a-*") = some (cstr "a_*") ∧ 0 ∉ cstr "a_*" ∧
      (Independent simpleMatch (cstr "a_*") ↔ WildFree (cstr "a_*")) :=
  ⟨by decide, by decide,
    searchwild_independent_iff simpleMatch_posix (s := cstr "a-*") (by decide) (by decide)⟩

/-- In the index of `a` and `a**`, the query `a*` finds the second entry twice; in the index of
`a**` alone it finds it once, in the index of `a` nothing. -/
theorem starQuery_dependent :
    aliasNormalize (cstr "a*") = some (cstr "a*") ∧
      (∀ e ∈ [stem (cstr "a"), starred (cstr "a") 42], e.Clean) ∧
      Small [stem (cstr "a"), starred (cstr "a") 42] ∧
      SearchwildReturns simpleMatch [stem (cstr "a"), starred (cstr "a") 42] (cstr "a*")
        [⟨0, cstr "k"⟩, ⟨0, cstr "k"⟩] ∧
      SearchwildReturns simpleMatch [starred (cstr "a") 42] (cstr "a*") [⟨0, cstr "k"⟩] ∧
      SearchwildReturns simpleMatch [stem (cstr "a")] (cstr "a*") [] := by
  have hus : Index.Clean (cstr "a") := by decide
  have hboth : ∀ e ∈ [stem (cstr "a"), starred (cstr "a") 42], e.Clean := by decide
  have hsmall : Small [stem (cstr "a"), starred (cstr "a") 42] :=
    small_both hus (by decide) (by decide)
  refine ⟨by decide, hboth, hsmall, ?_, ?_, ?_⟩
  · exact searchwildReturns_found hboth hsmall (insertEntries_starred hus (by decide)) simpleMatch _
  · exact searchwildReturns_found (by decide) (small_starred hus (by decide) (by decide))
      (insertEntries_single (starred_clean hus (by decide)).1 (by decide) 0) simpleMatch _
  · exact searchwildReturns_found (by decide) (small_stem hus (by decide))
      (insertEntries_single hus (by decide) 0) simpleMatch _

end Kmod
