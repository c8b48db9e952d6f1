import Kmod.Index.ReadBack
import Mathlib.Data.List.Perm.Basic

/-!
# The contents of a tree

All keys of a tree with their values, in the order in which a traversal comes by,
and what a traversal needs to go through them: loops over characters and a
measure of the tree.

Read key by key the contents are what `lookup` says (`matching_hasKey`), so taken
together they are the entries that were inserted (`Contains.contents_perm`).
-/

namespace Kmod.Index

open Kmod.Lists Bytes

/-! ## The contents of a tree -/

section Contents

variable (g : List IndexValue → List IndexValue)

/-- Keys with their values, children before the node itself. -/
def IndexNode.contents : IndexNode → List (CStr × IndexValue)
  | .null => []
  | .node d children =>
    (charsBetween d.first d.last).flatMap (fun c =>
      ((children c).contents).map (fun e => (d.pfx ++ c :: e.1, e.2))) ++
    (g d.values).map (fun v => (d.pfx, v))

/-- The contents of a node, with `pfx` for its prefix. -/
def contentsFrom (d : NodeData) (children : UInt8 → IndexNode) (pfx : CStr) :
    List (CStr × IndexValue) :=
  (charsBetween d.first d.last).flatMap (fun c =>
    ((children c).contents g).map (fun e => (pfx ++ c :: e.1, e.2))) ++
  (g d.values).map (fun v => (pfx, v))

theorem contents_node (d : NodeData) (children : UInt8 → IndexNode) :
    (IndexNode.node d children).contents g = contentsFrom g d children d.pfx := rfl

theorem contentsFrom_cons (d : NodeData) (children : UInt8 → IndexNode) (p : UInt8) (pfx : CStr) :
    contentsFrom g d children (p :: pfx)
      = (contentsFrom g d children pfx).map (fun e => (p :: e.1, e.2)) := by
  simp [contentsFrom, List.map_flatMap, Function.comp_def]

theorem contentsFrom_append (d : NodeData) (children : UInt8 → IndexNode) (buf pfx : CStr) :
    contentsFrom g d children (buf ++ pfx)
      = (contentsFrom g d children pfx).map (fun e => (buf ++ e.1, e.2)) := by
  simp [contentsFrom, List.map_flatMap, Function.comp_def]

end Contents

theorem nodup_charsBetween (first last : UInt8) : (charsBetween first last).Nodup := by
  refine List.Nodup.map_on ?_ (List.nodup_range' ..)
  intro a ha b hb hab
  have hlast := last.toNat_lt
  rw [List.mem_range'] at ha hb
  have := congrArg UInt8.toNat hab
  rw [UInt8.toNat_ofNat', UInt8.toNat_ofNat'] at this
  omega

theorem NodeOk.contents_out {d : NodeData} {children : UInt8 → IndexNode} (h : NodeOk d children)
    (g : List IndexValue → List IndexValue) {c : UInt8} (hc : c ∉ charsBetween d.first d.last) :
    (children c).contents g = [] := by
  have hnull : children c = .null := by
    by_contra hne
    exact hc (mem_charsBetween.mpr (h.range c hne))
  rw [hnull]
  rfl

/-! ## Selecting from the contents -/

/-- The values of the keys selected for a query. -/
def matching (select : CStr → CStr → Bool) (query : CStr) (contents : List (CStr × IndexValue)) :
    List IndexValue :=
  (contents.filter (fun e => select e.1 query)).map Prod.snd

theorem matching_contentsFrom (g : List IndexValue → List IndexValue) (select : CStr → CStr → Bool)
    (d : NodeData) (children : UInt8 → IndexNode) (buf query : CStr) :
    matching select query (contentsFrom g d children buf)
      = (charsBetween d.first d.last).flatMap (fun c =>
          matching select query
            (((children c).contents g).map (fun e => (buf ++ c :: e.1, e.2)))) ++
        if select buf query then g d.values else [] := by
  unfold matching contentsFrom
  rw [List.filter_append, List.map_append, List.filter_flatMap,
    List.map_flatMap]
  congr 1
  by_cases hm : select buf query = true
  · rw [if_pos hm, List.filter_eq_self.mpr (by simpa using fun _ _ => hm)]
    simp
  · rw [if_neg hm, List.filter_eq_nil_iff.mpr (by simpa using fun _ _ => hm)]
    rfl

/-- Entries that all begin with `c`, when none of these is selected. -/
theorem matching_cons_nil {select : CStr → CStr → Bool} {c : UInt8} {query : CStr}
    (h : ∀ key, select (c :: key) query = false) (contents : List (CStr × IndexValue)) :
    matching select query (contents.map (fun e => (c :: e.1, e.2))) = [] := by
  unfold matching
  rw [List.filter_map, List.filter_eq_nil_iff.mpr]
  · rfl
  · intro e _
    simp [Function.comp, h]

/-- Entries that all begin with `c`, when selecting goes on behind it. -/
theorem matching_cons {select : CStr → CStr → Bool} {c : UInt8} {query query' : CStr}
    (h : ∀ key, select (c :: key) query = select key query')
    (contents : List (CStr × IndexValue)) :
    matching select query (contents.map (fun e => (c :: e.1, e.2)))
      = matching select query' contents := by
  rw [matching, matching, List.filter_map, List.map_map]
  refine congrArg (List.map _) (List.filter_congr (fun e _ => ?_))
  exact h e.1

/-- Select one key. -/
def hasKey (key query : CStr) : Bool := key = query

/-- **Read key by key, the contents are what `lookup` says.** -/
theorem matching_hasKey {g : List IndexValue → List IndexValue} (hg : g [] = []) (t : IndexNode) :
    Ok t → ∀ q, matching hasKey q (t.contents g) = g (t.lookup q) := by
  induction t with
  | null => intro _ q; exact hg.symm
  | node d children ih =>
    intro hok
    -- first with any prefix in place of the node's own
    have hfrom : ∀ pfx q, matching hasKey q (contentsFrom g d children pfx)
        = g (descend d.values (fun c => (children c).lookup) pfx q) := by
      intro pfx
      induction pfx with
      | nil =>
        intro q
        rw [matching_contentsFrom]
        cases q with
        | nil =>
          have hnone : (charsBetween d.first d.last).flatMap (fun c => matching hasKey []
              (((children c).contents g).map (fun e => ([] ++ c :: e.1, e.2)))) = [] := by
            rw [List.flatMap_eq_nil_iff]
            exact fun c _ => matching_cons_nil (fun _ => by simp [hasKey]) _
          rw [hnone, if_pos (by simp [hasKey])]
          rfl
        | cons c q =>
          have hone := flatMap_eq_single (l := charsBetween d.first d.last) (a := c)
            (f := fun c' => matching hasKey (c :: q)
              (((children c').contents g).map (fun e => ([] ++ c' :: e.1, e.2))))
            (nodup_charsBetween ..)
            (fun b _ hb => matching_cons_nil (fun _ => by simp [hasKey, hb]) _)
            (fun hc => by rw [hok.node.contents_out g hc]; rfl)
          rw [hone, if_neg (by simp [hasKey]), List.append_nil, descend, ← ih c (hok.child c)]
          exact matching_cons (fun _ => by simp [hasKey]) _
      | cons p pfx ihp =>
        intro q
        rw [contentsFrom_cons]
        cases q with
        | nil => rw [matching_cons_nil (fun _ => by simp [hasKey]), descend, hg]
        | cons k q =>
          unfold descend
          by_cases hpk : p = k
          · rw [if_pos hpk, ← ihp]
            exact matching_cons (fun _ => by simp [hasKey, hpk]) _
          · rw [if_neg hpk, matching_cons_nil (fun _ => by simp [hasKey, hpk]), hg]
    intro q
    rw [contents_node, lookup_node]
    exact hfrom d.pfx q

theorem count_matching_hasKey (contents : List (CStr × IndexValue)) (key : CStr) (v : IndexValue) :
    (matching hasKey key contents).count v = contents.count (key, v) := by
  induction contents with
  | nil => rfl
  | cons e contents ih =>
    rw [List.count_cons, ← ih]
    obtain ⟨k, w⟩ := e
    by_cases hk : k = key
    · simp [matching, hasKey, hk, List.count_cons]
    · simp [matching, hasKey, hk]

/-- The entries as the contents of a tree list them. -/
def Entry.content (e : Entry) : CStr × IndexValue := (e.key, ⟨e.priority, e.value⟩)

theorem matching_entries (es : List Entry) (key : CStr) :
    matching hasKey key (es.map Entry.content) = entered es key := by
  unfold matching
  rw [List.filter_map, List.map_map]
  rfl

/-- **A tree contains the entries that were inserted.** -/
theorem Contains.contents_perm {root : IndexNode} {es : List Entry} (h : Contains root es) :
    (root.contents id).Perm (es.map Entry.content) := by
  rw [List.perm_iff_count]
  rintro ⟨key, v⟩
  rw [← count_matching_hasKey, ← count_matching_hasKey, matching_hasKey rfl root h.ok, id_eq,
    h.lookup, matching_entries, addValues_eq,
    (Sorting.insertAll_perm [] (entered es key)).count_eq, List.append_nil]

/-! ## Loops over characters -/

/-- **A loop whose bound is a character**: an invariant that every round keeps holds at its end. -/
theorem forChars_run {σ : Type} {body : UInt8 → σ → Except Fault σ} {P : List UInt8 → σ → Prop}
    {last : UInt8} (hlast : last < INDEX_CHILDMAX) :
    ∀ (fuel : Nat) (first : UInt8) (done : List UInt8) (s : σ),
      last.toNat + 1 - first.toNat ≤ fuel →
      (∀ c, first ≤ c → c ≤ last → ∀ done s, P done s → ∃ s', body c s = .ok s' ∧
        P (done ++ [c]) s') →
      P done s →
      ∃ s', forChars body last fuel first s = .ok s' ∧ P (done ++ charsBetween first last) s' := by
  have hlast' : last.toNat < 128 := UInt8.lt_iff_toNat_lt.mp hlast
  -- the loop ends once the counter has passed the bound
  have hend : ∀ {first : UInt8}, ¬ first ≤ last → charsBetween first last = [] := by
    intro first hgt
    rw [← List.length_eq_zero_iff, length_charsBetween]
    rw [UInt8.le_iff_toNat_le] at hgt
    omega
  intro fuel
  induction fuel with
  | zero =>
    intro first done s hfuel _ hP
    have hgt : ¬ first ≤ last := by
      rw [UInt8.le_iff_toNat_le]
      omega
    unfold forChars
    rw [if_neg hgt, hend hgt, List.append_nil]
    exact ⟨s, rfl, hP⟩
  | succ fuel ih =>
    intro first done s hfuel hbody hP
    unfold forChars
    by_cases hle : first ≤ last
    · have hle' := UInt8.le_iff_toNat_le.mp hle
      have hsucc : (first + 1).toNat = first.toNat + 1 := by
        rw [UInt8.toNat_add, UInt8.toNat_one]
        omega
      have hcons : charsBetween first last = first :: charsBetween (first + 1) last := by
        rw [charsBetween, charsBetween, hsucc,
          show last.toNat + 1 - first.toNat = last.toNat + 1 - (first.toNat + 1) + 1 by omega,
          List.range'_succ, List.map_cons, UInt8.ofNat_toNat]
      obtain ⟨s', hs', hP'⟩ := hbody first (UInt8.le_refl _) hle done s hP
      obtain ⟨s'', hs'', hP''⟩ := ih (first + 1) (done ++ [first]) s' (by omega)
        (fun c hc => hbody c (UInt8.le_trans (by rw [UInt8.le_iff_toNat_le]; omega) hc)) hP'
      refine ⟨s'', ?_, by simpa [hcons] using hP''⟩
      rw [if_pos hle, hs']
      exact hs''
    · rw [if_neg hle, hend hle, List.append_nil]
      exact ⟨s, rfl, hP⟩

/-- A loop whose body always succeeds is a fold. -/
theorem forChars_eq {σ : Type} {body : UInt8 → σ → Except Fault σ} {act : σ → UInt8 → σ}
    {last : UInt8} (hlast : last < INDEX_CHILDMAX) (fuel : Nat) (first : UInt8) (s : σ)
    (hfuel : last.toNat + 1 - first.toNat ≤ fuel)
    (hbody : ∀ c, first ≤ c → c ≤ last → ∀ s, body c s = .ok (act s c)) :
    forChars body last fuel first s = .ok ((charsBetween first last).foldl act s) := by
  obtain ⟨s', hrun, hs'⟩ := forChars_run (P := fun done s' => s' = done.foldl act s) hlast fuel first
    [] s hfuel (fun c h1 h2 done s' hs' => ⟨_, hbody c h1 h2 s', by simp [hs']⟩) rfl
  rw [hrun, hs', List.nil_append]

/-- The number of nodes of a tree. -/
def IndexNode.nodes : IndexNode → Nat
  | .null => 0
  | .node d children =>
    1 + ((charsBetween d.first d.last).map (fun c => (children c).nodes)).sum

theorem nodes_child {d : NodeData} {children : UInt8 → IndexNode} (hok : NodeOk d children)
    {c : UInt8} {d' : NodeData} {children' : UInt8 → IndexNode}
    (hc : children c = .node d' children') :
    (IndexNode.node d' children').nodes < (IndexNode.node d children).nodes := by
  have hmem : c ∈ charsBetween d.first d.last :=
    mem_charsBetween.mpr (hok.range c (by rw [hc]; simp))
  have hle := List.single_le_sum (fun _ _ => Nat.zero_le _) _
    (List.mem_map_of_mem (f := fun c => (children c).nodes) hmem)
  simp only [hc] at hle
  rw [IndexNode.nodes.eq_2 d children]
  omega

theorem nodes_pos (d : NodeData) (children : UInt8 → IndexNode) :
    0 < (IndexNode.node d children).nodes := by
  unfold IndexNode.nodes
  omega

theorem NodeOk.last_lt {d : NodeData} {children : UInt8 → IndexNode} (h : NodeOk d children) :
    d.last < INDEX_CHILDMAX := by
  rcases h.bounds with ⟨_, hl⟩ | ⟨_, _, hl⟩
  · rw [hl]; decide
  · exact hl

theorem addValues_append (out xs ys : List IndexValue) :
    addValues out (xs ++ ys) = addValues (addValues out xs) ys := List.foldl_append ..

theorem foldl_addValues (out : List IndexValue) (f : UInt8 → List IndexValue) (cs : List UInt8) :
    cs.foldl (fun out c => addValues out (f c)) out = addValues out (cs.flatMap f) := by
  induction cs generalizing out with
  | nil => rfl
  | cons c cs ih => rw [List.foldl_cons, ih, List.flatMap_cons, addValues_append]

end Kmod.Index
