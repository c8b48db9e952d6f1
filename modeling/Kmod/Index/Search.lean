import Kmod.Index.ReadBack
import Mathlib.Data.List.Induction

/-!
# Exact lookup

What `index_mm_search` returns from a file that depmod wrote: the value that was
entered under the key with the smallest priority, the latest one among equals
(`indexMmSearch_written`). The search reads nothing outside the file on the way.
-/

namespace Kmod.Index

open Bytes

/-! ## Searching a tree through a reader -/

section Reader

variable {N : Type} {host : Host} {r : Reader N} {g : List IndexValue → List IndexValue}
  {R : N → NodeData → (UInt8 → IndexNode) → Prop} (hR : Represents r g R)
include hR

/-- The search returns the first value of the key, as the reader shows its values. -/
theorem searchNode_eq (key : CStr) :
    ∀ {pfx : CStr} {x : N} {d : NodeData} {children : UInt8 → IndexNode}, R x d children →
      Clean pfx → searchNode host r x pfx key
        = .ok ((g (descend d.values (fun c => (children c).lookup) pfx key)).head?.map
            IndexValue.value) := by
  -- on the key; the prefix of the node is used up character by character, then a child is read
  induction key with
  | nil =>
    intro pfx x d children hx hpfx
    cases pfx with
    | nil =>
      unfold searchNode
      rw [hR.hasValues hx]
      by_cases hv : d.values = []
      · simp [hv, descend, hR.nil]
      · obtain ⟨v, hhead, hfirst⟩ := hR.firstValue hx hv
        rw [if_pos (by simpa using hv), hfirst, descend, hhead]
        rfl
    | cons p pfx => simp [searchNode, descend, hR.nil]
  | cons k key ih =>
    intro pfx x d children hx hpfx
    cases pfx with
    | nil =>
      unfold searchNode descend
      cases hc : children k with
      | null =>
        rw [hR.withChild_null hx hc, lookup_null, hR.nil]
        rfl
      | node d' children' =>
        obtain ⟨y, hRy, hy⟩ := hR.withChild_node hx hc none
        rw [hy, lookup_node, ← hR.pfx hRy]
        exact ih hRy (hR.pfx hRy ▸ (hR.ok hRy).pfx)
    | cons p pfx =>
      obtain ⟨⟨-, hp⟩, hpfx⟩ := List.forall_mem_cons.mp hpfx
      unfold searchNode descend
      simp only [sameChar_of_lt hp]
      by_cases hpk : p = k
      · rw [if_pos hpk, if_pos hpk]
        exact ih hx hpfx
      · rw [if_neg hpk, if_neg hpk, hR.nil]
        rfl

theorem search_eq {root : Option N} {d : NodeData} {children : UInt8 → IndexNode}
    (h : ShowsRoot R root d children) (key : CStr) :
    search host r root key
      = .ok ((g ((IndexNode.node d children).lookup key)).head?.map IndexValue.value) := by
  cases root with
  -- an empty file shows no root, and the tree has no key then
  | none =>
    obtain ⟨hv, hp, hnull⟩ := h
    have hempty : (IndexNode.node d children).lookup key = [] := by
      rw [lookup_node, hv, hp]
      cases key with
      | nil => rfl
      | cons c key => rw [descend, hnull c]; rfl
    rw [hempty, hR.nil]
    rfl
  | some x =>
    unfold search
    rw [lookup_node, ← hR.pfx h]
    exact searchNode_eq hR key h (hR.pfx h ▸ (hR.ok h).pfx)

end Reader

/-! ## The value that comes first -/

/-- What a lookup should return: no value if the key was never entered; else a value of smallest
priority, after which no other of this priority was entered. -/
def FirstChoice (es : List Entry) (key : CStr) : Option CStr → Prop
  | none => ∀ e ∈ es, e.key ≠ key
  | some value => ∃ before e after, es = before ++ e :: after ∧ e.key = key ∧ e.value = value ∧
      (∀ x ∈ before, x.key = key → e.priority ≤ x.priority) ∧
      ∀ x ∈ after, x.key = key → e.priority < x.priority

theorem entered_concat (es : List Entry) (e : Entry) (key : CStr) :
    entered (es ++ [e]) key
      = entered es key ++ if e.key = key then [⟨e.priority, e.value⟩] else [] := by
  by_cases h : e.key = key
  · simp [entered, h]
  · simp [entered, h]

theorem addValues_concat (out values : List IndexValue) (v : IndexValue) :
    addValues out (values ++ [v]) = addValue (addValues out values) v.value v.priority := by
  simp [addValues]

/-- The head of a list of values is found among the entries, with its priority. -/
theorem head_addValues (key : CStr) (es : List Entry) :
    match (addValues [] (entered es key)).head? with
    | none => ∀ e ∈ es, e.key ≠ key
    | some v => ∃ before e after, es = before ++ e :: after ∧ e.key = key ∧
        v = ⟨e.priority, e.value⟩ ∧ (∀ x ∈ before, x.key = key → e.priority ≤ x.priority) ∧
        ∀ x ∈ after, x.key = key → e.priority < x.priority := by
  induction es using List.reverseRecOn with
  | nil => intro e he; exact absurd he (by simp)
  | append_singleton es w ih =>
    rw [entered_concat]
    by_cases hw : w.key = key
    · rw [if_pos hw, addValues_concat]
      cases hvs : addValues [] (entered es key) with
      | nil =>
        rw [hvs] at ih
        exact ⟨es, w, [], rfl, hw, rfl, fun x hx hk => absurd hk (ih x hx), by simp⟩
      | cons v vs =>
        rw [hvs] at ih
        obtain ⟨before, e, after, rfl, he, rfl, hb, ha⟩ := ih
        unfold addValue
        by_cases hlt : e.priority < w.priority
        · rw [if_pos hlt]
          refine ⟨before, e, after ++ [w], by simp, he, rfl, hb, fun x hx hk => ?_⟩
          rcases List.mem_append.mp hx with hx | hx
          · exact ha x hx hk
          · exact List.mem_singleton.mp hx ▸ hlt
        · -- the new value is no worse than the first one, and comes before it
          rw [if_neg hlt]
          have hle : w.priority ≤ e.priority := UInt32.not_lt.mp hlt
          refine ⟨before ++ e :: after, w, [], rfl, hw, rfl, fun x hx hk => ?_, by simp⟩
          rcases List.mem_append.mp hx with hx | hx
          · exact UInt32.le_trans hle (hb x hx hk)
          · rcases List.mem_cons.mp hx with rfl | hx
            · exact hle
            · exact UInt32.le_trans hle (UInt32.le_of_lt (ha x hx hk))
    · rw [if_neg hw, List.append_nil]
      cases hvs : (addValues [] (entered es key)).head? with
      | none =>
        rw [hvs] at ih
        intro e he
        rcases List.mem_append.mp he with he | he
        · exact ih e he
        · exact List.mem_singleton.mp he ▸ hw
      | some v =>
        rw [hvs] at ih
        obtain ⟨before, e, after, rfl, he, rfl, hb, ha⟩ := ih
        refine ⟨before, e, after ++ [w], by simp, he, rfl, hb, fun x hx hk => ?_⟩
        rcases List.mem_append.mp hx with hx | hx
        · exact ha x hx hk
        · exact absurd hk (List.mem_singleton.mp hx ▸ hw)

theorem firstChoice_head (es : List Entry) (key : CStr) :
    FirstChoice es key ((addValues [] (entered es key)).head?.map IndexValue.value) := by
  have h := head_addValues key es
  cases hvs : (addValues [] (entered es key)).head? with
  | none => rw [hvs] at h; exact h
  | some v =>
    rw [hvs] at h
    obtain ⟨before, e, after, hes, he, rfl, hb, ha⟩ := h
    exact ⟨before, e, after, hes, he, rfl, hb, ha⟩

/-- What the mapping of a written file answers: the first of the values, as the tree has them. -/
theorem indexMmSearch_entered {es : List Entry} (hes : ∀ e ∈ es, e.Clean) :
    ∃ root, insertEntries indexCreate es = .ok root ∧
      ((indexWrite root).length < 2 ^ 28 →
        ∃ idx, indexMmOpen (indexWrite root) = .ok idx ∧
          ∀ host key, indexMmSearch host idx key
            = .ok ((addValues [] (entered es key)).head?.map IndexValue.value)) := by
  obtain ⟨root, hrun, hcont⟩ := insertEntries_contains hes
  refine ⟨root, hrun, fun hlt => ?_⟩
  cases root with
  | null => exact absurd hcont.rooted (by simp [Rooted])
  | node d children =>
    obtain ⟨idx, x, hopen, hsize, hroot, hshows⟩ := indexMmOpen_written hcont.ok hlt
    refine ⟨idx, hopen, fun host key => ?_⟩
    unfold indexMmSearch
    rw [hroot, ← hcont.lookup]
    exact search_eq (mmReader_represents hsize) hshows key

/--
**Exact lookup in a written index.** For every sequence of insertions of clean
strings: the insertions succeed, and if the file they lead to is smaller than
`2 ^ 28` bytes, `index_mm_open` accepts it and `index_mm_search` returns, for
every key, what it should on every machine, without leaving the mapping.
-/
theorem indexMmSearch_written {es : List Entry} (hes : ∀ e ∈ es, e.Clean) :
    ∃ root, insertEntries indexCreate es = .ok root ∧
      ((indexWrite root).length < 2 ^ 28 →
        ∃ idx, indexMmOpen (indexWrite root) = .ok idx ∧
          ∀ key, ∃ res, (∀ host, indexMmSearch host idx key = .ok res) ∧ FirstChoice es key res) := by
  obtain ⟨root, hrun, hread⟩ := indexMmSearch_entered hes
  refine ⟨root, hrun, fun hlt => ?_⟩
  obtain ⟨idx, hopen, hsearch⟩ := hread hlt
  exact ⟨idx, hopen, fun key => ⟨_, fun host => hsearch host key, firstChoice_head es key⟩⟩

/-- A key and a longer one, which has two values of equal priority. -/
def sampleEntries : List Entry :=
  [⟨cstr "a", cstr "x", 3⟩, ⟨cstr "ab", cstr "y", 5⟩, ⟨cstr "ab", cstr "z", 5⟩]

theorem indexMmSearch_written_sample :
    (∀ e ∈ sampleEntries, e.Clean) ∧
      ∃ root, insertEntries indexCreate sampleEntries = .ok root ∧
        (indexWrite root).length < 2 ^ 28 ∧
        ∃ idx, indexMmOpen (indexWrite root) = .ok idx ∧
          ∀ key, ∃ res, (∀ host, indexMmSearch host idx key = .ok res) ∧
            FirstChoice sampleEntries key res := by
  obtain ⟨root, hrun, hread⟩ := indexMmSearch_written
    (show ∀ e ∈ sampleEntries, e.Clean by decide)
  have hsmall : (indexWrite root).length < 2 ^ 28 := by
    injection hrun with hrun
    rw [← hrun]
    decide
  exact ⟨by decide, root, hrun, hsmall, hread hsmall⟩

end Kmod.Index
