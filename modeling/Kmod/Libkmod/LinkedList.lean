import Kmod.Base
import Kmod.Lib.Rings

/-!
# `struct kmod_list`

Circular, doubly linked lists; the empty list is the null pointer. The functions are
those that put elements in and take the first one out. A node that is allocated is a new
cell at the end of the memory.
-/

namespace Kmod

open Rings

variable {α : Type}

/-! ## The model -/

/-- A cell with another `next`. -/
def withNext (heap : Heap α) (p v : Nat) : Heap α := heap.modify p (fun x => { x with next := v })

/-- A cell with another `prev`. -/
def withPrev (heap : Heap α) (p v : Nat) : Heap α := heap.modify p (fun x => { x with prev := v })

/-- `p->next = v`. -/
def setNext (heap : Heap α) (p v : Nat) : Except Fault (Heap α) :=
  if p < heap.length then .ok (withNext heap p v) else .error .outOfBounds

/-- `p->prev = v`. -/
def setPrev (heap : Heap α) (p v : Nat) : Except Fault (Heap α) :=
  if p < heap.length then .ok (withPrev heap p v) else .error .outOfBounds

/-- `list_node_init`. -/
def listNodeInit (heap : Heap α) (node : Nat) : Except Fault (Heap α) := do
  let heap ← setNext heap node node
  setPrev heap node node

/-- `list_node_append`. -/
def listNodeAppend (heap : Heap α) (list : Option Nat) (node : Nat) : Except Fault (Heap α) :=
  match list with
  | none => listNodeInit heap node
  | some list => do
    let heap ← setPrev heap node (← inBlock heap[list]?).prev
    let heap ← setNext heap (← inBlock heap[list]?).prev node
    let heap ← setPrev heap list node
    setNext heap node list

/-- `list_node_insert_before`. -/
def listNodeInsertBefore (heap : Heap α) (list : Option Nat) (node : Nat) : Except Fault (Heap α) :=
  match list with
  | none => listNodeInit heap node
  | some list => do
    let heap ← setNext heap node list
    let heap ← setPrev heap node (← inBlock heap[list]?).prev
    let heap ← setNext heap (← inBlock heap[list]?).prev node
    setPrev heap list node

/-- `list_node_remove`: the next node, if there is another one. -/
def listNodeRemove (heap : Heap α) (node : Nat) : Except Fault (Option Nat × Heap α) := do
  let x ← inBlock heap[node]?
  if x.prev = node ∨ x.next = node then .ok (none, heap)
  else do
    let heap ← setNext heap x.prev x.next
    let heap ← setPrev heap (← inBlock heap[node]?).next x.prev
    .ok (some (← inBlock heap[node]?).next, heap)

/-- `kmod_list_append`: the list, and the memory. -/
def kmodListAppend (heap : Heap α) (list : Option Nat) (data : α) :
    Except Fault (Nat × Heap α) := do
  let new := heap.length
  let heap ← listNodeAppend (heap ++ [⟨0, 0, data⟩]) list new
  .ok (list.getD new, heap)

/-- `kmod_list_prepend`. -/
def kmodListPrepend (heap : Heap α) (list : Option Nat) (data : α) :
    Except Fault (Nat × Heap α) := do
  let new := heap.length
  let heap ← listNodeAppend (heap ++ [⟨0, 0, data⟩]) list new
  .ok (new, heap)

/-- `kmod_list_insert_before`. -/
def kmodListInsertBefore (heap : Heap α) (list : Option Nat) (data : α) :
    Except Fault (Nat × Heap α) :=
  match list with
  | none => kmodListAppend heap list data
  | some list => do
    let new := heap.length
    let heap ← listNodeInsertBefore (heap ++ [⟨0, 0, data⟩]) (some list) new
    .ok (new, heap)

/-- `kmod_list_next`, for a list that is not empty. -/
def kmodListNext (heap : Heap α) (list curr : Nat) : Except Fault (Option Nat) := do
  let x ← inBlock heap[curr]?
  .ok (if x.next = list then none else some x.next)

/-- `kmod_list_remove`. -/
def kmodListRemove (heap : Heap α) : Option Nat → Except Fault (Option Nat × Heap α)
  | none => .ok (none, heap)
  | some list => listNodeRemove heap list

/-! ## Links -/

section Links

variable {heap : Heap α} {a b new : Nat}

@[simp] theorem length_withNext (v : Nat) : (withNext heap a v).length = heap.length :=
  List.length_modify ..

@[simp] theorem length_withPrev (v : Nat) : (withPrev heap a v).length = heap.length :=
  List.length_modify ..

theorem getElem?_withNext (p v c : Nat) :
    (withNext heap p v)[c]? =
      heap[c]?.map (fun x => Node.mk (if c = p then v else x.next) x.prev x.data) := by
  rw [withNext, List.getElem?_modify]
  cases heap[c]? with
  | none => rfl
  | some x => by_cases h : p = c <;> simp [h, eq_comm]

theorem getElem?_withPrev (p v c : Nat) :
    (withPrev heap p v)[c]? =
      heap[c]?.map (fun x => Node.mk x.next (if c = p then v else x.prev) x.data) := by
  rw [withPrev, List.getElem?_modify]
  cases heap[c]? with
  | none => rfl
  | some x => by_cases h : p = c <;> simp [h, eq_comm]

theorem setNext_ok (v : Nat) (h : a < heap.length) :
    setNext heap a v = .ok (withNext heap a v) := if_pos h

theorem setPrev_ok (v : Nat) (h : a < heap.length) :
    setPrev heap a v = .ok (withPrev heap a v) := if_pos h

/-- `list_node_append` puts the node between the list and the one before it. -/
theorem listNodeAppend_spliced (hab : Linked heap a b) (hnew : new < heap.length) (ha : a ≠ new)
    (hb : b ≠ new) : ∃ heap', listNodeAppend heap (some b) new = .ok heap' ∧
      Spliced heap heap' a b new := by
  obtain ⟨x, y, hx, hy, hnext, hprev⟩ := hab
  have hla := (List.getElem?_eq_some_iff.mp hx).1
  have hlb := (List.getElem?_eq_some_iff.mp hy).1
  refine ⟨withNext (withPrev (withNext (withPrev heap new a) a new) b new) new b, ?_, ?_⟩
  · have hy' : (withPrev heap new a)[b]? = some y := by
      rw [getElem?_withPrev, hy, Option.map_some, if_neg hb]
    simp only [listNodeAppend, hy, inBlock_some, ok_bind, hprev, setPrev_ok _ hnew, hy']
    rw [setNext_ok _ (by simpa using hla), ok_bind, setPrev_ok _ (by simpa using hlb), ok_bind,
      setNext_ok _ (by simpa using hnew)]
  · intro c
    simp only [getElem?_withNext, getElem?_withPrev, Option.map_map]
    cases heap[c]? with
    | none => rfl
    | some z =>
      by_cases hc : c = new
      · subst hc
        simp [hb.symm]
      · simp [hc]

/-- `list_node_insert_before` does the same in another order. -/
theorem listNodeInsertBefore_spliced (hab : Linked heap a b) (hnew : new < heap.length)
    (ha : a ≠ new)
    (hb : b ≠ new) :
    ∃ heap', listNodeInsertBefore heap (some b) new = .ok heap' ∧ Spliced heap heap' a b new := by
  obtain ⟨x, y, hx, hy, hnext, hprev⟩ := hab
  have hla := (List.getElem?_eq_some_iff.mp hx).1
  have hlb := (List.getElem?_eq_some_iff.mp hy).1
  refine ⟨withPrev (withNext (withPrev (withNext heap new b) new a) a new) b new, ?_, ?_⟩
  · have hy1 : (withNext heap new b)[b]? = some y := by
      rw [getElem?_withNext, hy, Option.map_some, if_neg hb]
    have hy2 : (withPrev (withNext heap new b) new a)[b]? = some y := by
      rw [getElem?_withPrev, hy1, Option.map_some, if_neg hb]
    simp only [listNodeInsertBefore, setNext_ok _ hnew, ok_bind, hy1, inBlock_some, hprev]
    rw [setPrev_ok _ (by simpa using hnew), ok_bind]
    simp only [hy2, inBlock_some, ok_bind, hprev]
    rw [setNext_ok _ (by simpa using hla), ok_bind, setPrev_ok _ (by simpa using hlb)]
  · intro c
    simp only [getElem?_withNext, getElem?_withPrev, Option.map_map]
    cases heap[c]? with
    | none => rfl
    | some z =>
      by_cases hc : c = new
      · subst hc
        simp [hb.symm, ha.symm]
      · simp [hc]

/-- `list_node_remove` of a node that is alone. -/
theorem listNodeRemove_alone (haa : Linked heap a a) : listNodeRemove heap a = .ok (none, heap) := by
  obtain ⟨u, _, hu, _, hnext, _⟩ := haa
  simp only [listNodeRemove, hu, inBlock_some, ok_bind, hnext, or_true, if_true]

/-- `list_node_remove` of a node with neighbours links these. -/
theorem listNodeRemove_joined {x : Nat} (hax : Linked heap a x) (hxb : Linked heap x b)
    (ha : a ≠ x) (hb : b ≠ x) :
    ∃ heap', listNodeRemove heap x = .ok (some b, heap') ∧ Joined heap heap' a b := by
  obtain ⟨y, u', hy, hu', _, hprev⟩ := hax
  obtain ⟨u, v, hu, hv, hnext, _⟩ := hxb
  obtain rfl : u = u' := Option.some.inj (hu.symm.trans hu')
  have hla := (List.getElem?_eq_some_iff.mp hy).1
  have hlb := (List.getElem?_eq_some_iff.mp hv).1
  have hu1 : (withNext heap a b)[x]? = some u := by
    rw [getElem?_withNext, hu, Option.map_some, if_neg ha.symm]
  have hu2 : (withPrev (withNext heap a b) b a)[x]? = some u := by
    rw [getElem?_withPrev, hu1, Option.map_some, if_neg hb.symm]
  refine ⟨withPrev (withNext heap a b) b a, ?_, fun c => ?_⟩
  · have hcond : ¬ (u.prev = x ∨ u.next = x) := by
      rw [hprev, hnext]
      exact not_or.mpr ⟨ha, hb⟩
    simp only [listNodeRemove, hu, inBlock_some, ok_bind, if_neg hcond]
    rw [hprev, hnext, setNext_ok _ hla, ok_bind]
    simp only [hu1, inBlock_some, ok_bind, hnext]
    rw [setPrev_ok _ (by simpa using hlb), ok_bind]
    simp only [hu2, inBlock_some, ok_bind, hnext]
  · rw [getElem?_withPrev, getElem?_withNext, Option.map_map]
    rfl

end Links

/-! ## Lists -/

/-- A list: the null pointer, or the first node of a ring. -/
structure IsList (heap : Heap α) (list : Option Nat) (nodes : List Nat) (contents : List α) : Prop
    extends IsRing heap nodes contents where
  first : list = nodes.head?

section Lists

variable {heap : Heap α} {list : Option Nat} {nodes : List Nat} {contents : List α}

theorem isList_nil (heap : Heap α) : IsList heap none [] [] := ⟨isRing_nil heap, rfl⟩

/-- A list of one element. -/
theorem kmodListAppend_nil (heap : Heap α) (data : α) :
    ∃ heap', kmodListAppend heap none data = .ok (heap.length, heap') ∧
      IsList heap' (some heap.length) [heap.length] [data] := by
  have hnew : (heap ++ [⟨0, 0, data⟩])[heap.length]? = some ⟨0, 0, data⟩ := by simp
  refine ⟨withPrev (withNext (heap ++ [⟨0, 0, data⟩]) heap.length heap.length) heap.length
    heap.length, ?_, ?_⟩
  · simp only [kmodListAppend, listNodeAppend, listNodeInit]
    rw [setNext_ok _ (by simp), ok_bind, setPrev_ok _ (by simp)]
    rfl
  · have hnode : (withPrev (withNext (heap ++ [⟨0, 0, data⟩]) heap.length heap.length) heap.length
        heap.length)[heap.length]? = some ⟨heap.length, heap.length, data⟩ := by
      rw [getElem?_withPrev, getElem?_withNext, hnew]
      simp
    refine ⟨⟨⟨List.nodup_singleton _, ?_⟩, .cons ⟨_, hnode, rfl⟩ .nil⟩, rfl⟩
    exact List.isChain_pair.mpr ⟨_, _, hnode, hnode, rfl, rfl⟩

/-- `list_node_append` on a list: the new node is the last, or the first. -/
theorem listNodeAppend_cycle {first : Nat} (h : IsList heap (some first) nodes contents) (data : α) :
    ∃ heap', listNodeAppend (heap ++ [⟨0, 0, data⟩]) (some first) heap.length = .ok heap' ∧
      Cycle heap' (nodes ++ [heap.length]) ∧ Holds heap' nodes contents ∧
        Holds heap' [heap.length] [data] := by
  have hring := h.toIsRing.append [⟨0, 0, data⟩]
  have hfresh : heap.length ∉ nodes := fun hin => Nat.lt_irrefl _ (h.data.lt_length _ hin)
  obtain ⟨before, last, rfl⟩ : ∃ before last, nodes = before ++ [last] := by
    rcases List.eq_nil_or_concat nodes with rfl | ⟨before, last, rfl⟩
    · exact absurd h.first (by simp)
    · exact ⟨before, last, by simp⟩
  have hhead : (before ++ [last]).head? = some first := h.first.symm
  have hlinked := hring.linked
  rw [hhead, Option.toList_some, List.append_assoc] at hlinked
  obtain ⟨_, hlink, _⟩ := List.isChain_append_cons_cons.mp hlinked
  have hne : ∀ a ∈ before ++ [last], a ≠ heap.length := fun a ha heq => hfresh (heq ▸ ha)
  have hnew : (heap ++ [⟨0, 0, data⟩])[heap.length]? = some ⟨0, 0, data⟩ := by simp
  obtain ⟨heap', hcall, hspliced⟩ := listNodeAppend_spliced hlink (by simp)
    (hne last (by simp)) (hne first (List.mem_of_mem_head? hhead))
  refine ⟨heap', hcall, ?_, hspliced.holds hring.data, hspliced.holds (.cons ⟨_, hnew, rfl⟩ .nil)⟩
  have hcycle := hspliced.cycle_end hring.toCycle hhead ⟨_, hnew⟩ hfresh
  simpa using hcycle

theorem kmodListAppend_list {first : Nat} (h : IsList heap (some first) nodes contents) (data : α) :
    ∃ heap', kmodListAppend heap (some first) data = .ok (first, heap') ∧
      IsList heap' (some first) (nodes ++ [heap.length]) (contents ++ [data]) := by
  obtain ⟨heap', hcall, hcycle, hold, hnew⟩ := listNodeAppend_cycle h data
  refine ⟨heap', ?_, ⟨hcycle, List.rel_append hold hnew⟩, ?_⟩
  · simp only [kmodListAppend, hcall, ok_bind, Option.getD_some]
  · rw [List.head?_append, ← h.first]
    rfl

theorem kmodListPrepend_list {first : Nat} (h : IsList heap (some first) nodes contents) (data : α) :
    ∃ heap', kmodListPrepend heap (some first) data = .ok (heap.length, heap') ∧
      IsList heap' (some heap.length) (heap.length :: nodes) (data :: contents) := by
  obtain ⟨heap', hcall, hcycle, hold, hnew⟩ := listNodeAppend_cycle h data
  refine ⟨heap', ?_, ⟨hcycle.rotate, List.rel_append hnew hold⟩, rfl⟩
  simp only [kmodListPrepend, hcall, ok_bind]

/-- A node that is not the first gets a new one before it. -/
theorem kmodListInsertBefore_list {before after : List Nat} {a b : Nat} {cb ca : List α}
    (h : IsList heap list (before ++ a :: b :: after) contents)
    (hbefore : Holds heap (before ++ [a]) cb)
    (hafter : Holds heap (b :: after) ca) (data : α) :
    ∃ heap', kmodListInsertBefore heap (some b) data = .ok (heap.length, heap') ∧
      IsList heap' list (before ++ a :: heap.length :: b :: after) (cb ++ data :: ca) := by
  have hring := h.toIsRing.append [⟨0, 0, data⟩]
  have hfresh : heap.length ∉ before ++ a :: b :: after :=
    fun hin => Nat.lt_irrefl _ (h.data.lt_length _ hin)
  have hne : ∀ c ∈ before ++ a :: b :: after, c ≠ heap.length := fun c hc heq => hfresh (heq ▸ hc)
  have hnew : (heap ++ [⟨0, 0, data⟩])[heap.length]? = some ⟨0, 0, data⟩ := by simp
  have hlinked := hring.linked
  rw [List.append_assoc, List.cons_append, List.cons_append] at hlinked
  obtain ⟨_, hlink, _⟩ := List.isChain_append_cons_cons.mp hlinked
  obtain ⟨heap', hcall, hspliced⟩ := listNodeInsertBefore_spliced hlink (by simp)
    (hne a (by simp)) (hne b (by simp))
  have hmore : ∀ {nodes : List Nat} {cs : List α}, Holds heap nodes cs → Holds heap' nodes cs := by
    intro nodes cs hold
    refine hspliced.holds (hold.imp (fun c d hc => ?_))
    obtain ⟨x, hx, hd⟩ := hc
    exact ⟨x, getElem?_of_append hx _, hd⟩
  refine ⟨heap', ?_, ⟨hspliced.cycle_inside hring.toCycle ⟨_, hnew⟩ hfresh, ?_⟩, ?_⟩
  · simp only [kmodListInsertBefore, hcall, ok_bind]
  · have hdata : Holds heap' ((before ++ [a]) ++ heap.length :: b :: after) (cb ++ data :: ca) :=
      List.rel_append (hmore hbefore) (.cons (by
        have := hspliced heap.length
        rw [hnew, Option.map_some] at this
        exact ⟨_, this, rfl⟩) (hmore hafter))
    simpa using hdata
  · rw [h.first]
    cases before <;> rfl

/-- Where `kmod_list_next` gets from a node. -/
theorem kmodListNext_list {first x : Nat} {before after : List Nat}
    (h : IsList heap (some first) (before ++ x :: after) contents) :
    kmodListNext heap first x = .ok after.head? := by
  have hhead : (before ++ x :: after).head? = some first := h.first.symm
  have hlinked := h.linked
  rw [hhead, Option.toList_some, List.append_assoc] at hlinked
  cases after with
  | nil =>
    obtain ⟨_, ⟨u, _, hu, _, hnext, _⟩, _⟩ := List.isChain_append_cons_cons.mp hlinked
    simp only [kmodListNext, hu, inBlock_some, ok_bind, hnext, if_true]
    rfl
  | cons y after =>
    obtain ⟨_, ⟨u, _, hu, _, hnext, _⟩, _⟩ := List.isChain_append_cons_cons.mp hlinked
    have hne : y ≠ first := by
      -- the first node does not come again
      rintro rfl
      obtain ⟨_, _, hdisj⟩ := List.nodup_append.mp h.nodup
      cases before with
      | nil =>
        obtain rfl : x = y := by simpa using hhead
        exact (List.nodup_cons.mp h.nodup).1 (by simp)
      | cons z before =>
        obtain rfl : z = y := by simpa using hhead
        exact hdisj z (by simp) z (by simp) rfl
    simp only [kmodListNext, hu, inBlock_some, ok_bind, hnext, if_neg hne]
    rfl

/-- Taking out the first element. -/
theorem kmodListRemove_list {first : Nat} {data : α}
    (h : IsList heap (some first) (first :: nodes) (data :: contents)) :
    ∃ heap', kmodListRemove heap (some first) = .ok (nodes.head?, heap') ∧
      IsList heap' nodes.head? nodes contents := by
  have hlinked : List.IsChain (Linked heap) (first :: (nodes ++ [first])) := by simpa using h.linked
  rcases List.eq_nil_or_concat nodes with rfl | ⟨before, last, rfl⟩
  · -- there is no other
    have hcontents : contents = [] := by
      have := h.data.length_eq
      simpa using this.symm
    subst hcontents
    exact ⟨heap, listNodeRemove_alone (List.isChain_pair.mp hlinked), isList_nil heap⟩
  · rw [List.concat_eq_append] at h hlinked ⊢
    obtain ⟨second, hsecond⟩ : ∃ second, (before ++ [last]).head? = some second := by
      cases before <;> simp
    obtain ⟨hfirst, hrest⟩ := List.isChain_cons.mp hlinked
    have hfirst := hfirst second (by rw [List.head?_append, hsecond]; rfl)
    rw [List.append_assoc] at hrest
    obtain ⟨_, hlast, _⟩ := List.isChain_append_cons_cons.mp hrest
    have hnot : first ∉ before ++ [last] := (List.nodup_cons.mp h.nodup).1
    obtain ⟨heap', hcall, hjoined⟩ := listNodeRemove_joined hlast hfirst
      (fun heq => hnot (by simp [heq])) (fun heq => hnot (heq ▸ List.mem_of_mem_head? hsecond))
    refine ⟨heap', ?_, hjoined.isRing h.toIsRing (by simp) hsecond, rfl⟩
    rw [kmodListRemove, hcall, hsecond]

end Lists

end Kmod
