import Kmod.Libkmod.LinkedList
import Mathlib.Data.Finset.Lattice.Fold
import Mathlib.Data.List.Rotate
import Mathlib.Logic.Function.Basic
import Mathlib.Order.Lattice.Nat

/-!
# What the operations of `struct kmod_list` do

A list is known by one of its nodes, and it does not know which. So a list that is read from
one of its nodes is a sequence, and each operation does to the sequence what its name says,
where the difference between some of them is only which node is returned: `kmod_list_append`
and `kmod_list_prepend` set the same links.

Several lists are in memory together, with no node in common. An operation changes only the
nodes of the lists it is given (`Updated`), so the others are what they were, and by
induction all is well after any sequence of operations (`listOps_refine`).

Memory is a list of cells, of which some are allocated. `malloc` may give any cell that is
not, also one that has been freed; it may fail each time it is called.
-/

namespace Kmod.ListOps

open Rings

variable {α ι : Type}

/-! ## The model -/

/-- Memory, and which of its cells are allocated. -/
structure Memory (α : Type) where
  heap : Heap α
  live : Finset Nat

/-- How `malloc` chooses a cell. -/
structure Malloc (α : Type) where
  pick : Memory α → Nat
  fresh : ∀ m, pick m ∉ m.live

/--
`malloc` and `new->data = data`; the links of a new node are what was there. Memory is made
larger if there is no such cell yet.
-/
def Memory.allocate (m : Memory α) (new : Nat) (data : α) : Memory α :=
  ⟨(m.heap ++ List.replicate (new + 1 - m.heap.length) (Node.mk 0 0 data)).modify new
    (fun x => { x with data := data }), insert new m.live⟩

/-- `free` -/
def Memory.free (m : Memory α) (p : Nat) : Except Fault (Memory α) :=
  if p ∈ m.live then .ok { m with live := m.live.erase p } else .error .outOfBounds

/-- `list_node_insert_after`. -/
def listNodeInsertAfter (heap : Heap α) (list : Option Nat) (node : Nat) : Except Fault (Heap α) :=
  match list with
  | none => listNodeInit heap node
  | some list => do
    let heap ← setPrev heap node list
    let heap ← setNext heap node (← inBlock heap[list]?).next
    let heap ← setPrev heap (← inBlock heap[list]?).next node
    setNext heap list node

/-- `list_node_append_list`. -/
def listNodeAppendList (heap : Heap α) (list1 : Option Nat) (list2 : Nat) :
    Except Fault (Heap α) :=
  match list1 with
  | none => listNodeInit heap list2
  | some list1 => do
    let heap ← setNext heap (← inBlock heap[list1]?).prev list2
    let heap ← setNext heap (← inBlock heap[list2]?).prev list1
    let list1Last := (← inBlock heap[list1]?).prev
    let heap ← setPrev heap list1 (← inBlock heap[list2]?).prev
    setPrev heap list2 list1Last

section Functions

variable (malloc : Option (Malloc α)) (m : Memory α) (list : Option Nat) (data : α)

/-- `kmod_list_append`: what it returns, and the memory. `malloc` is none if it fails. -/
def kmodListAppend : Except Fault (Option Nat × Memory α) :=
  match malloc with
  | none => .ok (none, m)
  | some malloc => do
    let new := malloc.pick m
    let m := m.allocate new data
    let heap ← listNodeAppend m.heap list new
    .ok (some (list.getD new), { m with heap := heap })

/-- `kmod_list_insert_after`. -/
def kmodListInsertAfter : Except Fault (Option Nat × Memory α) :=
  match list with
  | none => kmodListAppend malloc m none data
  | some list =>
    match malloc with
    | none => .ok (none, m)
    | some malloc => do
      let new := malloc.pick m
      let m := m.allocate new data
      let heap ← listNodeInsertAfter m.heap (some list) new
      .ok (some list, { m with heap := heap })

/-- `kmod_list_insert_before`. -/
def kmodListInsertBefore : Except Fault (Option Nat × Memory α) :=
  match list with
  | none => kmodListAppend malloc m none data
  | some list =>
    match malloc with
    | none => .ok (none, m)
    | some malloc => do
      let new := malloc.pick m
      let m := m.allocate new data
      let heap ← listNodeInsertBefore m.heap (some list) new
      .ok (some new, { m with heap := heap })

/-- `kmod_list_append_list`. -/
def kmodListAppendList (list1 list2 : Option Nat) : Except Fault (Option Nat × Memory α) :=
  match list1, list2 with
  | none, _ => .ok (list2, m)
  | _, none => .ok (list1, m)
  | some list1, some list2 => do
    let heap ← listNodeAppendList m.heap (some list1) list2
    .ok (some list1, { m with heap := heap })

/-- `kmod_list_prepend`. -/
def kmodListPrepend : Except Fault (Option Nat × Memory α) :=
  match malloc with
  | none => .ok (none, m)
  | some malloc => do
    let new := malloc.pick m
    let m := m.allocate new data
    let heap ← listNodeAppend m.heap list new
    .ok (some new, { m with heap := heap })

/-- `kmod_list_remove`. -/
def kmodListRemove : Except Fault (Option Nat × Memory α) :=
  match list with
  | none => .ok (none, m)
  | some list => do
    let (node, heap) ← listNodeRemove m.heap list
    let m ← { m with heap := heap }.free list
    .ok (node, m)

end Functions

section Traversal

variable (heap : Heap α) (list : Option Nat)

/-- `kmod_list_prev`. -/
def kmodListPrev (curr : Option Nat) : Except Fault (Option Nat) :=
  match list, curr with
  | some list, some curr => do
    if list = curr then .ok none
    else .ok (some (← inBlock heap[curr]?).prev)
  | _, _ => .ok none

/-- `kmod_list_next`. -/
def kmodListNext (curr : Option Nat) : Except Fault (Option Nat) :=
  match list, curr with
  | some list, some curr => do
    let x ← inBlock heap[curr]?
    if x.next = list then .ok none else .ok (some x.next)
  | _, _ => .ok none

/-- `kmod_list_last`. -/
def kmodListLast : Except Fault (Option Nat) :=
  match list with
  | none => .ok none
  | some list => do .ok (some (← inBlock heap[list]?).prev)

/-- `for (itr = curr; itr != NULL; itr = step(list, itr))`: the nodes that are visited. -/
def visit (step : Option Nat → Except Fault (Option Nat)) :
    Nat → Option Nat → Except Fault (List Nat)
  | 0, _ => .error .outOfFuel
  | _ + 1, none => .ok []
  | fuel + 1, some itr => do
    let nodes ← visit step fuel (← step (some itr))
    .ok (itr :: nodes)

/-- `kmod_list_foreach`; no list has more nodes than there are cells. -/
def foreach : Except Fault (List Nat) := visit (kmodListNext heap list) (heap.length + 1) list

/-- `kmod_list_foreach_reverse`. -/
def foreachReverse : Except Fault (List Nat) := do
  visit (kmodListPrev heap list) (heap.length + 1) (← kmodListLast heap list)

/-- The loop of `kmod_list_remove_data`. -/
def findData [DecidableEq α] (data : α) : Nat → Option Nat → Except Fault (Option Nat)
  | 0, _ => .error .outOfFuel
  | _ + 1, none => .ok none
  | fuel + 1, some itr => do
    let x ← inBlock heap[itr]?
    if x.data = data then .ok (some itr)
    else findData data fuel (← kmodListNext heap list (some itr))

end Traversal

/-- `kmod_list_remove_data`. -/
def kmodListRemoveData [DecidableEq α] (m : Memory α) (list : Option Nat) (data : α) :
    Except Fault (Option Nat × Memory α) := do
  match ← findData m.heap list data (m.heap.length + 1) list with
  | none => .ok (list, m)
  | some itr => do
    let (node, heap) ← listNodeRemove m.heap itr
    let m ← { m with heap := heap }.free itr
    .ok (node, m)

/-- Going on from a node, some steps or to the last node. -/
def seek (heap : Heap α) (list : Option Nat) : Nat → Option Nat → Except Fault (Option Nat)
  | 0, curr => .ok curr
  | i + 1, curr => do
    match ← kmodListNext heap list curr with
    | none => .ok curr
    | some next => seek heap list i (some next)

/-! ## Programs -/

/-- The variables of a program, and the memory. -/
structure State (ι α : Type) where
  mem : Memory α
  lists : ι → Option Nat

/-- What is done to the list in a variable; `seek` makes it known by another of its nodes. -/
inductive Op (ι α : Type) where
  | append (k : ι) (data : α) (malloc : Option (Malloc α))
  | prepend (k : ι) (data : α) (malloc : Option (Malloc α))
  | insertBefore (k : ι) (data : α) (malloc : Option (Malloc α))
  | insertAfter (k : ι) (data : α) (malloc : Option (Malloc α))
  | appendList (k l : ι) (hne : k ≠ l)
  | remove (k : ι)
  | removeData (k : ι) (data : α)
  | seek (k : ι) (i : Nat)

section Programs

variable [DecidableEq ι] [DecidableEq α]

/-- A variable gets what a function returned. -/
def State.assign (st : State ι α) (k : ι) (r : Option Nat × Memory α) : State ι α :=
  ⟨r.2, Function.update st.lists k r.1⟩

/-- A variable gets what a function returned, unless this is the null pointer. -/
def State.assignNew (st : State ι α) (k : ι) (r : Option Nat × Memory α) : State ι α :=
  if r.1 = none then { st with mem := r.2 } else st.assign k r

/-- One operation; a list that was appended to another is not used any more. -/
def State.exec (st : State ι α) : Op ι α → Except Fault (State ι α)
  | .append k data malloc => do
    .ok (st.assignNew k (← kmodListAppend malloc st.mem (st.lists k) data))
  | .prepend k data malloc => do
    .ok (st.assignNew k (← kmodListPrepend malloc st.mem (st.lists k) data))
  | .insertBefore k data malloc => do
    .ok (st.assignNew k (← kmodListInsertBefore malloc st.mem (st.lists k) data))
  | .insertAfter k data malloc => do
    .ok (st.assignNew k (← kmodListInsertAfter malloc st.mem (st.lists k) data))
  | .appendList k l _ => do
    let r ← kmodListAppendList st.mem (st.lists k) (st.lists l)
    .ok ((st.assign l (none, r.2)).assign k r)
  | .remove k => do .ok (st.assign k (← kmodListRemove st.mem (st.lists k)))
  | .removeData k data => do .ok (st.assign k (← kmodListRemoveData st.mem (st.lists k) data))
  | .seek k i => do
    .ok (st.assign k (← seek st.mem.heap (st.lists k) i (st.lists k), st.mem))

/-- A program. -/
def State.run (st : State ι α) : List (Op ι α) → Except Fault (State ι α)
  | [] => .ok st
  | op :: ops => do (← st.exec op).run ops

/-! ## The sequences -/

/-- One operation on sequences. -/
def Op.apply (seqs : ι → List α) : Op ι α → ι → List α
  | .append k data malloc =>
    if malloc.isSome then Function.update seqs k (seqs k ++ [data]) else seqs
  | .prepend k data malloc =>
    if malloc.isSome then Function.update seqs k (data :: seqs k) else seqs
  | .insertBefore k data malloc =>
    if malloc.isSome then Function.update seqs k (data :: seqs k) else seqs
  | .insertAfter k data malloc =>
    if malloc.isSome then Function.update seqs k ((seqs k).take 1 ++ data :: (seqs k).drop 1)
    else seqs
  | .appendList k l _ => Function.update (Function.update seqs l []) k (seqs k ++ seqs l)
  | .remove k => Function.update seqs k (seqs k).tail
  | .removeData k data =>
    Function.update seqs k (((seqs k).idxOf? data).elim (seqs k)
      (fun i => (seqs k).drop (i + 1) ++ (seqs k).take i))
  | .seek k i => Function.update seqs k ((seqs k).rotate (min i ((seqs k).length - 1)))

end Programs

/-! ## New nodes -/

theorem getElem?_allocate (m : Memory α) (new : Nat) (data : α) :
    (∃ x, (m.allocate new data).heap[new]? = some x ∧ x.data = data) ∧
      ∀ c x, c ≠ new → m.heap[c]? = some x → (m.allocate new data).heap[c]? = some x := by
  unfold Memory.allocate
  dsimp only
  refine ⟨?_, fun c x hc hx => ?_⟩
  · have hlt : new < (m.heap ++
        List.replicate (new + 1 - m.heap.length) (Node.mk 0 0 data)).length := by
      rw [List.length_append, List.length_replicate]
      omega
    rw [List.getElem?_modify_eq, List.getElem?_eq_getElem hlt]
    exact ⟨_, rfl, rfl⟩
  · rw [List.getElem?_modify_ne _ _ (Ne.symm hc)]
    exact getElem?_of_append hx _

section AtEnd

/-! The functions of `Kmod.Libkmod.LinkedList` are these where `malloc` gives a new cell. -/

variable {m : Memory α} {malloc : Malloc α} (hend : malloc.pick m = m.heap.length)
  (list : Option Nat) (data : α)

theorem heap_allocate_end : (m.allocate m.heap.length data).heap = m.heap ++ [⟨0, 0, data⟩] := by
  unfold Memory.allocate
  dsimp only
  rw [Nat.add_sub_cancel_left, List.modify_eq_take_drop]
  simp

include hend

/-- **One model of `kmod_list_append` and its like**: where each allocation takes the cell behind
all others, they do what the functions of `Kmod.Libkmod.LinkedList` do. -/
theorem kmodList_atEnd :
    kmodListAppend (some malloc) m list data = (Kmod.kmodListAppend m.heap list data).map
      (fun r => (some r.1, ⟨r.2, insert m.heap.length m.live⟩)) ∧
    kmodListPrepend (some malloc) m list data = (Kmod.kmodListPrepend m.heap list data).map
      (fun r => (some r.1, ⟨r.2, insert m.heap.length m.live⟩)) ∧
    kmodListInsertBefore (some malloc) m list data =
      (Kmod.kmodListInsertBefore m.heap list data).map
        (fun r => (some r.1, ⟨r.2, insert m.heap.length m.live⟩)) := by
  have happend : ∀ list, kmodListAppend (some malloc) m list data =
      (Kmod.kmodListAppend m.heap list data).map
        (fun r => (some r.1, ⟨r.2, insert m.heap.length m.live⟩)) := by
    intro list
    unfold kmodListAppend Kmod.kmodListAppend
    dsimp only
    rw [hend, heap_allocate_end]
    cases listNodeAppend (m.heap ++ [⟨0, 0, data⟩]) list m.heap.length <;> rfl
  refine ⟨happend list, ?_, ?_⟩
  · unfold kmodListPrepend Kmod.kmodListPrepend
    dsimp only
    rw [hend, heap_allocate_end]
    cases listNodeAppend (m.heap ++ [⟨0, 0, data⟩]) list m.heap.length <;> rfl
  · cases list with
    | none => exact happend none
    | some list =>
      unfold kmodListInsertBefore Kmod.kmodListInsertBefore
      dsimp only
      rw [hend, heap_allocate_end]
      cases listNodeInsertBefore (m.heap ++ [⟨0, 0, data⟩]) (some list) m.heap.length <;> rfl

end AtEnd

/-- A list whose nodes are allocated. -/
structure Owns (m : Memory α) (list : Option Nat) (nodes : List Nat) (xs : List α) : Prop
    extends IsList m.heap list nodes xs where
  live : ∀ a ∈ nodes, a ∈ m.live

/--
What was done to a list: what is allocated and is none of its nodes was left alone, and nodes
that it did not have were not allocated.
-/
structure Updated (m m' : Memory α) (nodes nodes' : List Nat) : Prop where
  frame : ∀ c ∈ m.live, c ∉ nodes →
    (∀ x, m.heap[c]? = some x → m'.heap[c]? = some x) ∧ c ∈ m'.live
  fresh : ∀ a ∈ nodes', a ∈ nodes ∨ a ∉ m.live

/-- A call makes a list with some nodes into one with certain contents, and returns it. -/
def Gives (m : Memory α) (nodes : List Nat) (call : Except Fault (Option Nat × Memory α))
    (xs : List α) : Prop :=
  ∃ r m' nodes', call = .ok (r, m') ∧ Owns m' r nodes' xs ∧ Updated m m' nodes nodes'

/-- Nothing has been done, but the list may be known by another node. -/
theorem Updated.refl (m : Memory α) {nodes nodes' : List Nat} (h : ∀ a ∈ nodes', a ∈ nodes) :
    Updated m m nodes nodes' :=
  ⟨fun _ hc _ => ⟨fun _ hx => hx, hc⟩, fun a ha => .inl (h a ha)⟩

section New

variable {m : Memory α} {list : Option Nat} {first : Nat} {nodes : List Nat} {xs : List α}

/-- The null pointer is the empty list. -/
theorem Owns.nil_of_none (h : Owns m none nodes xs) : nodes = [] ∧ xs = [] := by
  obtain rfl : nodes = [] := List.head?_eq_none_iff.mp h.first.symm
  exact ⟨rfl, List.eq_nil_of_length_eq_zero h.data.length_eq.symm⟩

/-- The last node comes before the first. -/
theorem linked_last (h : IsList m.heap (some first) nodes xs) :
    ∃ last, nodes.getLast? = some last ∧ Linked m.heap last first := by
  have hlinked := h.linked
  rw [← h.first, Option.toList_some] at hlinked
  rcases List.eq_nil_or_concat nodes with rfl | ⟨before, last, rfl⟩
  · exact absurd h.first (by simp)
  · have hlast : (before.concat last).getLast? = some last := by simp
    exact ⟨last, hlast, (List.isChain_append.mp hlinked).2.2 last hlast first rfl⟩

/-- A node that stands alone. -/
theorem listNodeInit_ring {heap : Heap α} {new : Nat} {data : α}
    (hnew : ∃ x, heap[new]? = some x ∧ x.data = data) :
    ∃ heap', listNodeInit heap new = .ok heap' ∧ IsRing heap' [new] [data] ∧
      ∀ c, c ≠ new → heap'[c]? = heap[c]? := by
  obtain ⟨x, hx, hdata⟩ := hnew
  have hlt := (List.getElem?_eq_some_iff.mp hx).1
  have hnode : (withPrev (withNext heap new new) new new)[new]? = some ⟨new, new, x.data⟩ := by
    rw [getElem?_withPrev, getElem?_withNext, hx]
    simp
  refine ⟨withPrev (withNext heap new new) new new, ?_, ⟨⟨List.nodup_singleton _, ?_⟩, ?_⟩, ?_⟩
  · rw [listNodeInit, setNext_ok _ hlt, ok_bind, setPrev_ok _ (by simpa using hlt)]
  · exact List.isChain_pair.mpr ⟨_, _, hnode, hnode, rfl, rfl⟩
  · exact .cons ⟨_, hnode, hdata⟩ .nil
  · intro c hc
    rw [getElem?_withPrev, getElem?_withNext]
    simp only [if_neg hc, Option.map_map]
    exact Option.map_id'

/-- The list is there when a node has been allocated, and the node is not one of its own. -/
theorem Owns.allocate (h : Owns m list nodes xs) (malloc : Malloc α) (data : α) :
    IsRing (m.allocate (malloc.pick m) data).heap nodes xs ∧ malloc.pick m ∉ nodes := by
  have hfresh : malloc.pick m ∉ nodes := fun hin => malloc.fresh m (h.live _ hin)
  refine ⟨h.toIsRing.of_same (fun a ha x hx => ?_), hfresh⟩
  exact (getElem?_allocate m _ data).2 a x (fun heq => hfresh (heq ▸ ha)) hx

/-- A call to an empty list makes a list of one node. -/
theorem gives_append_nil (m : Memory α) (malloc : Malloc α) (data : α) :
    Gives m [] (kmodListAppend (some malloc) m none data) [data] := by
  obtain ⟨hcell, hother⟩ := getElem?_allocate m (malloc.pick m) data
  obtain ⟨heap', hcall, hring, hframe⟩ := listNodeInit_ring hcell
  refine ⟨some (malloc.pick m), ⟨heap', insert (malloc.pick m) m.live⟩, [malloc.pick m], ?_,
    ⟨⟨hring, rfl⟩, ?_⟩, ⟨fun c hc _ => ⟨fun x hx => ?_, Finset.mem_insert_of_mem hc⟩, ?_⟩⟩
  · simp only [kmodListAppend, listNodeAppend, hcall, ok_bind]
    rfl
  · intro a ha
    rw [List.mem_singleton.mp ha]
    exact Finset.mem_insert_self _ _
  · have hne : c ≠ malloc.pick m := fun heq => malloc.fresh m (heq ▸ hc)
    exact (hframe c hne).trans (hother c x hne hx)
  · intro a ha
    rw [List.mem_singleton.mp ha]
    exact .inr (malloc.fresh m)

/-- What is made of a list by splicing in a new node. -/
theorem Owns.splice (h : Owns m list nodes xs) {malloc : Malloc α} {data : α} {heap' : Heap α}
    {a b : Nat} (hs : Spliced (m.allocate (malloc.pick m) data).heap heap' a b (malloc.pick m))
    (ha : a ∈ nodes) (hb : b ∈ nodes) {nodes' : List Nat} {xs' : List α}
    (hring : IsRing heap' nodes' xs') (hsub : ∀ c ∈ nodes', c ∈ malloc.pick m :: nodes) :
    Owns ⟨heap', insert (malloc.pick m) m.live⟩ nodes'.head? nodes' xs' ∧
      Updated m ⟨heap', insert (malloc.pick m) m.live⟩ nodes nodes' := by
  refine ⟨⟨⟨hring, rfl⟩, fun c hc => ?_⟩,
    ⟨fun c hc hnot => ⟨fun x hx => ?_, Finset.mem_insert_of_mem hc⟩, fun c hc => ?_⟩⟩
  · rcases List.mem_cons.mp (hsub c hc) with rfl | hc
    · exact Finset.mem_insert_self _ _
    · exact Finset.mem_insert_of_mem (h.live c hc)
  · have hne : c ≠ malloc.pick m := fun heq => malloc.fresh m (heq ▸ hc)
    rw [hs.frame hne (fun heq => hnot (heq ▸ ha)) (fun heq => hnot (heq ▸ hb))]
    exact (getElem?_allocate m (malloc.pick m) data).2 c x hne hx
  · rcases List.mem_cons.mp (hsub c hc) with rfl | hc
    · exact .inr (malloc.fresh m)
    · exact .inl hc

/-- The new node has its data. -/
theorem holds_new (malloc : Malloc α) {data : α} {heap' : Heap α} {a b : Nat}
    (hs : Spliced (m.allocate (malloc.pick m) data).heap heap' a b (malloc.pick m)) :
    Holds heap' [malloc.pick m] [data] := by
  obtain ⟨x, hx, hdata⟩ := (getElem?_allocate m (malloc.pick m) data).1
  exact hs.holds (.cons ⟨x, hx, hdata⟩ .nil)

/-- Where a new node goes that is put before the first one. -/
theorem Owns.before (h : Owns m (some first) nodes xs) (malloc : Malloc α) (data : α) :
    ∃ last ∈ nodes, first ∈ nodes ∧
      Linked (m.allocate (malloc.pick m) data).heap last first ∧
      malloc.pick m < (m.allocate (malloc.pick m) data).heap.length ∧
      last ≠ malloc.pick m ∧ first ≠ malloc.pick m ∧
      ∀ heap', Spliced (m.allocate (malloc.pick m) data).heap heap' last first (malloc.pick m) →
        Cycle heap' (malloc.pick m :: nodes) ∧ Holds heap' nodes xs := by
  obtain ⟨hring, hfresh⟩ := h.allocate malloc data
  obtain ⟨x, hx, _⟩ := (getElem?_allocate m (malloc.pick m) data).1
  obtain ⟨last, hlast, hlink⟩ := linked_last (m := m.allocate (malloc.pick m) data)
    ⟨hring, h.first⟩
  have hfirst := List.mem_of_mem_head? h.first.symm
  have hmem := List.mem_of_mem_getLast? hlast
  exact ⟨last, hmem, hfirst, hlink, (List.getElem?_eq_some_iff.mp hx).1,
    fun heq => hfresh (heq ▸ hmem), fun heq => hfresh (heq ▸ hfirst), fun heap' hs =>
      ⟨hs.cycle_before hring.toCycle h.first.symm hlast ⟨x, hx⟩ hfresh, hs.holds hring.data⟩⟩

/-- `kmod_list_append` puts the node last. -/
theorem Owns.append (h : Owns m list nodes xs) (malloc : Malloc α) (data : α) :
    Gives m nodes (kmodListAppend (some malloc) m list data) (xs ++ [data]) := by
  cases list with
  | none =>
    obtain ⟨rfl, rfl⟩ := h.nil_of_none
    exact gives_append_nil m malloc data
  | some first =>
    obtain ⟨last, hlast, hfirst, hlink, hnew, hne₁, hne₂, hspliced⟩ := h.before malloc data
    obtain ⟨heap', hcall, hs⟩ := listNodeAppend_spliced hlink hnew hne₁ hne₂
    obtain ⟨hcycle, hholds⟩ := hspliced heap' hs
    have hring : IsRing heap' (nodes ++ [malloc.pick m]) (xs ++ [data]) :=
      ⟨hcycle.swap nodes [malloc.pick m], List.rel_append hholds (holds_new malloc hs)⟩
    obtain ⟨howns, hupd⟩ := h.splice hs hlast hfirst hring (by simp [or_comm])
    rw [List.head?_append, ← h.first, Option.some_or] at howns
    refine ⟨_, _, _, ?_, howns, hupd⟩
    simp only [kmodListAppend, hcall, ok_bind, Option.getD_some]
    rfl

/-- A call that splices the new node in before the first one and returns it. -/
theorem Owns.inFront (h : Owns m (some first) nodes xs) (malloc : Malloc α) (data : α)
    {call : Except Fault (Option Nat × Memory α)}
    (hcall : ∀ last, Linked (m.allocate (malloc.pick m) data).heap last first →
      malloc.pick m < (m.allocate (malloc.pick m) data).heap.length →
      last ≠ malloc.pick m → first ≠ malloc.pick m →
      ∃ heap', call = .ok (some (malloc.pick m), ⟨heap', insert (malloc.pick m) m.live⟩) ∧
        Spliced (m.allocate (malloc.pick m) data).heap heap' last first (malloc.pick m)) :
    Gives m nodes call (data :: xs) := by
  obtain ⟨last, hlast, hfirst, hlink, hnew, hne₁, hne₂, hspliced⟩ := h.before malloc data
  obtain ⟨heap', hcall, hs⟩ := hcall last hlink hnew hne₁ hne₂
  obtain ⟨hcycle, hholds⟩ := hspliced heap' hs
  obtain ⟨howns, hupd⟩ := h.splice hs hlast hfirst
    ⟨hcycle, List.rel_append (holds_new malloc hs) hholds⟩ (fun _ hc => hc)
  exact ⟨_, _, _, hcall, howns, hupd⟩

/-- `kmod_list_prepend` puts it first; the links are the same. -/
theorem Owns.prepend (h : Owns m list nodes xs) (malloc : Malloc α) (data : α) :
    Gives m nodes (kmodListPrepend (some malloc) m list data) (data :: xs) := by
  cases list with
  | none =>
    obtain ⟨rfl, rfl⟩ := h.nil_of_none
    exact gives_append_nil m malloc data
  | some first =>
    refine h.inFront malloc data (fun last hlink hnew hne₁ hne₂ => ?_)
    obtain ⟨heap', hcall, hs⟩ := listNodeAppend_spliced hlink hnew hne₁ hne₂
    refine ⟨heap', ?_, hs⟩
    simp only [kmodListPrepend, hcall, ok_bind]
    rfl

/-- `kmod_list_insert_before` returns the new node, from which the given one comes next. -/
theorem Owns.insertBefore (h : Owns m list nodes xs) (malloc : Malloc α) (data : α) :
    Gives m nodes (kmodListInsertBefore (some malloc) m list data) (data :: xs) := by
  cases list with
  | none =>
    obtain ⟨rfl, rfl⟩ := h.nil_of_none
    exact gives_append_nil m malloc data
  | some first =>
    refine h.inFront malloc data (fun last hlink hnew hne₁ hne₂ => ?_)
    obtain ⟨heap', hcall, hs⟩ := listNodeInsertBefore_spliced hlink hnew hne₁ hne₂
    refine ⟨heap', ?_, hs⟩
    simp only [kmodListInsertBefore, hcall, ok_bind]
    rfl

/-- `list_node_insert_after` puts the node between the list and the one behind it. -/
theorem listNodeInsertAfter_spliced {heap : Heap α} {a b new : Nat} (hab : Linked heap a b)
    (hnew : new < heap.length) (ha : a ≠ new) (hb : b ≠ new) :
    ∃ heap', listNodeInsertAfter heap (some a) new = .ok heap' ∧ Spliced heap heap' a b new := by
  obtain ⟨x, y, hx, hy, hnext, hprev⟩ := hab
  have hla := (List.getElem?_eq_some_iff.mp hx).1
  have hlb := (List.getElem?_eq_some_iff.mp hy).1
  refine ⟨withNext (withPrev (withNext (withPrev heap new a) new b) b new) a new, ?_, ?_⟩
  · have hx1 : (withPrev heap new a)[a]? = some x := by
      rw [getElem?_withPrev, hx, Option.map_some, if_neg ha]
    have hx2 : (withNext (withPrev heap new a) new b)[a]? = some x := by
      rw [getElem?_withNext, hx1, Option.map_some, if_neg ha]
    simp only [listNodeInsertAfter, setPrev_ok _ hnew, ok_bind, hx1, inBlock_some, hnext]
    rw [setNext_ok _ (by simpa using hnew), ok_bind]
    simp only [hx2, inBlock_some, ok_bind, hnext]
    rw [setPrev_ok _ (by simpa using hlb), ok_bind, setNext_ok _ (by simpa using hla)]
  · intro c
    simp only [getElem?_withNext, getElem?_withPrev, Option.map_map]
    cases heap[c]? with
    | none => rfl
    | some z =>
      by_cases hc : c = new
      · subst hc
        simp [hb.symm, ha.symm]
      · simp [hc]

/-- `kmod_list_insert_after` puts the node behind the one it is given. -/
theorem Owns.insertAfter (h : Owns m list nodes xs) (malloc : Malloc α) (data : α) :
    Gives m nodes (kmodListInsertAfter (some malloc) m list data)
      (xs.take 1 ++ data :: xs.drop 1) := by
  cases list with
  | none =>
    obtain ⟨rfl, rfl⟩ := h.nil_of_none
    exact gives_append_nil m malloc data
  | some first =>
    obtain ⟨hring, hfresh⟩ := h.allocate malloc data
    obtain ⟨cell, hcell, _⟩ := (getElem?_allocate m (malloc.pick m) data).1
    obtain ⟨rest, rfl⟩ := List.head?_eq_some_iff.mp h.first.symm
    obtain ⟨x, ys, rfl⟩ : ∃ x ys, xs = x :: ys := by
      cases xs with
      | nil => exact absurd h.data.length_eq (by simp)
      | cons x ys => exact ⟨x, ys, rfl⟩
    obtain ⟨b, hb⟩ : ∃ b, (rest ++ [first]).head? = some b := by
      cases rest <;> simp
    have hlinked : List.IsChain (Linked (m.allocate (malloc.pick m) data).heap)
        (first :: (rest ++ [first])) := by simpa using hring.linked
    have hlink := (List.isChain_cons.mp hlinked).1 b hb
    have hbmem : b ∈ first :: rest := by
      have := List.mem_of_mem_head? hb
      simpa [or_comm] using this
    have hne : ∀ c ∈ first :: rest, c ≠ malloc.pick m := fun c hc heq => hfresh (heq ▸ hc)
    obtain ⟨heap', hcall, hs⟩ := listNodeInsertAfter_spliced hlink
      (List.getElem?_eq_some_iff.mp hcell).1 (hne first (List.mem_cons_self ..)) (hne b hbmem)
    have hdata := hs.holds hring.data
    rw [Holds, List.forall₂_cons] at hdata
    have hafter : IsRing heap' (first :: malloc.pick m :: rest) (x :: data :: ys) :=
      ⟨hs.cycle_after hring.toCycle hb ⟨cell, hcell⟩ hfresh, .cons hdata.1
        (List.rel_append (holds_new malloc hs) hdata.2)⟩
    obtain ⟨howns, hupd⟩ := h.splice hs (List.mem_cons_self ..) hbmem hafter
      (by simp only [List.mem_cons]; tauto)
    refine ⟨_, _, _, ?_, howns, hupd⟩
    simp only [kmodListInsertAfter, hcall, ok_bind]
    rfl

end New

/-! ## Going over a list -/

section Traversal

variable {heap : Heap α} {list : Option Nat} {first : Nat} {nodes : List Nat} {xs : List α}

theorem kmodListNext_eq (heap : Heap α) (first x : Nat) :
    kmodListNext heap (some first) (some x) = Kmod.kmodListNext heap first x := by
  unfold kmodListNext Kmod.kmodListNext
  dsimp only
  cases inBlock heap[x]? with
  | error e => rfl
  | ok x => exact (apply_ite Except.ok _ _ _).symm

theorem next_list {before after : List Nat} {x : Nat}
    (h : IsList heap list (before ++ x :: after) xs) :
    kmodListNext heap list (some x) = .ok after.head? := by
  cases list with
  | none => exact absurd h.first (by cases before <;> simp)
  | some first => rw [kmodListNext_eq, kmodListNext_list h]

theorem prev_list {before after : List Nat} {x : Nat}
    (h : IsList heap list (before ++ x :: after) xs) :
    kmodListPrev heap list (some x) = .ok before.getLast? := by
  cases list with
  | none => exact absurd h.first (by cases before <;> simp)
  | some first =>
    unfold kmodListPrev
    rcases List.eq_nil_or_concat before with rfl | ⟨before, y, rfl⟩
    · obtain rfl : first = x := Option.some.inj h.first
      exact if_pos rfl
    · rw [List.concat_eq_append] at h ⊢
      have hlinked := h.linked
      rw [List.append_assoc, List.append_assoc] at hlinked
      obtain ⟨_, ⟨_, v, _, hv, _, hprev⟩, _⟩ := List.isChain_append_cons_cons.mp hlinked
      have hne : first ≠ x := by
        rintro rfl
        have hmem : first ∈ before ++ [y] := by
          have := List.mem_of_mem_head? (show first ∈ (before ++ [y]).head? by
            have := h.first
            cases before <;> simpa using this.symm)
          exact this
        exact (List.nodup_append.mp h.nodup).2.2 first hmem first (List.mem_cons_self ..) rfl
      simp only [if_neg hne, hv, inBlock_some, ok_bind, hprev]
      simp

theorem last_list (h : IsList heap list nodes xs) :
    kmodListLast heap list = .ok nodes.getLast? := by
  cases list with
  | none =>
    obtain rfl : nodes = [] := List.head?_eq_none_iff.mp h.first.symm
    rfl
  | some first =>
    obtain ⟨last, hlast, _, v, _, hv, _, hprev⟩ := linked_last (m := ⟨heap, ∅⟩) h
    have hv : heap[first]? = some v := hv
    simp only [kmodListLast, hv, inBlock_some, ok_bind, hprev, hlast]

theorem visit_next (h : IsList heap list nodes xs) (rest : List Nat) :
    ∀ before fuel, nodes = before ++ rest → rest.length < fuel →
      visit (kmodListNext heap list) fuel rest.head? = .ok rest := by
  induction rest with
  | nil =>
    intro before fuel _ hfuel
    obtain ⟨fuel, rfl⟩ := Nat.exists_eq_add_one_of_ne_zero (Nat.ne_of_gt hfuel)
    rfl
  | cons x rest ih =>
    intro before fuel hnodes hfuel
    obtain ⟨fuel, rfl⟩ := Nat.exists_eq_add_one_of_ne_zero (Nat.ne_of_gt (Nat.zero_lt_of_lt hfuel))
    have hrest := ih (before ++ [x]) fuel (by rw [hnodes]; simp)
      (by rw [List.length_cons] at hfuel; omega)
    rw [hnodes] at h
    rw [List.head?_cons, visit, next_list h, ok_bind, hrest, ok_bind]

theorem visit_prev (h : IsList heap list nodes xs) (front : List Nat) :
    ∀ after fuel, nodes = front ++ after → front.length < fuel →
      visit (kmodListPrev heap list) fuel front.getLast? = .ok front.reverse := by
  induction front using List.reverseRecOn with
  | nil =>
    intro after fuel _ hfuel
    obtain ⟨fuel, rfl⟩ := Nat.exists_eq_add_one_of_ne_zero (Nat.ne_of_gt hfuel)
    rfl
  | append_singleton front x ih =>
    intro after fuel hnodes hfuel
    obtain ⟨fuel, rfl⟩ := Nat.exists_eq_add_one_of_ne_zero (Nat.ne_of_gt (Nat.zero_lt_of_lt hfuel))
    have hrest := ih (x :: after) fuel (by rw [hnodes]; simp)
      (by rw [List.length_append, List.length_singleton] at hfuel; omega)
    rw [hnodes, List.append_assoc] at h
    rw [List.getLast?_concat, visit, prev_list h, ok_bind, hrest, ok_bind,
      List.reverse_append]
    rfl

/-- Each node of a list is visited once, in either direction. -/
theorem foreach_list (h : IsList heap list nodes xs) :
    foreach heap list = .ok nodes ∧ foreachReverse heap list = .ok nodes.reverse := by
  have hlen := Nat.lt_succ_of_le h.length_le
  refine ⟨?_, ?_⟩
  · unfold foreach
    rw [h.first]
    have := visit_next h nodes [] _ rfl hlen
    rwa [h.first] at this
  · unfold foreachReverse
    rw [last_list h, ok_bind]
    exact visit_prev h nodes [] _ (List.append_nil _).symm hlen

/-- The node that `kmod_list_remove_data` takes out is the first with the data. -/
theorem findData_list [DecidableEq α] (h : IsList heap list nodes xs) (data : α) (rest : List Nat) :
    ∀ before ys fuel, nodes = before ++ rest → Holds heap rest ys → rest.length < fuel →
      findData heap list data fuel rest.head? =
        .ok ((ys.idxOf? data).bind (fun i => rest[i]?)) := by
  induction rest with
  | nil =>
    intro before ys fuel _ hys hfuel
    obtain ⟨fuel, rfl⟩ := Nat.exists_eq_add_one_of_ne_zero (Nat.ne_of_gt hfuel)
    obtain rfl : ys = [] := List.eq_nil_of_length_eq_zero hys.length_eq.symm
    rfl
  | cons x rest ih =>
    intro before ys fuel hnodes hys hfuel
    obtain ⟨fuel, rfl⟩ := Nat.exists_eq_add_one_of_ne_zero (Nat.ne_of_gt (Nat.zero_lt_of_lt hfuel))
    cases hys with
    | @cons _ d _ ys hfirst hrest =>
    obtain ⟨u, hu, hdata⟩ := hfirst
    rw [List.head?_cons, findData, hu, inBlock_some, ok_bind, List.idxOf?_cons, hdata]
    by_cases hd : d = data
    · subst hd
      simp
    · have htail := ih (before ++ [x]) ys fuel (by rw [hnodes]; simp) hrest
        (by rw [List.length_cons] at hfuel; omega)
      rw [hnodes] at h
      rw [if_neg hd, next_list h, ok_bind, htail, if_neg (by simpa using hd)]
      cases ys.idxOf? data <;> rfl

/-- Going on from a node leads to another, or to the last one. -/
theorem seek_list (h : IsList heap list nodes xs) (i : Nat) :
    ∀ before x after, nodes = before ++ x :: after → ∃ before' y after',
      nodes = before' ++ y :: after' ∧ before'.length = min (before.length + i) (nodes.length - 1) ∧
        seek heap list i (some x) = .ok (some y) := by
  induction i with
  | zero =>
    intro before x after hnodes
    refine ⟨before, x, after, hnodes, ?_, rfl⟩
    rw [hnodes, List.length_append, List.length_cons]
    omega
  | succ i ih =>
    intro before x after hnodes
    have hnext := next_list (hnodes ▸ h)
    cases after with
    | nil =>
      refine ⟨before, x, [], hnodes, ?_, ?_⟩
      · rw [hnodes, List.length_append, List.length_singleton]
        omega
      · rw [seek, hnext, ok_bind]
        rfl
    | cons y after =>
      obtain ⟨before', z, after', hsplit, hlen, hseek⟩ := ih (before ++ [x]) y after
        (by rw [hnodes]; simp)
      refine ⟨before', z, after', hsplit, ?_, ?_⟩
      · rw [hlen, List.length_append, List.length_singleton]
        omega
      · rw [seek, hnext, ok_bind]
        exact hseek

end Traversal

/-! ## Nodes that are taken out, and lists that are joined -/

section Owned

variable {m : Memory α} {list : Option Nat} {nodes : List Nat} {xs : List α}

/-- The same list, known by another of its nodes. -/
theorem Owns.swap {front back : List Nat} {cs ds : List α}
    (h : Owns m list (front ++ back) (cs ++ ds)) (hlen : front.length = cs.length) :
    Owns m (back ++ front).head? (back ++ front) (ds ++ cs) :=
  ⟨⟨h.toIsRing.swap hlen, rfl⟩, fun a ha => h.live a (by simpa [or_comm] using ha)⟩

/-- The first node is taken out and freed. -/
theorem Owns.removeNode {x : Nat} {d : α} (h : Owns m list (x :: nodes) (d :: xs)) :
    ∃ heap', listNodeRemove m.heap x = .ok (nodes.head?, heap') ∧
      ({ m with heap := heap' } : Memory α).free x = .ok ⟨heap', m.live.erase x⟩ ∧
      Owns ⟨heap', m.live.erase x⟩ nodes.head? nodes xs ∧
      Updated m ⟨heap', m.live.erase x⟩ (x :: nodes) nodes := by
  have hfree : ∀ heap',
      ({ m with heap := heap' } : Memory α).free x = .ok ⟨heap', m.live.erase x⟩ :=
    fun heap' => if_pos (h.live x (List.mem_cons_self ..))
  have hx := (List.nodup_cons.mp h.nodup).1
  have hlive : ∀ a ∈ nodes, a ∈ m.live.erase x := fun a ha =>
    Finset.mem_erase.mpr ⟨fun heq => hx (heq ▸ ha), h.live a (List.mem_cons_of_mem _ ha)⟩
  have hlinked : List.IsChain (Linked m.heap) (x :: (nodes ++ [x])) := by simpa using h.linked
  rcases List.eq_nil_or_concat nodes with rfl | ⟨before, last, rfl⟩
  · obtain rfl : xs = [] := by
      have := h.data.length_eq
      simpa using this.symm
    refine ⟨m.heap, listNodeRemove_alone (List.isChain_pair.mp hlinked), hfree _,
      ⟨isList_nil _, hlive⟩,
      ⟨fun c hc hnot => ⟨fun _ hx => hx, ?_⟩, fun a ha => absurd ha (by simp)⟩⟩
    exact Finset.mem_erase.mpr ⟨fun heq => hnot (by simp [heq]), hc⟩
  · rw [List.concat_eq_append] at h hlinked hx hlive ⊢
    obtain ⟨second, hsecond⟩ : ∃ second, (before ++ [last]).head? = some second := by
      cases before <;> simp
    obtain ⟨hfirst, hrest⟩ := List.isChain_cons.mp hlinked
    have hfirst := hfirst second (by rw [List.head?_append, hsecond]; rfl)
    rw [List.append_assoc] at hrest
    obtain ⟨_, hlast, _⟩ := List.isChain_append_cons_cons.mp hrest
    have hmem := List.mem_of_mem_head? hsecond
    obtain ⟨heap', hcall, hjoined⟩ := listNodeRemove_joined hlast hfirst
      (fun heq => hx (by simp [heq])) (fun heq => hx (heq ▸ hmem))
    refine ⟨heap', hsecond ▸ hcall, hfree _,
      ⟨⟨hjoined.isRing h.toIsRing (by simp) hsecond, rfl⟩, hlive⟩,
      ⟨fun c hc hnot => ⟨fun u hu => ?_, ?_⟩, fun a ha => .inl (List.mem_cons_of_mem _ ha)⟩⟩
    · rw [List.mem_cons, not_or] at hnot
      refine (hjoined.frame ?_ ?_).trans hu
      · exact fun heq => hnot.2 (by simp [heq])
      · exact fun heq => hnot.2 (heq ▸ hmem)
    · exact Finset.mem_erase.mpr ⟨fun heq => hnot (heq ▸ List.mem_cons_self ..), hc⟩

/-- `kmod_list_remove` returns the successor of the node. -/
theorem Owns.remove (h : Owns m list nodes xs) : Gives m nodes (kmodListRemove m list) xs.tail := by
  cases nodes with
  | nil =>
    obtain rfl : list = none := h.first
    obtain ⟨_, rfl⟩ := h.nil_of_none
    exact ⟨none, m, [], rfl, h, .refl m (fun _ ha => ha)⟩
  | cons x nodes =>
    obtain rfl : list = some x := h.first
    cases xs with
    | nil => exact absurd h.data.length_eq (by simp)
    | cons d xs =>
      obtain ⟨heap', hcall, hfree, howns, hupd⟩ := h.removeNode
      refine ⟨_, _, _, ?_, howns, hupd⟩
      simp only [kmodListRemove, hcall, ok_bind, hfree]

/-- `kmod_list_remove_data` returns the successor of the first node with the data. -/
theorem Owns.removeData [DecidableEq α] (h : Owns m list nodes xs) (data : α) :
    Gives m nodes (kmodListRemoveData m list data)
      ((xs.idxOf? data).elim xs (fun i => xs.drop (i + 1) ++ xs.take i)) := by
  have hfind := findData_list h.toIsList data nodes [] xs (m.heap.length + 1) rfl h.data
    (Nat.lt_succ_of_le h.length_le)
  rw [← h.first] at hfind
  cases hidx : xs.idxOf? data with
  | none =>
    refine ⟨list, m, nodes, ?_, h, .refl m (fun _ ha => ha)⟩
    rw [hidx] at hfind
    simp only [kmodListRemoveData, hfind, ok_bind, Option.bind_none]
  | some i =>
    have hlen : nodes.length = xs.length := h.data.length_eq
    obtain ⟨hi, _⟩ := List.idxOf?_eq_some_iff.mp hidx
    have hi' : i < nodes.length := by omega
    -- the list, known by the node that is taken out
    have hsplit : Owns m list (nodes.take i ++ nodes.drop i) (xs.take i ++ xs.drop i) := by
      rwa [List.take_append_drop, List.take_append_drop]
    have hswap := hsplit.swap (by rw [List.length_take, List.length_take, hlen])
    rw [List.drop_eq_getElem_cons hi', List.drop_eq_getElem_cons hi, List.cons_append,
      List.cons_append] at hswap
    obtain ⟨heap', hcall, hfree, howns, hupd⟩ := hswap.removeNode
    have hsame : ∀ c, c ∈ nodes[i] :: (nodes.drop (i + 1) ++ nodes.take i) ↔ c ∈ nodes := by
      intro c
      rw [← List.cons_append, ← List.drop_eq_getElem_cons hi', List.mem_append, or_comm,
        ← List.mem_append, List.take_append_drop]
    refine ⟨_, _, _, ?_, howns, ⟨fun c hc hnot => hupd.frame c hc (fun h => hnot ((hsame c).mp h)),
      fun a ha => (hupd.fresh a ha).imp (hsame a).mp id⟩⟩
    rw [hidx, Option.bind_some, List.getElem?_eq_getElem hi'] at hfind
    simp only [kmodListRemoveData, hfind, ok_bind, hcall, hfree]

/-- `list_node_append_list` joins two rings. -/
theorem listNodeAppendList_joined {heap : Heap α} {a₁ b₁ a₂ b₂ : Nat} (h₁ : Linked heap a₁ b₁)
    (h₂ : Linked heap a₂ b₂) (ha : a₁ ≠ a₂) (hb : b₁ ≠ b₂) :
    ∃ heap', listNodeAppendList heap (some b₁) b₂ = .ok heap' ∧
      ∃ mid, Joined heap mid a₁ b₂ ∧ Joined mid heap' a₂ b₁ := by
  obtain ⟨x₁, y₁, hx₁, hy₁, _, hprev₁⟩ := h₁
  obtain ⟨x₂, y₂, hx₂, hy₂, _, hprev₂⟩ := h₂
  have hla₁ := (List.getElem?_eq_some_iff.mp hx₁).1
  have hlb₁ := (List.getElem?_eq_some_iff.mp hy₁).1
  have hla₂ := (List.getElem?_eq_some_iff.mp hx₂).1
  have hlb₂ := (List.getElem?_eq_some_iff.mp hy₂).1
  -- the links `next` are set first, and leave the links `prev` as they are
  obtain ⟨z₂, hz₂, hzprev₂⟩ : ∃ z, (withNext heap a₁ b₂)[b₂]? = some z ∧ z.prev = a₂ := by
    rw [getElem?_withNext, hy₂]
    exact ⟨_, rfl, hprev₂⟩
  obtain ⟨w₁, hw₁, hwprev₁⟩ : ∃ w, (withNext (withNext heap a₁ b₂) a₂ b₁)[b₁]? = some w ∧
      w.prev = a₁ := by
    rw [getElem?_withNext, getElem?_withNext, hy₁]
    exact ⟨_, rfl, hprev₁⟩
  obtain ⟨w₂, hw₂, hwprev₂⟩ : ∃ w, (withNext (withNext heap a₁ b₂) a₂ b₁)[b₂]? = some w ∧
      w.prev = a₂ := by
    rw [getElem?_withNext, getElem?_withNext, hy₂]
    exact ⟨_, rfl, hprev₂⟩
  refine ⟨withPrev (withPrev (withNext (withNext heap a₁ b₂) a₂ b₁) b₁ a₂) b₂ a₁, ?_,
    withPrev (withNext heap a₁ b₂) b₂ a₁, ?_, ?_⟩
  · simp only [listNodeAppendList, hy₁, inBlock_some, ok_bind, hprev₁, setNext_ok _ hla₁, hz₂,
      hzprev₂]
    rw [setNext_ok _ (by simpa using hla₂), ok_bind]
    simp only [hw₁, inBlock_some, ok_bind, hw₂, hwprev₁, hwprev₂]
    rw [setPrev_ok _ (by simpa using hlb₁), ok_bind, setPrev_ok _ (by simpa using hlb₂)]
  · intro c
    rw [getElem?_withPrev, getElem?_withNext, Option.map_map]
    rfl
  · intro c
    simp only [getElem?_withPrev, getElem?_withNext, Option.map_map]
    cases heap[c]? with
    | none => rfl
    | some z =>
      have hnext : ¬ (c = a₂ ∧ c = a₁) := fun h => ha (h.2.symm.trans h.1)
      have hprev : ¬ (c = b₂ ∧ c = b₁) := fun h => hb (h.2.symm.trans h.1)
      by_cases h₁ : c = b₁
      · simp [h₁, hb]
      · simp [h₁]

/-- `kmod_list_append_list` puts the second list behind the first. -/
theorem Owns.appendList {list1 list2 : Option Nat} {nodes1 nodes2 : List Nat} {xs ys : List α}
    (h1 : Owns m list1 nodes1 xs) (h2 : Owns m list2 nodes2 ys) (hdisj : nodes1.Disjoint nodes2) :
    Gives m (nodes1 ++ nodes2) (kmodListAppendList m list1 list2) (xs ++ ys) := by
  cases list1 with
  | none =>
    obtain ⟨rfl, rfl⟩ := h1.nil_of_none
    exact ⟨list2, m, nodes2, rfl, h2, .refl m (fun _ ha => ha)⟩
  | some first1 =>
    cases list2 with
    | none =>
      obtain ⟨rfl, rfl⟩ := h2.nil_of_none
      rw [List.append_nil, List.append_nil]
      exact ⟨some first1, m, nodes1, rfl, h1, .refl m (fun _ ha => ha)⟩
    | some first2 =>
      obtain ⟨last1, hlast1, hlink1⟩ := linked_last h1.toIsList
      obtain ⟨last2, hlast2, hlink2⟩ := linked_last h2.toIsList
      have hf1 := List.mem_of_mem_head? h1.first.symm
      have hf2 := List.mem_of_mem_head? h2.first.symm
      have hl1 := List.mem_of_mem_getLast? hlast1
      have hl2 := List.mem_of_mem_getLast? hlast2
      obtain ⟨heap', hcall, mid, hj₁, hj₂⟩ := listNodeAppendList_joined hlink1 hlink2
        (fun heq => hdisj hl1 (heq ▸ hl2)) (fun heq => hdisj hf1 (heq ▸ hf2))
      have hcycle := Cycle.join hj₁ hj₂ h1.toCycle h2.toCycle hdisj h1.first.symm hlast1
        h2.first.symm hlast2
      refine ⟨some first1, ⟨heap', m.live⟩, nodes1 ++ nodes2, ?_, ⟨⟨⟨hcycle,
        hj₂.holds (hj₁.holds (List.rel_append h1.data h2.data))⟩, ?_⟩, ?_⟩,
        ⟨fun c hc hnot => ⟨fun x hx => ?_, hc⟩, fun a ha => .inl ha⟩⟩
      · simp only [kmodListAppendList, hcall, ok_bind]
      · rw [List.head?_append, ← h1.first]
        rfl
      · intro a ha
        exact (List.mem_append.mp ha).elim (h1.live a) (h2.live a)
      · rw [List.mem_append, not_or] at hnot
        refine ((hj₂.frame ?_ ?_).trans (hj₁.frame ?_ ?_)).trans hx
        · exact fun heq => hnot.2 (heq ▸ hl2)
        · exact fun heq => hnot.1 (heq ▸ hf1)
        · exact fun heq => hnot.1 (heq ▸ hl1)
        · exact fun heq => hnot.2 (heq ▸ hf2)

/-- Going on from the first node makes the list known by another one. -/
theorem Owns.seek (h : Owns m list nodes xs) (i : Nat) :
    ∃ r nodes', ListOps.seek m.heap list i list = .ok r ∧
      Owns m r nodes' (xs.rotate (min i (xs.length - 1))) ∧ Updated m m nodes nodes' := by
  have hlen : nodes.length = xs.length := h.data.length_eq
  cases nodes with
  | nil =>
    obtain rfl : list = none := h.first
    obtain ⟨_, rfl⟩ := h.nil_of_none
    refine ⟨none, [], ?_, by simpa using h, .refl m (fun _ ha => ha)⟩
    cases i <;> rfl
  | cons x nodes =>
    obtain rfl : list = some x := h.first
    obtain ⟨front, y, back, hsplit, hfront, hseek⟩ := seek_list h.toIsList i [] x nodes rfl
    rw [List.length_nil, Nat.zero_add, hlen] at hfront
    have hle : front.length ≤ xs.length := by
      rw [← hlen, hsplit, List.length_append]
      omega
    rw [hsplit] at h ⊢
    rw [← hfront, List.rotate_eq_drop_append_take hle]
    refine ⟨some y, y :: back ++ front, hseek, ?_, .refl m (fun a ha => ?_)⟩
    · have hxs : Owns m (some x) (front ++ y :: back)
          (xs.take front.length ++ xs.drop front.length) := by rwa [List.take_append_drop]
      exact hxs.swap (by rw [List.length_take]; omega)
    · simpa [or_comm, or_left_comm] using ha

end Owned

/-! ## Programs and sequences -/

/-- The lists of a state have no node in common, and hold the sequences. -/
structure Represents (st : State ι α) (nodes : ι → List Nat) (seqs : ι → List α) : Prop where
  owns : ∀ k, Owns st.mem (st.lists k) (nodes k) (seqs k)
  disjoint : ∀ k l, k ≠ l → (nodes k).Disjoint (nodes l)

/-- Lists whose nodes were not touched are what they were. -/
theorem Owns.keep {m m' : Memory α} {list : Option Nat} {nodes touched nodes' : List Nat}
    {xs : List α} (h : Owns m list nodes xs) (hupd : Updated m m' touched nodes')
    (hdisj : nodes.Disjoint touched) : Owns m' list nodes xs ∧ nodes.Disjoint nodes' := by
  have hframe : ∀ a ∈ nodes, (∀ x, m.heap[a]? = some x → m'.heap[a]? = some x) ∧ a ∈ m'.live :=
    fun a ha => hupd.frame a (h.live a ha) (fun hin => hdisj ha hin)
  refine ⟨⟨⟨h.toIsRing.of_same (fun a ha => (hframe a ha).1), h.first⟩,
    fun a ha => (hframe a ha).2⟩, fun a ha ha' => ?_⟩
  rcases hupd.fresh a ha' with hin | hnot
  · exact hdisj ha hin
  · exact hnot (h.live a ha)

section Programs

variable [DecidableEq ι] {st : State ι α} {nodes : ι → List Nat} {seqs : ι → List α}

/-- The list of one variable is changed. -/
theorem Represents.assign (h : Represents st nodes seqs) (k : ι) {r : Option Nat} {m' : Memory α}
    {nodes' : List Nat} {xs : List α} (howns : Owns m' r nodes' xs)
    (hupd : Updated st.mem m' (nodes k) nodes') :
    Represents (st.assign k (r, m')) (Function.update nodes k nodes')
      (Function.update seqs k xs) := by
  have hkeep := fun l (hl : l ≠ k) => (h.owns l).keep hupd (h.disjoint l k hl)
  refine ⟨fun l => ?_, fun l l' hne => ?_⟩
  · unfold State.assign
    by_cases hl : l = k
    · subst hl
      simp only [Function.update_self]
      exact howns
    · simp only [Function.update_of_ne hl]
      exact (hkeep l hl).1
  · by_cases hl : l = k
    · subst hl
      rw [Function.update_self, Function.update_of_ne (Ne.symm hne)]
      exact (hkeep l' (Ne.symm hne)).2.symm
    · rw [Function.update_of_ne hl]
      by_cases hl' : l' = k
      · subst hl'
        rw [Function.update_self]
        exact (hkeep l hl).2
      · rw [Function.update_of_ne hl']
        exact h.disjoint l l' hne

/-- A call that adds an element to a list, unless there is no memory for it. -/
theorem Represents.assignNew (h : Represents st nodes seqs) (k : ι) (malloc : Option (Malloc α))
    (call : Option (Malloc α) → Except Fault (Option Nat × Memory α)) {xs : List α}
    (hfail : call none = .ok (none, st.mem)) (hne : xs ≠ [])
    (hcall : ∀ malloc, Gives st.mem (nodes k) (call (some malloc)) xs) :
    ∃ st' nodes', (call malloc >>= fun r => .ok (st.assignNew k r)) = .ok st' ∧
      Represents st' nodes' (if malloc.isSome then Function.update seqs k xs else seqs) := by
  cases malloc with
  | none => exact ⟨st, nodes, by rw [hfail]; rfl, h⟩
  | some malloc =>
    obtain ⟨r, m', nodes', hr, howns, hupd⟩ := hcall malloc
    have hsome : r ≠ none := by
      rintro rfl
      obtain rfl : nodes' = [] := List.head?_eq_none_iff.mp howns.first.symm
      exact hne (List.eq_nil_of_length_eq_zero howns.data.length_eq.symm)
    refine ⟨_, _, ?_, h.assign k howns hupd⟩
    rw [hr, ok_bind, State.assignNew, if_neg hsome]

/-- Two lists become one. -/
theorem Represents.join (h : Represents st nodes seqs) {k l : ι} (hne : k ≠ l) {r : Option Nat}
    {m' : Memory α} {nodes' : List Nat} {xs : List α} (howns : Owns m' r nodes' xs)
    (hupd : Updated st.mem m' (nodes k ++ nodes l) nodes') :
    Represents ((st.assign l (none, m')).assign k (r, m'))
      (Function.update (Function.update nodes l []) k nodes')
      (Function.update (Function.update seqs l []) k xs) := by
  have hkeep := fun j (hk : j ≠ k) (hl : j ≠ l) => (h.owns j).keep hupd (fun a ha ha' =>
    (List.mem_append.mp ha').elim (fun hin => h.disjoint j k hk ha hin)
      (fun hin => h.disjoint j l hl ha hin))
  refine ⟨fun j => ?_, fun j j' hjj' => ?_⟩
  · unfold State.assign
    by_cases hk : j = k
    · subst hk
      simp only [Function.update_self]
      exact howns
    · simp only [Function.update_of_ne hk]
      by_cases hl : j = l
      · subst hl
        simp only [Function.update_self]
        exact ⟨isList_nil _, by simp⟩
      · simp only [Function.update_of_ne hl]
        exact (hkeep j hk hl).1
  · by_cases hk : j = k
    · subst hk
      rw [Function.update_self, Function.update_of_ne (Ne.symm hjj')]
      by_cases hl : j' = l
      · rw [hl, Function.update_self]
        exact List.disjoint_nil_right _
      · rw [Function.update_of_ne hl]
        exact (hkeep j' (Ne.symm hjj') hl).2.symm
    · rw [Function.update_of_ne hk]
      by_cases hl : j = l
      · rw [hl, Function.update_self]
        exact List.disjoint_nil_left _
      · rw [Function.update_of_ne hl]
        by_cases hk' : j' = k
        · rw [hk', Function.update_self]
          exact (hkeep j hk hl).2
        · rw [Function.update_of_ne hk']
          by_cases hl' : j' = l
          · rw [hl', Function.update_self]
            exact List.disjoint_nil_right _
          · rw [Function.update_of_ne hl']
            exact h.disjoint j j' hjj'

variable [DecidableEq α]

/-- **One operation** does to the lists what it does to the sequences. -/
theorem exec_refines (h : Represents st nodes seqs) (op : Op ι α) :
    ∃ st' nodes', st.exec op = .ok st' ∧ Represents st' nodes' (Op.apply seqs op) := by
  cases op with
  | append k data malloc =>
    have hcall := fun malloc => (h.owns k).append malloc data
    exact h.assignNew k malloc (fun malloc => kmodListAppend malloc st.mem (st.lists k) data) rfl
      (by simp) hcall
  | prepend k data malloc =>
    have hcall := fun malloc => (h.owns k).prepend malloc data
    exact h.assignNew k malloc (fun malloc => kmodListPrepend malloc st.mem (st.lists k) data) rfl
      (by simp) hcall
  | insertBefore k data malloc =>
    have hcall := fun malloc => (h.owns k).insertBefore malloc data
    refine h.assignNew k malloc
      (fun malloc => kmodListInsertBefore malloc st.mem (st.lists k) data) ?_ (by simp) hcall
    unfold kmodListInsertBefore
    cases st.lists k <;> rfl
  | insertAfter k data malloc =>
    have hcall := fun malloc => (h.owns k).insertAfter malloc data
    refine h.assignNew k malloc
      (fun malloc => kmodListInsertAfter malloc st.mem (st.lists k) data) ?_ (by simp) hcall
    unfold kmodListInsertAfter
    cases st.lists k <;> rfl
  | appendList k l hne =>
    obtain ⟨r, m', nodes', hr, howns, hupd⟩ :=
      (h.owns k).appendList (h.owns l) (h.disjoint k l hne)
    refine ⟨_, _, ?_, h.join hne howns hupd⟩
    simp only [State.exec, hr, ok_bind]
  | remove k =>
    obtain ⟨r, m', nodes', hr, howns, hupd⟩ := (h.owns k).remove
    refine ⟨_, _, ?_, h.assign k howns hupd⟩
    simp only [State.exec, hr, ok_bind]
  | removeData k data =>
    obtain ⟨r, m', nodes', hr, howns, hupd⟩ := (h.owns k).removeData data
    refine ⟨_, _, ?_, h.assign k howns hupd⟩
    simp only [State.exec, hr, ok_bind]
  | seek k i =>
    obtain ⟨r, nodes', hr, howns, hupd⟩ := (h.owns k).seek i
    refine ⟨_, _, ?_, h.assign k howns hupd⟩
    simp only [State.exec, hr, ok_bind]

theorem run_refines (ops : List (Op ι α)) :
    ∀ {st : State ι α} {nodes : ι → List Nat} {seqs : ι → List α}, Represents st nodes seqs →
      ∃ st' nodes', st.run ops = .ok st' ∧ Represents st' nodes' (ops.foldl Op.apply seqs) := by
  induction ops with
  | nil => exact fun h => ⟨_, _, rfl, h⟩
  | cons op ops ih =>
    intro st nodes seqs h
    obtain ⟨st₁, nodes₁, hexec, h₁⟩ := exec_refines h op
    obtain ⟨st', nodes', hrun, h'⟩ := ih h₁
    refine ⟨st', nodes', ?_, h'⟩
    rw [State.run, hexec, ok_bind, hrun]

/--
**The lists are sequences.** From any state with lists that are well formed and have no node
in common, every program goes through. Its variables then hold lists of that kind again, with
the contents that the program makes of the sequences; and going over one of them from what its
variable holds visits each of its nodes once, in their order or from the last one on.
-/
theorem listOps_refine (h : Represents st nodes seqs) (ops : List (Op ι α)) :
    ∃ st' nodes', st.run ops = .ok st' ∧ Represents st' nodes' (ops.foldl Op.apply seqs) ∧
      ∀ k, foreach st'.mem.heap (st'.lists k) = .ok (nodes' k) ∧
        foreachReverse st'.mem.heap (st'.lists k) = .ok (nodes' k).reverse ∧
        kmodListLast st'.mem.heap (st'.lists k) = .ok (nodes' k).getLast? ∧
        (nodes' k).Nodup ∧ Holds st'.mem.heap (nodes' k) (ops.foldl Op.apply seqs k) := by
  obtain ⟨st', nodes', hrun, h'⟩ := run_refines ops h
  refine ⟨st', nodes', hrun, h', fun k => ?_⟩
  have hlist := (h'.owns k).toIsList
  obtain ⟨hforth, hback⟩ := foreach_list hlist
  exact ⟨hforth, hback, last_list hlist, hlist.nodup, hlist.data⟩

end Programs

/-- No memory is used yet, and every list is empty. -/
def emptyState : State Nat Char := ⟨⟨[], ∅⟩, fun _ => none⟩

theorem emptyState_represents : Represents emptyState (fun _ => []) (fun _ => []) :=
  ⟨fun _ => ⟨isList_nil _, by simp⟩, fun _ _ _ => List.disjoint_nil_left _⟩

/-- An allocator that gives the cell behind the last one in use. -/
def nextCell : Malloc Char :=
  ⟨fun m => m.live.sup id + 1, fun m h =>
    absurd (Finset.le_sup (f := id) h) (Nat.not_succ_le_self (m.live.sup id))⟩

/-- Two lists that are made, joined, and searched. -/
theorem emptyState_run_holds :
    ∃ st', ∃ nodes' : Nat → List Nat,
      emptyState.run [.append 0 'a' (some nextCell), .append 0 'b' (some nextCell),
        .append 0 'x' none, .insertAfter 0 'c' (some nextCell), .prepend 1 'd' (some nextCell),
        .appendList 0 1 (by decide), .removeData 0 'c'] = .ok st' ∧
      foreach st'.mem.heap (st'.lists 0) = .ok (nodes' 0) ∧
      Holds st'.mem.heap (nodes' 0) ['b', 'd', 'a'] := by
  obtain ⟨st', nodes', hrun, _, hall⟩ := listOps_refine emptyState_represents
    [.append 0 'a' (some nextCell), .append 0 'b' (some nextCell), .append 0 'x' none,
      .insertAfter 0 'c' (some nextCell), .prepend 1 'd' (some nextCell),
      .appendList 0 1 (by decide), .removeData 0 'c']
  obtain ⟨hforth, _, _, _, hholds⟩ := hall 0
  exact ⟨st', nodes', hrun, hforth, hholds⟩

end Kmod.ListOps
