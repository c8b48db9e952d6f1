import Mathlib.Data.List.Chain
import Mathlib.Data.List.Nodup

/-!
# Rings of doubly linked nodes

A circular list in memory: every node points to the next and to the previous one, and
the list is known by one of its nodes. Memory is a list of cells, and a pointer is the
place of a cell.

A ring is described by the sequence of its nodes (`IsRing`). All insertions splice one node
in between two neighbours (`Spliced`), which makes the same sequence with the node in that
place, whichever node the list is then known by. Two rings are joined to one by two new
links (`Joined`), and a node is taken out by one.
-/

namespace Kmod.Rings

variable {α : Type*}

/-- A cell of memory that holds a node. -/
structure Node (α : Type*) where
  next : Nat
  prev : Nat
  data : α

abbrev Heap (α : Type*) := List (Node α)

/-- Two nodes that follow each other. -/
def Linked (heap : Heap α) (a b : Nat) : Prop :=
  ∃ x y, heap[a]? = some x ∧ heap[b]? = some y ∧ x.next = b ∧ y.prev = a

/-- Nodes that follow each other, and the first one the last. -/
structure Cycle (heap : Heap α) (nodes : List Nat) : Prop where
  nodup : nodes.Nodup
  linked : List.IsChain (Linked heap) (nodes ++ nodes.head?.toList)

/-- The data of some nodes. -/
def Holds (heap : Heap α) (nodes : List Nat) (contents : List α) : Prop :=
  List.Forall₂ (fun a d => ∃ x, heap[a]? = some x ∧ x.data = d) nodes contents

/-- A ring, read from its first node. -/
structure IsRing (heap : Heap α) (nodes : List Nat)
    (contents : List α) : Prop extends Cycle heap nodes where
  data : Holds heap nodes contents

theorem isRing_nil (heap : Heap α) : IsRing heap [] [] := ⟨⟨List.nodup_nil, by simp⟩, .nil⟩

theorem Holds.lt_length {heap : Heap α} {nodes : List Nat} {contents : List α}
    (h : Holds heap nodes contents) :
    ∀ a ∈ nodes, a < heap.length := by
  induction h with
  | nil => simp
  | cons hfirst _ ih =>
    intro a ha
    rcases List.mem_cons.mp ha with rfl | ha
    · obtain ⟨x, hx, _⟩ := hfirst
      exact (List.getElem?_eq_some_iff.mp hx).1
    · exact ih a ha

/-- There are no more nodes than cells. -/
theorem IsRing.length_le {heap : Heap α} {nodes : List Nat} {contents : List α}
    (h : IsRing heap nodes contents) :
    nodes.length ≤ heap.length := by
  have hsub : nodes ⊆ List.range heap.length :=
    fun a ha => List.mem_range.mpr (h.data.lt_length a ha)
  have hle := h.nodup.length_le_of_subset hsub
  rwa [List.length_range] at hle

/-- The same nodes in a larger memory. -/
theorem getElem?_of_append {heap : Heap α} {a : Nat} {x : Node α} (h : heap[a]? = some x)
    (more : Heap α) :
    (heap ++ more)[a]? = some x := by
  rw [List.getElem?_append_left (List.getElem?_eq_some_iff.mp h).1, h]

/-- The last node may come first. -/
theorem Cycle.rotate {heap : Heap α} {nodes : List Nat} {x : Nat} (h : Cycle heap (nodes ++ [x])) :
    Cycle heap (x :: nodes) := by
  refine ⟨(List.perm_append_singleton x nodes).nodup_iff.mp h.nodup, ?_⟩
  cases nodes with
  | nil => exact h.linked
  | cons y nodes =>
    have hlinked : List.IsChain (Linked heap) ((y :: nodes) ++ x :: y :: []) := by
      simpa using h.linked
    obtain ⟨hnodes, hxy, _⟩ := List.isChain_append_cons_cons.mp hlinked
    exact List.isChain_cons_cons.mpr ⟨hxy, hnodes⟩

/-- Any node may come first. -/
theorem Cycle.swap {heap : Heap α} (ys : List Nat) :
    ∀ xs, Cycle heap (xs ++ ys) → Cycle heap (ys ++ xs) := by
  induction ys using List.reverseRecOn with
  | nil => intro xs h; rwa [List.append_nil] at h
  | append_singleton ys y ih =>
    intro xs h
    rw [← List.append_assoc] at h
    have hrest := ih (y :: xs) h.rotate
    rwa [List.append_assoc]

theorem IsRing.swap {heap : Heap α} {xs ys : List Nat} {cs ds : List α}
    (h : IsRing heap (xs ++ ys) (cs ++ ds)) (hlen : xs.length = cs.length) :
    IsRing heap (ys ++ xs) (ds ++ cs) := by
  have hfront := List.forall₂_take_append _ _ _ h.data
  have hback := List.forall₂_drop_append _ _ _ h.data
  rw [← hlen, List.take_left] at hfront
  rw [← hlen, List.drop_left] at hback
  exact ⟨h.toCycle.swap ys xs, List.rel_append hback hfront⟩

/-- What is said about a ring is said about the cells of its nodes. -/
theorem IsRing.of_same {heap heap' : Heap α} {nodes : List Nat} {contents : List α}
    (h : IsRing heap nodes contents)
    (hsame : ∀ a ∈ nodes, ∀ x, heap[a]? = some x → heap'[a]? = some x) :
    IsRing heap' nodes contents := by
  have hmem : ∀ a ∈ nodes ++ nodes.head?.toList, a ∈ nodes := by
    intro a ha
    rcases List.mem_append.mp ha with ha | ha
    · exact ha
    · exact List.mem_of_mem_head? (Option.mem_toList.mp ha)
  refine ⟨⟨h.nodup, h.linked.imp_of_mem_imp (fun a b ha hb hab => ?_)⟩, ?_⟩
  · obtain ⟨x, y, hx, hy, hlinks⟩ := hab
    exact ⟨x, y, hsame a (hmem a ha) x hx, hsame b (hmem b hb) y hy, hlinks⟩
  · have hdata := h.data
    unfold Holds at hdata ⊢
    rw [List.forall₂_iff_get] at hdata ⊢
    refine ⟨hdata.1, fun i h₁ h₂ => ?_⟩
    obtain ⟨x, hx, hd⟩ := hdata.2 i h₁ h₂
    exact ⟨x, hsame _ (List.get_mem ..) x hx, hd⟩

theorem IsRing.append {heap : Heap α} {nodes : List Nat} {contents : List α}
    (h : IsRing heap nodes contents) (more : Heap α) : IsRing (heap ++ more) nodes contents :=
  h.of_same (fun _ _ _ hx => getElem?_of_append hx more)

theorem Linked.next_unique {heap : Heap α} {a b c : Nat} (h : Linked heap a b)
    (h' : Linked heap a c) :
    b = c := by
  obtain ⟨x, _, hx, _, hnext, _⟩ := h
  obtain ⟨x', _, hx', _, hnext', _⟩ := h'
  obtain rfl := Option.some.inj (hx.symm.trans hx')
  exact hnext.symm.trans hnext'

theorem Linked.prev_unique {heap : Heap α} {a b c : Nat} (h : Linked heap a c)
    (h' : Linked heap b c) :
    a = b := by
  obtain ⟨_, y, _, hy, _, hprev⟩ := h
  obtain ⟨_, y', _, hy', _, hprev'⟩ := h'
  obtain rfl := Option.some.inj (hy.symm.trans hy')
  exact hprev.symm.trans hprev'

/-- A node `new` has been put between `a` and `b`; nothing else has changed. -/
def Spliced (heap heap' : Heap α) (a b new : Nat) : Prop :=
  ∀ c, heap'[c]? = heap[c]?.map (fun x => Node.mk
    (if c = new then b else if c = a then new else x.next)
    (if c = new then a else if c = b then new else x.prev) x.data)

section Spliced

variable {heap heap' : Heap α} {a b new : Nat}

theorem Spliced.get (h : Spliced heap heap' a b new) {c : Nat} {x : Node α}
    (hx : heap[c]? = some x) :
    heap'[c]? = some ⟨if c = new then b else if c = a then new else x.next,
      if c = new then a else if c = b then new else x.prev, x.data⟩ := by
  rw [h c, hx]
  rfl

/-- The other cells are as they were. -/
theorem Spliced.frame (h : Spliced heap heap' a b new) {c : Nat} (hc : c ≠ new) (ha : c ≠ a)
    (hb : c ≠ b) : heap'[c]? = heap[c]? := by
  rw [h c]
  simp only [if_neg hc, if_neg ha, if_neg hb]
  exact Option.map_id'

/-- Other neighbours stay neighbours. -/
theorem Spliced.linked (h : Spliced heap heap' a b new) (hab : Linked heap a b) {c d : Nat}
    (hcd : Linked heap c d) (hc : c ≠ new) (hd : d ≠ new) (hother : c ≠ a ∨ d ≠ b) :
    Linked heap' c d := by
  have hca : c ≠ a := by
    rintro rfl
    exact hother.elim (fun h => h rfl) (fun h => h (hcd.next_unique hab))
  have hdb : d ≠ b := by
    rintro rfl
    exact hca (hcd.prev_unique hab)
  obtain ⟨x, y, hx, hy, hnext, hprev⟩ := hcd
  refine ⟨_, _, h.get hx, h.get hy, ?_, ?_⟩
  · dsimp only
    rw [if_neg hc, if_neg hca, hnext]
  · dsimp only
    rw [if_neg hd, if_neg hdb, hprev]

/-- The new node has its place between its neighbours. -/
theorem Spliced.linked_new (h : Spliced heap heap' a b new) (hlinked : Linked heap a b)
    (hnew : ∃ x, heap[new]? = some x) (ha : a ≠ new) (hb : b ≠ new) :
    Linked heap' a new ∧ Linked heap' new b := by
  obtain ⟨x, y, hx, hy, _, _⟩ := hlinked
  obtain ⟨z, hz⟩ := hnew
  refine ⟨⟨_, _, h.get hx, h.get hz, ?_, ?_⟩, ⟨_, _, h.get hz, h.get hy, ?_, ?_⟩⟩
  · dsimp only
    rw [if_neg ha, if_pos rfl]
  · dsimp only
    rw [if_pos rfl]
  · dsimp only
    rw [if_pos rfl]
  · dsimp only
    rw [if_neg hb, if_pos rfl]

/-- A chain of nodes, with the new one spliced in. -/
theorem Spliced.isChain (h : Spliced heap heap' a b new) {before after : List Nat}
    (hchain : List.IsChain (Linked heap) (before ++ a :: b :: after))
    (hnew : ∃ x, heap[new]? = some x) (hfresh : new ∉ before ++ a :: b :: after)
    (ha : a ∉ before) (hb : b ∉ after) :
    List.IsChain (Linked heap') (before ++ a :: new :: b :: after) := by
  have hne : ∀ c ∈ before ++ a :: b :: after, c ≠ new := fun c hc heq => hfresh (heq ▸ hc)
  obtain ⟨hleft, hab, hright⟩ := List.isChain_append_cons_cons.mp hchain
  obtain ⟨h1, h2⟩ := h.linked_new hab hnew (hne a (by simp)) (hne b (by simp))
  refine List.isChain_append_cons_cons.mpr ⟨?_, h1, List.isChain_cons_cons.mpr ⟨h2, ?_⟩⟩
  · obtain ⟨hbefore, _, hlast⟩ := List.isChain_append.mp hleft
    refine List.isChain_append.mpr ⟨?_, List.isChain_singleton a, fun c hc d hd => ?_⟩
    · refine hbefore.imp_of_mem_imp (fun c d hc hd hcd => ?_)
      exact h.linked hab hcd (hne c (by simp [hc])) (hne d (by simp [hd]))
        (.inl (fun heq => ha (heq ▸ hc)))
    · have hc' := List.mem_of_getLast? hc
      have hda : a = d := by simpa using hd
      subst hda
      exact h.linked hab (hlast c hc a rfl) (hne c (by simp [hc'])) (hne a (by simp))
        (.inl (fun heq => ha (heq ▸ hc')))
  · refine hright.imp_of_mem_tail_imp (fun c d hc hd hcd => ?_)
    have hd' : d ∈ after := hd
    refine h.linked hab hcd (hne c ?_) (hne d (by simp [hd'])) (.inr (fun heq => hb (heq ▸ hd')))
    simp only [List.mem_append, List.mem_cons] at hc ⊢
    tauto

/-- Splicing leaves the data as they are. -/
theorem Spliced.holds (h : Spliced heap heap' a b new) {nodes : List Nat} {contents : List α}
    (hdata : Holds heap nodes contents) : Holds heap' nodes contents := by
  refine hdata.imp (fun c d hc => ?_)
  obtain ⟨x, hx, hd⟩ := hc
  exact ⟨_, h.get hx, hd⟩

/-- A node is spliced in between two nodes. -/
theorem Spliced.cycle_inside (h : Spliced heap heap' a b new) {before after : List Nat}
    (hcycle : Cycle heap (before ++ a :: b :: after)) (hnew : ∃ x, heap[new]? = some x)
    (hfresh : new ∉ before ++ a :: b :: after) :
    Cycle heap' (before ++ a :: new :: b :: after) := by
  have hnodup := hcycle.nodup
  refine ⟨?_, ?_⟩
  · have hmiddle : ((before ++ [a]) ++ new :: (b :: after)).Perm
        (new :: ((before ++ [a]) ++ (b :: after))) :=
      List.perm_middle
    have hperm : (before ++ a :: new :: b :: after).Perm (new :: (before ++ a :: b :: after)) := by
      simpa using hmiddle
    exact hperm.nodup_iff.mpr (List.nodup_cons.mpr ⟨hfresh, hnodup⟩)
  · -- the first node is the same, and comes again at the end
    obtain ⟨first, hfirst, hhead, hhead'⟩ : ∃ first ∈ before ++ [a],
        (before ++ a :: b :: after).head? = some first ∧
        (before ++ a :: new :: b :: after).head? = some first := by
      cases before <;> simp
    have hlinked := hcycle.linked
    rw [hhead, Option.toList_some, List.append_assoc] at hlinked
    rw [hhead', Option.toList_some, List.append_assoc]
    have hsplit : (before ++ [a]) ++ b :: after = before ++ a :: b :: after := by simp
    obtain ⟨hleft, hright, hdisj⟩ := List.nodup_append.mp (hsplit ▸ hnodup)
    refine h.isChain hlinked hnew (fun hin => ?_) (fun hin => ?_) (fun hin => ?_)
    · have hin' : new ∈ before ++ a :: b :: after ∨ new ∈ [first] := by
        simpa [or_assoc] using hin
      rcases hin' with hin | hin
      · exact hfresh hin
      · rw [List.mem_singleton.mp hin, ← hsplit] at hfresh
        exact hfresh (List.mem_append_left _ hfirst)
    · obtain ⟨_, _, hdisj'⟩ := List.nodup_append.mp hleft
      exact hdisj' a hin a (by simp) rfl
    · rcases List.mem_append.mp hin with hin | hin
      · exact (List.nodup_cons.mp hright).1 hin
      · exact hdisj first hfirst b (by simp) (List.mem_singleton.mp hin).symm

/-- A node is spliced in behind the last one. -/
theorem Spliced.cycle_end (h : Spliced heap heap' a b new) {before : List Nat}
    (hcycle : Cycle heap (before ++ [a])) (hb : (before ++ [a]).head? = some b)
    (hnew : ∃ x, heap[new]? = some x) (hfresh : new ∉ before ++ [a]) :
    Cycle heap' (before ++ [a, new]) := by
  have hnodup := hcycle.nodup
  have hsplit : before ++ [a, new] = (before ++ [a]) ++ [new] := by simp
  have hmem := List.mem_of_mem_head? hb
  refine ⟨?_, ?_⟩
  · rw [hsplit]
    exact (List.perm_append_singleton new _).nodup_iff.mpr (List.nodup_cons.mpr ⟨hfresh, hnodup⟩)
  · have hhead : (before ++ [a, new]).head? = some b := by
      rw [hsplit, List.head?_append, hb]
      rfl
    have hlinked := hcycle.linked
    rw [hb, Option.toList_some, List.append_assoc] at hlinked
    rw [hhead, Option.toList_some, List.append_assoc]
    obtain ⟨_, _, hdisj⟩ := List.nodup_append.mp hnodup
    refine h.isChain hlinked hnew (fun hin => ?_) (fun hin => hdisj a hin a (by simp) rfl) (by simp)
    have hin' : new ∈ before ++ [a] ∨ new = b := by simpa [or_assoc] using hin
    rcases hin' with hin | rfl
    · exact hfresh hin
    · exact hfresh hmem

/-- A node is put before the first one, and comes first. -/
theorem Spliced.cycle_before (h : Spliced heap heap' a b new) {nodes : List Nat}
    (hcycle : Cycle heap nodes) (hb : nodes.head? = some b) (ha : nodes.getLast? = some a)
    (hnew : ∃ x, heap[new]? = some x) (hfresh : new ∉ nodes) : Cycle heap' (new :: nodes) := by
  obtain ⟨before, rfl⟩ := List.getLast?_eq_some_iff.mp ha
  have hend := h.cycle_end hcycle hb hnew hfresh
  rw [show before ++ [a, new] = (before ++ [a]) ++ [new] by simp] at hend
  exact hend.rotate

/-- A node is put behind the first one. -/
theorem Spliced.cycle_after (h : Spliced heap heap' a b new) {rest : List Nat}
    (hcycle : Cycle heap (a :: rest)) (hb : (rest ++ [a]).head? = some b)
    (hnew : ∃ x, heap[new]? = some x) (hfresh : new ∉ a :: rest) :
    Cycle heap' (a :: new :: rest) := by
  cases rest with
  | nil =>
    show Cycle heap' ([] ++ [a, new])
    exact h.cycle_end hcycle hb hnew hfresh
  | cons c rest =>
    obtain rfl : c = b := Option.some.inj hb
    show Cycle heap' ([] ++ a :: new :: c :: rest)
    exact h.cycle_inside hcycle hnew hfresh

end Spliced

/-- `b` now follows `a`; nothing else has changed. -/
def Joined (heap heap' : Heap α) (a b : Nat) : Prop :=
  ∀ c, heap'[c]? = heap[c]?.map (fun x => Node.mk
    (if c = a then b else x.next) (if c = b then a else x.prev) x.data)

section Joined

variable {heap heap' : Heap α} {a b : Nat}

theorem Joined.get (h : Joined heap heap' a b) {c : Nat} {x : Node α} (hx : heap[c]? = some x) :
    heap'[c]? = some ⟨if c = a then b else x.next, if c = b then a else x.prev, x.data⟩ := by
  rw [h c, hx]
  rfl

/-- Other neighbours stay neighbours. -/
theorem Joined.linked (h : Joined heap heap' a b) {c d : Nat} (hcd : Linked heap c d) (hc : c ≠ a)
    (hd : d ≠ b) : Linked heap' c d := by
  obtain ⟨x, y, hx, hy, hnext, hprev⟩ := hcd
  refine ⟨_, _, h.get hx, h.get hy, ?_, ?_⟩
  · dsimp only
    rw [if_neg hc, hnext]
  · dsimp only
    rw [if_neg hd, hprev]

/-- The two nodes are neighbours. -/
theorem Joined.linked_new (h : Joined heap heap' a b) {x : Nat} (hax : Linked heap a x)
    (hxb : Linked heap x b) : Linked heap' a b := by
  obtain ⟨u, _, hu, _⟩ := hax
  obtain ⟨_, v, _, hv, _⟩ := hxb
  refine ⟨_, _, h.get hu, h.get hv, ?_, ?_⟩
  · dsimp only
    rw [if_pos rfl]
  · dsimp only
    rw [if_pos rfl]

/-- Joining leaves the data as they are. -/
theorem Joined.holds (h : Joined heap heap' a b) {nodes : List Nat} {contents : List α}
    (hdata : Holds heap nodes contents) : Holds heap' nodes contents := by
  refine hdata.imp (fun c d hc => ?_)
  obtain ⟨x, hx, hd⟩ := hc
  exact ⟨_, h.get hx, hd⟩

/-- The first node is taken out. -/
theorem Joined.isRing (h : Joined heap heap' a b) {x : Nat} {nodes : List Nat} {d : α}
    {contents : List α}
    (hring : IsRing heap (x :: nodes) (d :: contents)) (ha : nodes.getLast? = some a)
    (hb : nodes.head? = some b) : IsRing heap' nodes contents := by
  obtain ⟨hx, hnodup⟩ := List.nodup_cons.mp hring.nodup
  have hlinked : List.IsChain (Linked heap) (x :: (nodes ++ [x])) := by simpa using hring.linked
  obtain ⟨hxb, hrest⟩ := List.isChain_cons.mp hlinked
  obtain ⟨hnodes, _, hax⟩ := List.isChain_append.mp hrest
  have hxb' : Linked heap x b := hxb b (by rw [List.head?_append, hb]; rfl)
  have hax' : Linked heap a x := hax a ha x rfl
  have hdata := hring.data
  rw [Holds, List.forall₂_cons] at hdata
  refine ⟨⟨hnodup, ?_⟩, h.holds hdata.2⟩
  rw [hb, Option.toList_some]
  refine List.isChain_append.mpr ⟨?_, List.isChain_singleton b, ?_⟩
  · refine hnodes.imp_of_mem_tail_imp (fun c e hc he hce => ?_)
    have hca : c ≠ a := by
      rintro rfl
      exact hx ((hce.next_unique hax') ▸ List.mem_of_mem_tail he)
    have heb : e ≠ b := by
      rintro rfl
      cases nodes with
      | nil => cases he
      | cons y nodes =>
        obtain rfl : y = e := by simpa using hb
        exact (List.nodup_cons.mp hnodup).1 he
    exact h.linked hce hca heb
  · intro c hc e he
    obtain rfl : a = c := Option.some.inj (ha.symm.trans hc)
    obtain rfl : b = e := by simpa using he
    exact h.linked_new hax' hxb'

/-- The other cells are as they were. -/
theorem Joined.frame (h : Joined heap heap' a b) {c : Nat} (ha : c ≠ a) (hb : c ≠ b) :
    heap'[c]? = heap[c]? := by
  rw [h c]
  simp only [if_neg ha, if_neg hb]
  exact Option.map_id'

end Joined

/-! ## Two rings -/

section Join

variable {heap mid heap' : Heap α} {xs ys : List Nat} {a b a₁ b₁ a₂ b₂ : Nat}

/-- The links of a ring but for the one from the last node to the first. -/
theorem Cycle.inner (h : Cycle heap xs) (hb : xs.head? = some b) (ha : xs.getLast? = some a) :
    List.IsChain (fun c d => Linked heap c d ∧ c ≠ a ∧ d ≠ b ∧ c ∈ xs ∧ d ∈ xs) xs := by
  have hlinked := h.linked
  rw [hb, Option.toList_some] at hlinked
  obtain ⟨hxs, _, hab⟩ := List.isChain_append.mp hlinked
  have hab : Linked heap a b := hab a ha b rfl
  refine hxs.imp_of_mem_tail_imp (fun c d hc hd hcd => ?_)
  have hdb : d ≠ b := by
    rintro rfl
    cases xs with
    | nil => cases hd
    | cons x xs =>
      obtain rfl : x = d := Option.some.inj hb
      exact (List.nodup_cons.mp h.nodup).1 hd
  refine ⟨hcd, ?_, hdb, hc, List.mem_of_mem_tail hd⟩
  rintro rfl
  exact hdb (hcd.next_unique hab)

/--
Two rings become one: the second begins where the first ended, and its last node comes before
the first node of all.
-/
theorem Cycle.join (h₁ : Joined heap mid a₁ b₂) (h₂ : Joined mid heap' a₂ b₁)
    (hxs : Cycle heap xs) (hys : Cycle heap ys) (hdisj : xs.Disjoint ys)
    (hb₁ : xs.head? = some b₁) (ha₁ : xs.getLast? = some a₁) (hb₂ : ys.head? = some b₂)
    (ha₂ : ys.getLast? = some a₂) : Cycle heap' (xs ++ ys) := by
  have hmb₁ := List.mem_of_mem_head? hb₁
  have hma₁ := List.mem_of_mem_getLast? ha₁
  have hmb₂ := List.mem_of_mem_head? hb₂
  have hma₂ := List.mem_of_mem_getLast? ha₂
  have hne : ∀ c ∈ xs, ∀ d ∈ ys, c ≠ d := fun c hc d hd heq => hdisj hc (heq ▸ hd)
  have hlinked₁ := hxs.linked
  rw [hb₁, Option.toList_some] at hlinked₁
  obtain ⟨u₁, v₁, hu₁, hv₁, _⟩ := (List.isChain_append.mp hlinked₁).2.2 a₁ ha₁ b₁ rfl
  have hlinked₂ := hys.linked
  rw [hb₂, Option.toList_some] at hlinked₂
  obtain ⟨u₂, v₂, hu₂, hv₂, _⟩ := (List.isChain_append.mp hlinked₂).2.2 a₂ ha₂ b₂ rfl
  have hfirst : Linked heap' a₁ b₂ := by
    refine h₂.linked ⟨_, _, h₁.get hu₁, h₁.get hv₂, if_pos rfl, if_pos rfl⟩ ?_ ?_
    · exact hne a₁ hma₁ a₂ hma₂
    · exact (hne b₁ hmb₁ b₂ hmb₂).symm
  have hlast : Linked heap' a₂ b₁ :=
    ⟨_, _, h₂.get (h₁.get hu₂), h₂.get (h₁.get hv₁), if_pos rfl, if_pos rfl⟩
  refine ⟨List.nodup_append.mpr ⟨hxs.nodup, hys.nodup, hne⟩, ?_⟩
  rw [List.head?_append, hb₁, Option.some_or, Option.toList_some]
  refine List.isChain_append.mpr ⟨List.isChain_append.mpr ⟨?_, ?_, ?_⟩,
    List.isChain_singleton b₁, ?_⟩
  · refine (hxs.inner hb₁ ha₁).imp (fun c d hcd => ?_)
    obtain ⟨hcd, hc, hd, hcx, hdx⟩ := hcd
    exact h₂.linked (h₁.linked hcd hc (hne d hdx b₂ hmb₂)) (hne c hcx a₂ hma₂) hd
  · refine (hys.inner hb₂ ha₂).imp (fun c d hcd => ?_)
    obtain ⟨hcd, hc, hd, hcy, hdy⟩ := hcd
    exact h₂.linked (h₁.linked hcd (hne a₁ hma₁ c hcy).symm hd) hc (hne b₁ hmb₁ d hdy).symm
  · intro c hc d hd
    obtain rfl : a₁ = c := Option.some.inj (ha₁.symm.trans hc)
    obtain rfl : b₂ = d := Option.some.inj (hb₂.symm.trans hd)
    exact hfirst
  · intro c hc d hd
    have hc₂ : ys.getLast? = some c := by
      rw [List.getLast?_append, ha₂, Option.some_or] at hc
      exact ha₂.trans hc
    obtain rfl : a₂ = c := Option.some.inj (ha₂.symm.trans hc₂)
    obtain rfl : b₁ = d := by simpa using hd
    exact hlast

end Join

end Kmod.Rings
