import Kmod.Index.Node
import Kmod.Lib.Sorting

/-!
# What the index contains

A radix tree stands for a finite map from keys to lists of values, `lookup`. The
one fact about insertion that the readers need is `lookup_insertLoop`: it adds
the value to the list of its key and leaves every other key alone, whatever
nodes it splits on the way. The shape the code relies on when it writes the tree
is `Ok`, and insertion preserves it.
-/

namespace Kmod.Index

open Kmod.Lists Sorting

/-! ## Lookup -/

/-- Follow `pfx` along a key, and go on from its end. -/
def descend (values : List IndexValue) (below : UInt8 → CStr → List IndexValue) :
    CStr → CStr → List IndexValue
  | [], [] => values
  | [], c :: key => below c key
  | _ :: _, [] => []
  | p :: pfx, k :: key => if p = k then descend values below pfx key else []

/-- The values stored under a key. -/
def IndexNode.lookup : IndexNode → CStr → List IndexValue
  | .null, _ => []
  | .node d children, key => descend d.values (fun c => (children c).lookup) d.pfx key

section Descend

variable {values : List IndexValue} {below : UInt8 → CStr → List IndexValue}

@[simp] theorem descend_append (a pfx key : CStr) :
    descend values below (a ++ pfx) (a ++ key) = descend values below pfx key := by
  induction a with
  | nil => rfl
  | cons x a ih => rw [List.cons_append, List.cons_append, descend, if_pos rfl, ih]

theorem descend_eq_nil {pfx key : CStr} (h : ¬ pfx <+: key) :
    descend values below pfx key = [] := by
  induction pfx generalizing key with
  | nil => exact absurd (List.nil_prefix) h
  | cons p pfx ih =>
    cases key with
    | nil => rfl
    | cons k key =>
      unfold descend
      by_cases hpk : p = k
      · subst hpk
        rw [if_pos rfl]
        exact ih (fun hp => h (List.prefix_cons_iff.mpr (.inr ⟨_, rfl, hp⟩)))
      · rw [if_neg hpk]

@[simp] theorem descend_self (pfx : CStr) : descend values below pfx pfx = values := by
  have happend : descend values below (pfx ++ []) (pfx ++ []) = _ := descend_append pfx [] []
  simpa [descend] using happend

@[simp] theorem descend_below (pfx : CStr) (c : UInt8) (key : CStr) :
    descend values below pfx (pfx ++ c :: key) = below c key := by
  have happend : descend values below (pfx ++ []) (pfx ++ c :: key) = _ :=
    descend_append pfx [] (c :: key)
  simpa [descend] using happend

end Descend

@[simp] theorem lookup_null (key : CStr) : IndexNode.null.lookup key = [] := rfl

theorem lookup_node (d : NodeData) (children : UInt8 → IndexNode) (key : CStr) :
    (IndexNode.node d children).lookup key
      = descend d.values (fun c => (children c).lookup) d.pfx key := rfl

/-- A leaf has the values of one key. -/
theorem lookup_leaf (d : NodeData) (key : CStr) :
    (IndexNode.node d noChildren).lookup key = if key = d.pfx then d.values else [] := by
  rw [lookup_node]
  by_cases h : key = d.pfx
  · rw [if_pos h, h, descend_self]
  · rw [if_neg h]
    by_cases hp : d.pfx <+: key
    · obtain ⟨rest, rfl⟩ := hp
      cases rest with
      | nil => exact absurd (List.append_nil _) h
      | cons c rest => rw [descend_below]; rfl
    · exact descend_eq_nil hp

/-- A node changes only below `c` if only its child for `c` changes. -/
theorem descend_update {values : List IndexValue} {children : UInt8 → IndexNode} {c : UInt8}
    {child : IndexNode} {pfx key : CStr} {new : List IndexValue} (q : CStr)
    (h : ∀ k, child.lookup k = if k = key then new else (children c).lookup k) :
    descend values (fun x => (Function.update children c child x).lookup) pfx q
      = if q = pfx ++ c :: key then new
        else descend values (fun x => (children x).lookup) pfx q := by
  -- a query that does not follow the prefix finds nothing before or after
  by_cases hp : pfx <+: q
  · obtain ⟨rest, rfl⟩ := hp
    cases rest with
    | nil => simp
    | cons x rest =>
      rw [descend_below, descend_below]
      by_cases hx : x = c
      · subst hx
        rw [Function.update_self, h]
        simp
      · rw [Function.update_of_ne hx]
        simp [hx]
  · rw [descend_eq_nil hp, descend_eq_nil hp, if_neg]
    rintro rfl
    exact hp ⟨_, rfl⟩

theorem lookup_addChild {d : NodeData} {children : UInt8 → IndexNode} {c : UInt8}
    (hnull : children c = .null) (rest value : CStr) (priority : UInt32) (q : CStr) :
    (addChild d children c rest value priority).lookup q
      = if q = d.pfx ++ c :: rest then [⟨priority, value⟩]
        else (IndexNode.node d children).lookup q := by
  unfold addChild
  rw [lookup_node, lookup_node]
  refine descend_update q (fun k => ?_)
  rw [lookup_leaf, hnull]
  rfl

/-- The node `index_insert` puts above one whose prefix goes another way. -/
def splitNode (d : NodeData) (children : UInt8 → IndexNode) (common : CStr) (ch : UInt8)
    (after : CStr) : IndexNode :=
  .node ⟨common, [], ch, ch, 0, 0⟩
    (Function.update noChildren ch (.node { d with pfx := after } children))

/-- Splitting a node does not change what it contains. -/
theorem lookup_splitNode {d : NodeData} {children : UInt8 → IndexNode} {common : CStr} {ch : UInt8}
    {after : CStr} (hpfx : d.pfx = common ++ ch :: after) (q : CStr) :
    (splitNode d children common ch after).lookup q = (IndexNode.node d children).lookup q := by
  unfold splitNode
  rw [lookup_node, lookup_node, hpfx]
  by_cases hp : common <+: q
  · obtain ⟨rest, rfl⟩ := hp
    rw [descend_append]
    cases rest with
    | nil => rw [List.append_nil, descend_self]; rfl
    | cons x rest =>
      rw [descend_below]
      -- only the old node is below the new one
      by_cases hx : x = ch
      · subst hx
        rw [Function.update_self, descend, if_pos rfl]
        rfl
      · rw [Function.update_of_ne hx, descend, if_neg (Ne.symm hx)]
        rfl
  · rw [descend_eq_nil hp, descend_eq_nil]
    exact fun h => hp ((List.prefix_append _ _).trans h)

/-! ## What an insertion does -/

/-- **The ways of `index_insert`**: from a node, along a key, to the node it leaves in its place. -/
inductive Inserted (value : CStr) (priority : UInt32) : IndexNode → CStr → IndexNode → Prop where
  /-- The key ends here. -/
  | here (d : NodeData) (children : UInt8 → IndexNode) :
      Inserted value priority (.node d children) d.pfx
        (.node { d with values := addValue d.values value priority } children)
  /-- The key goes on where there is no child yet. -/
  | grow (d : NodeData) (children : UInt8 → IndexNode) (c : UInt8) (rest : CStr)
      (hnull : children c = .null) :
      Inserted value priority (.node d children) (d.pfx ++ c :: rest)
        (addChild d children c rest value priority)
  /-- The key goes on in a child. -/
  | down (d : NodeData) (children : UInt8 → IndexNode) (c : UInt8) (rest : CStr) (child : IndexNode)
      (hchild : (children c).isNull = false) (h : Inserted value priority (children c) rest child) :
      Inserted value priority (.node d children) (d.pfx ++ c :: rest)
        (.node d (Function.update children c child))
  /-- The key leaves the prefix: the node is split first. -/
  | split (d : NodeData) (children : UInt8 → IndexNode) (common : CStr) (ch : UInt8) (after : CStr)
      (key : CStr) (t : IndexNode) (hpfx : d.pfx = common ++ ch :: after)
      (h : Inserted value priority (splitNode d children common ch after) key t) :
      Inserted value priority (.node d children) key t

/-- **One round of the loop**: the key ends at the node, goes on below it, or leaves its prefix. -/
inductive InsertRound (value : CStr) (priority : UInt32) (d : NodeData)
    (children : UInt8 → IndexNode) : CStr → IndexNode → Prop where
  | here :
      InsertRound value priority d children d.pfx
        (.node { d with values := addValue d.values value priority } children)
  | grow (c : UInt8) (rest : CStr) (hnull : children c = .null) :
      InsertRound value priority d children (d.pfx ++ c :: rest)
        (addChild d children c rest value priority)
  | down (c : UInt8) (rest : CStr) (hchild : (children c).isNull = false) :
      InsertRound value priority d children (d.pfx ++ c :: rest)
        (.node d (Function.update children c (insertLoop (children c) rest value priority).1))
  /-- The key is the part of the prefix before the split. -/
  | splitHere (common : CStr) (ch : UInt8) (after : CStr) (hpfx : d.pfx = common ++ ch :: after) :
      InsertRound value priority d children common
        (.node ⟨common, addValue [] value priority, ch, ch, 0, 0⟩
          (Function.update noChildren ch (.node { d with pfx := after } children)))
  /-- The key goes on from the split with another character. -/
  | splitGrow (common : CStr) (ch : UInt8) (after : CStr) (c : UInt8) (rest : CStr)
      (hpfx : d.pfx = common ++ ch :: after) (hne : c ≠ ch) :
      InsertRound value priority d children (common ++ c :: rest)
        (addChild ⟨common, [], ch, ch, 0, 0⟩
          (Function.update noChildren ch (.node { d with pfx := after } children)) c rest value
          priority)

theorem insertLoop_round (value : CStr) (priority : UInt32) (d : NodeData)
    (children : UInt8 → IndexNode) (key : CStr) :
    InsertRound value priority d children key
      (insertLoop (.node d children) key value priority).1 := by
  obtain ⟨hd, hk⟩ := commonPrefix_eq d.pfx key
  have hhead := fun a b x y => commonPrefix_head d.pfx key (a := a) (b := b) (x := x) (y := y)
  unfold insertLoop
  rcases hc : commonPrefix d.pfx key with ⟨common, after, rest⟩
  rw [hc] at hd hk hhead
  simp only at hd hk hhead
  -- the key follows the whole prefix, or leaves it before its end
  cases after with
  | nil =>
    rw [List.append_nil] at hd
    cases rest with
    | nil =>
      rw [List.append_nil, ← hd] at hk
      subst hk
      exact .here
    | cons c rest =>
      rw [← hd] at hk
      subst hk
      cases hnull : (children c).isNull with
      | true =>
        simp only [hnull, if_true]
        refine .grow c rest ?_
        cases hch : children c with
        | null => rfl
        | node _ _ => rw [hch] at hnull; exact absurd hnull (by simp [IndexNode.isNull])
      | false =>
        simp only [hnull, Bool.false_eq_true, if_false]
        exact .down c rest hnull
  | cons ch after =>
    cases rest with
    | nil =>
      rw [List.append_nil] at hk
      subst hk
      exact .splitHere _ ch after hd
    | cons c rest =>
      subst hk
      -- the character the key goes on with is not the one the prefix went on with
      exact .splitGrow common ch after c rest hd (hhead ch c after rest rfl rfl).symm

theorem insertLoop_inserted (value : CStr) (priority : UInt32) (t : IndexNode) :
    ∀ key : CStr, t.isNull = false →
      Inserted value priority t key (insertLoop t key value priority).1 := by
  induction t with
  | null => intro _ h; exact absurd h (by simp [IndexNode.isNull])
  | node d children ih =>
    intro key _
    have hround := insertLoop_round value priority d children key
    generalize (insertLoop (.node d children) key value priority).1 = t at hround ⊢
    cases hround with
    | here => exact .here d children
    | grow c rest hnull => exact .grow d children c rest hnull
    | down c rest hchild => exact .down d children c rest _ hchild (ih c rest hchild)
    | splitHere _ ch after hpfx => exact .split d children _ ch after _ _ hpfx (.here _ _)
    | splitGrow common ch after c rest hpfx hne =>
      refine .split d children common ch after _ _ hpfx (.grow _ _ c rest ?_)
      rw [Function.update_of_ne hne]
      rfl

/-- **Insertion adds one value to one key.** -/
theorem Inserted.lookup {value : CStr} {priority : UInt32} {t t' : IndexNode} {key : CStr}
    (h : Inserted value priority t key t') (q : CStr) :
    t'.lookup q = if q = key then addValue (t.lookup key) value priority else t.lookup q := by
  induction h generalizing q with
  | here d children =>
    rw [lookup_node, lookup_node, lookup_node, descend_self]
    -- the node's own values change, those below it do not
    by_cases hq : q = d.pfx
    · rw [if_pos hq, hq, descend_self]
    · rw [if_neg hq]
      by_cases hp : d.pfx <+: q
      · obtain ⟨rest, rfl⟩ := hp
        cases rest with
        | nil => exact absurd (List.append_nil _) hq
        | cons c rest => rw [descend_below, descend_below]
      · rw [descend_eq_nil hp, descend_eq_nil hp]
  | grow d children c rest hnull =>
    rw [lookup_addChild hnull, lookup_node d children (d.pfx ++ c :: rest), descend_below, hnull]
    rfl
  | down d children c rest child hchild _ ih =>
    rw [lookup_node, descend_update q ih, lookup_node, lookup_node, descend_below]
  | split d children common ch after key t hpfx _ ih =>
    rw [ih, lookup_splitNode hpfx, lookup_splitNode hpfx]

/-! ## Lists of values -/

/-- Values are ordered by priority. -/
def ByPriority (a b : IndexValue) : Prop := a.priority ≤ b.priority

instance : DecidableRel ByPriority := fun a b =>
  inferInstanceAs (Decidable (a.priority ≤ b.priority))

instance : Std.Total ByPriority := ⟨fun a b => UInt32.le_total a.priority b.priority⟩

instance : IsTrans IndexValue ByPriority := ⟨fun _ _ _ => UInt32.le_trans⟩

instance : Std.Refl ByPriority := ⟨fun a => UInt32.le_refl a.priority⟩

theorem addValue_eq (values : List IndexValue) (value : CStr) (priority : UInt32) :
    addValue values value priority = values.orderedInsert ByPriority ⟨priority, value⟩ := by
  induction values with
  | nil => rfl
  | cons v values ih =>
    unfold addValue
    rw [List.orderedInsert_cons, ih]
    by_cases h : v.priority < priority
    · have hnot : ¬ ByPriority ⟨priority, value⟩ v := fun hle => UInt32.not_lt.mpr hle h
      rw [if_pos h, if_neg hnot]
    · have hle : ByPriority ⟨priority, value⟩ v := UInt32.not_lt.mp h
      rw [if_neg h, if_pos hle]

theorem addValues_eq (out values : List IndexValue) :
    addValues out values = Sorting.insertAll ByPriority out values := by
  unfold addValues
  rw [Sorting.insertAll]
  exact congrArg (fun f => values.foldl f out) (funext fun out => funext fun v => addValue_eq out _ _)

theorem addValue_mem {values : List IndexValue} {value : CStr} {priority : UInt32}
    {v : IndexValue} :
    v ∈ addValue values value priority ↔ v = ⟨priority, value⟩ ∨ v ∈ values := by
  rw [addValue_eq, List.mem_orderedInsert]

theorem addValue_ne_nil (values : List IndexValue) (value : CStr) (priority : UInt32) :
    addValue values value priority ≠ [] :=
  List.ne_nil_of_mem (addValue_mem.mpr (.inl rfl))

theorem addValues_eq_nil {values : List IndexValue} : addValues [] values = [] ↔ values = [] := by
  rw [addValues_eq]
  refine ⟨?_, ?_⟩
  · intro h
    have := Sorting.insertAll_perm (r := ByPriority) [] values
    rw [h, List.append_nil] at this
    exact this.symm.eq_nil
  · rintro rfl
    rfl

/-! ## The shape of the tree -/

/-- A string depmod accepts and C can hold. -/
def Clean (s : CStr) : Prop := ∀ c ∈ s, c ≠ 0 ∧ c < INDEX_CHILDMAX

instance : DecidablePred Clean := fun s =>
  List.decidableBAll (fun c => c ≠ 0 ∧ c < INDEX_CHILDMAX) s

/-- The node has values or children: all but the root do. -/
def Used : IndexNode → Prop
  | .null => True
  | .node d _ => d.values ≠ [] ∨ indexHaschildren d = true

/-- What the writer relies on at one node. -/
structure NodeOk (d : NodeData) (children : UInt8 → IndexNode) : Prop where
  pfx : Clean d.pfx
  values : ∀ v ∈ d.values, Clean v.value
  /-- `first` and `last` bound the children. -/
  range : ∀ c, children c ≠ .null → d.first ≤ c ∧ c ≤ d.last
  /-- Either there are none, or the bounds are characters. -/
  bounds : (d.first = INDEX_CHILDMAX ∧ d.last = 0) ∨
    (0 < d.first ∧ d.first ≤ d.last ∧ d.last < INDEX_CHILDMAX)
  used : ∀ c, Used (children c)

/-- `NodeOk` at every node. -/
def Ok : IndexNode → Prop
  | .null => True
  | .node d children => NodeOk d children ∧ ∀ c, Ok (children c)

theorem Ok.node {d : NodeData} {children : UInt8 → IndexNode} (h : Ok (.node d children)) :
    NodeOk d children := h.1

theorem Ok.child {d : NodeData} {children : UInt8 → IndexNode} (h : Ok (.node d children))
    (c : UInt8) : Ok (children c) := h.2 c

theorem indexCreate_ok : Ok indexCreate :=
  ⟨⟨by simp [Clean], by simp, fun c h => absurd rfl h, .inl ⟨rfl, rfl⟩, fun _ => trivial⟩,
    fun _ => trivial⟩

/-- Every character that has a child is a bounded one. -/
theorem NodeOk.bounds_of_child {d : NodeData} {children : UInt8 → IndexNode} (h : NodeOk d children)
    {c : UInt8} (hc : children c ≠ .null) :
    0 < d.first ∧ d.first ≤ d.last ∧ d.last < INDEX_CHILDMAX := by
  rcases h.bounds with ⟨hf, hl⟩ | h'
  · obtain ⟨h1, h2⟩ := h.range c hc
    rw [hf] at h1
    rw [hl] at h2
    exact absurd (UInt8.le_trans h1 h2) (by decide)
  · exact h'

theorem addChild_ok {d : NodeData} {children : UInt8 → IndexNode} {c : UInt8} {rest value : CStr}
    (priority : UInt32) (h : Ok (.node d children)) (hkey : Clean (c :: rest)) (hv : Clean value) :
    Ok (addChild d children c rest value priority) ∧
      Used (addChild d children c rest value priority) := by
  obtain ⟨hc0, hc⟩ := hkey c (List.mem_cons_self ..)
  have hc0' : 0 < c := by simpa [UInt8.pos_iff_ne_zero] using hc0
  have hleaf : Ok (.node ⟨rest, (indexAddValue [] value priority).1, INDEX_CHILDMAX, 0, 0, 0⟩
      noChildren) := by
    refine ⟨⟨fun x hx => hkey x (List.mem_cons_of_mem _ hx), ?_, fun _ hn => absurd rfl hn,
      .inl ⟨rfl, rfl⟩, fun _ => trivial⟩, fun _ => trivial⟩
    intro v hmem
    rcases addValue_mem.mp hmem with rfl | hmem
    · exact hv
    · exact absurd hmem (by simp)
  -- the bounds are widened just enough for `c`
  have hbounds : 0 < (if c < d.first then c else d.first) ∧
      (if c < d.first then c else d.first) ≤ c ∧ c ≤ (if d.last < c then c else d.last) ∧
      (if d.last < c then c else d.last) < INDEX_CHILDMAX := by
    rcases h.node.bounds with ⟨hf, hl⟩ | ⟨h0, hfl, hl⟩
    · rw [hf, hl, if_pos hc, if_pos hc0']
      exact ⟨hc0', UInt8.le_refl _, UInt8.le_refl _, hc⟩
    · refine ⟨?_, ?_, ?_, ?_⟩
      · split
        · exact hc0'
        · exact h0
      · split
        · exact UInt8.le_refl _
        · next hn => exact UInt8.not_lt.mp hn
      · split
        · exact UInt8.le_refl _
        · next hn => exact UInt8.not_lt.mp hn
      · split
        · exact hc
        · exact hl
  obtain ⟨hb1, hb2, hb3, hb4⟩ := hbounds
  refine ⟨⟨⟨h.node.pfx, h.node.values, ?_, .inr ⟨hb1, UInt8.le_trans hb2 hb3, hb4⟩, ?_⟩, ?_⟩, ?_⟩
  · rw [Function.forall_update_iff children (fun x t => t ≠ .null → _ ≤ x ∧ x ≤ _)]
    refine ⟨fun _ => ⟨hb2, hb3⟩, fun x _ hx => ?_⟩
    obtain ⟨h1, h2⟩ := h.node.range x hx
    refine ⟨?_, ?_⟩
    · show (if c < d.first then c else d.first) ≤ x
      split
      · next hlt => exact UInt8.le_trans (UInt8.le_of_lt hlt) h1
      · exact h1
    · show x ≤ (if d.last < c then c else d.last)
      split
      · next hlt => exact UInt8.le_trans h2 (UInt8.le_of_lt hlt)
      · exact h2
  · rw [Function.forall_update_iff children (fun _ t => Used t)]
    exact ⟨.inl (addValue_ne_nil _ _ _), fun x _ => h.node.used x⟩
  · rw [Function.forall_update_iff children (fun _ t => Ok t)]
    exact ⟨hleaf, fun x _ => h.child x⟩
  · refine .inr ?_
    simpa [indexHaschildren] using UInt8.lt_of_le_of_lt hb2 hc

theorem splitNode_ok {d : NodeData} {children : UInt8 → IndexNode} {common : CStr} {ch : UInt8}
    {after : CStr} (hpfx : d.pfx = common ++ ch :: after) (h : Ok (.node d children))
    (hused : Used (.node d children)) :
    Ok (splitNode d children common ch after) ∧ Used (splitNode d children common ch after) := by
  have hclean := h.node.pfx
  rw [hpfx] at hclean
  obtain ⟨hch0, hch⟩ := hclean ch (by simp)
  have hch0' : 0 < ch := by simpa [UInt8.pos_iff_ne_zero] using hch0
  refine ⟨⟨⟨fun x hx => hclean x (List.mem_append_left _ hx), by simp, ?_,
    .inr ⟨hch0', UInt8.le_refl _, hch⟩, ?_⟩, ?_⟩, .inr (by simpa [indexHaschildren] using hch)⟩
  · rw [Function.forall_update_iff noChildren (fun x t => t ≠ .null → _ ≤ x ∧ x ≤ _)]
    exact ⟨fun _ => ⟨UInt8.le_refl _, UInt8.le_refl _⟩, fun x _ hx => absurd rfl hx⟩
  · rw [Function.forall_update_iff noChildren (fun _ t => Used t)]
    exact ⟨hused, fun _ _ => trivial⟩
  · rw [Function.forall_update_iff noChildren (fun _ t => Ok t)]
    refine ⟨⟨⟨?_, h.node.values, h.node.range, h.node.bounds, h.node.used⟩, h.child⟩,
      fun _ _ => trivial⟩
    exact fun y hy => hclean y (by simp [hy])

/-- The root alone may be unused, and it has no prefix. -/
def Rooted : IndexNode → Prop
  | .null => False
  | .node d children => d.pfx = [] ∨ Used (.node d children)

/-- **Insertion keeps the shape.** -/
theorem Inserted.ok {value : CStr} {priority : UInt32} {t t' : IndexNode} {key : CStr}
    (h : Inserted value priority t key t') (hk : Clean key) (hv : Clean value) (hok : Ok t)
    (hroot : Rooted t) : Ok t' ∧ Used t' := by
  induction h with
  | here d children =>
    refine ⟨⟨⟨hok.node.pfx, ?_, hok.node.range, hok.node.bounds, hok.node.used⟩, hok.child⟩,
      .inl (addValue_ne_nil _ _ _)⟩
    intro v hmem
    rcases addValue_mem.mp hmem with rfl | hmem
    · exact hv
    · exact hok.node.values v hmem
  | grow d children c rest hnull =>
    exact addChild_ok priority hok (fun x hx => hk x (List.mem_append_right _ hx)) hv
  | down d children c rest child hchild _ ih =>
    have hne : children c ≠ .null := fun he => by
      rw [he] at hchild
      exact absurd hchild (by simp [IndexNode.isNull])
    -- below the root every node is used
    have hrooted : Rooted (children c) := by
      cases hch : children c with
      | null => exact absurd hch hne
      | node d' children' =>
        have := hok.node.used c
        rw [hch] at this
        exact .inr this
    obtain ⟨hok', hused'⟩ := ih (fun x hx => hk x (by simp [hx])) (hok.child c) hrooted
    have hfirst := hok.node.bounds_of_child hne
    refine ⟨⟨⟨hok.node.pfx, hok.node.values, ?_, hok.node.bounds, ?_⟩, ?_⟩, .inr ?_⟩
    · rw [Function.forall_update_iff children (fun x t => t ≠ .null → d.first ≤ x ∧ x ≤ d.last)]
      exact ⟨fun _ => hok.node.range c hne, fun x _ => hok.node.range x⟩
    · rw [Function.forall_update_iff children (fun _ t => Used t)]
      exact ⟨hused', fun x _ => hok.node.used x⟩
    · rw [Function.forall_update_iff children (fun _ t => Ok t)]
      exact ⟨hok', fun x _ => hok.child x⟩
    · simpa [indexHaschildren] using UInt8.lt_of_le_of_lt hfirst.2.1 hfirst.2.2
  | split d children common ch after key t hpfx _ ih =>
    have hused : Used (.node d children) := hroot.resolve_left (fun he => by
      rw [he] at hpfx
      exact absurd hpfx (by simp))
    obtain ⟨hok', hused'⟩ := splitNode_ok hpfx hok hused
    exact ih hk hok' (.inr hused')

/-! ## Sequences of insertions -/

/-- The arguments of one call of `index_insert`. -/
structure Entry where
  key : CStr
  value : CStr
  priority : UInt32
  deriving DecidableEq, Repr

/-- Key and value are strings `index__checkstring` lets through. -/
def Entry.Clean (e : Entry) : Prop := Index.Clean e.key ∧ Index.Clean e.value

instance : DecidablePred Entry.Clean := fun e =>
  inferInstanceAs (Decidable (Index.Clean e.key ∧ Index.Clean e.value))

/-- Call `index_insert` for one entry after the other. -/
def insertEntries : IndexNode → List Entry → Except Fault IndexNode
  | root, [] => .ok root
  | root, e :: es => do
    let (root, _) ← indexInsert root e.key e.value e.priority
    insertEntries root es

/-- The values entered under a key, in order. -/
def entered (es : List Entry) (key : CStr) : List IndexValue :=
  (es.filter (fun e => e.key = key)).map (fun e => ⟨e.priority, e.value⟩)

/-- A tree that contains the given entries. -/
structure Contains (root : IndexNode) (es : List Entry) : Prop where
  ok : Ok root
  rooted : Rooted root
  lookup : ∀ q, root.lookup q = addValues [] (entered es q)

theorem indexCreate_contains : Contains indexCreate [] where
  ok := indexCreate_ok
  rooted := .inl rfl
  lookup := by
    intro q
    unfold indexCreate
    rw [lookup_leaf]
    split <;> rfl

theorem checkstring_of_clean {s : CStr} (h : Clean s) : indexCheckstring s = true := by
  unfold indexCheckstring
  rw [List.all_eq_true]
  intro c hc
  simpa using (h c hc).2

theorem Rooted.isNull {t : IndexNode} (h : Rooted t) : t.isNull = false := by
  cases t with
  | null => exact absurd h (by simp [Rooted])
  | node _ _ => rfl

theorem Used.rooted {t : IndexNode} (h : Used t) (hn : t.isNull = false) : Rooted t := by
  cases t with
  | null => exact absurd hn (by simp [IndexNode.isNull])
  | node _ _ => exact .inr h

theorem Inserted.isNull {value : CStr} {priority : UInt32} {t t' : IndexNode} {key : CStr}
    (h : Inserted value priority t key t') : t'.isNull = false := by
  induction h with
  | here => rfl
  | grow => rfl
  | down => rfl
  | split _ _ _ _ _ _ _ _ _ ih => exact ih

/-- One more call. -/
theorem Contains.insert {root : IndexNode} {es : List Entry} (h : Contains root es) {e : Entry}
    (he : e.Clean) :
    ∃ root' duplicate, indexInsert root e.key e.value e.priority = .ok (root', duplicate) ∧
      Contains root' (es ++ [e]) := by
  have hins := insertLoop_inserted e.value e.priority root e.key h.rooted.isNull
  obtain ⟨hok, hused⟩ := hins.ok he.1 he.2 h.ok h.rooted
  refine ⟨_, (insertLoop root e.key e.value e.priority).2, ?_, hok, hused.rooted hins.isNull,
    fun q => ?_⟩
  · unfold indexInsert
    rw [checkstring_of_clean he.1, checkstring_of_clean he.2]
    rfl
  · rw [hins.lookup, h.lookup, h.lookup]
    by_cases hq : q = e.key
    · simp [hq, entered, addValues]
    · have : e.key ≠ q := fun h => hq h.symm
      simp [hq, this, entered]

/-- **Every sequence of insertions of clean strings builds a tree with these entries.** -/
theorem insertEntries_contains {es : List Entry} (hes : ∀ e ∈ es, e.Clean) :
    ∃ root, insertEntries indexCreate es = .ok root ∧ Contains root es := by
  have key : ∀ (es done : List Entry) (root : IndexNode), (∀ e ∈ es, e.Clean) →
      Contains root done → ∃ root', insertEntries root es = .ok root' ∧
        Contains root' (done ++ es) := by
    intro es
    induction es with
    | nil => intro done root _ h; exact ⟨root, rfl, by simpa using h⟩
    | cons e es ih =>
      intro done root hes h
      obtain ⟨root', dup, hins, h'⟩ := h.insert (hes e (List.mem_cons_self ..))
      obtain ⟨root'', hrun, h''⟩ := ih (done ++ [e]) root'
        (fun x hx => hes x (List.mem_cons_of_mem _ hx)) h'
      refine ⟨root'', ?_, by simpa using h''⟩
      unfold insertEntries
      rw [hins]
      exact hrun
  simpa using key es [] indexCreate hes indexCreate_contains

end Kmod.Index
