import Kmod.Index.Trie

/-!
# The shape of an index does not depend on the order of insertion

depmod fills its indexes in whatever order its hash tables yield, and nodes are
split and added at different times in different orders. The tree they end in is
the same: a node stands at the root, at every key and wherever two keys part, and
nowhere else, and its `first` and `last` are the outermost characters that have a
child (`Canonical`). A tree of this shape is determined by what `lookup` finds in
it (`Canonical.eq_of_lookup_eq`), and what it finds is determined by the entries
up to the order of values of equal priority.
-/

namespace Kmod.Index

open Kmod.Lists Sorting

/-! ## The shape -/

/-- `first` and `last` are the least and the greatest character that has a child. -/
structure Tight (d : NodeData) (children : UInt8 → IndexNode) : Prop where
  range : ∀ c, children c ≠ .null → d.first ≤ c ∧ c ≤ d.last
  reached : (d.first = INDEX_CHILDMAX ∧ d.last = 0 ∧ ∀ c, children c = .null) ∨
    (children d.first ≠ .null ∧ children d.last ≠ .null)

/-- The node stands at a key or where two keys part. -/
def Parts : IndexNode → Prop
  | .null => True
  | .node d children =>
    d.values ≠ [] ∨ ∃ a b, a ≠ b ∧ children a ≠ .null ∧ children b ≠ .null

/-- **The shape**: at every node the bounds are tight, and below the root every node is needed. -/
def Canonical : IndexNode → Prop
  | .null => True
  | .node d children =>
    Tight d children ∧ (d.size = 0 ∧ d.total = 0) ∧ ∀ c, Canonical (children c) ∧ Parts (children c)

/-- The root has no prefix. -/
def AtRoot : IndexNode → Prop
  | .null => False
  | .node d _ => d.pfx = []

theorem indexCreate_canonical : Canonical indexCreate :=
  ⟨⟨fun _ h => absurd rfl h, .inl ⟨rfl, rfl, fun _ => rfl⟩⟩, ⟨rfl, rfl⟩,
    fun _ => ⟨trivial, trivial⟩⟩

/-- The bounds are determined by where the children are. -/
theorem Tight.bounds_eq {d d' : NodeData} {children : UInt8 → IndexNode} (h : Tight d children)
    (h' : Tight d' children) : d.first = d'.first ∧ d.last = d'.last := by
  rcases h.reached with ⟨hf, hl, hnull⟩ | ⟨hf, hl⟩
  · rcases h'.reached with ⟨hf', hl', _⟩ | ⟨hf', _⟩
    · exact ⟨hf.trans hf'.symm, hl.trans hl'.symm⟩
    · exact absurd (hnull _) hf'
  · rcases h'.reached with ⟨_, _, hnull'⟩ | ⟨hf', hl'⟩
    · exact absurd (hnull' _) hf
    · exact ⟨UInt8.le_antisymm (h.range _ hf').1 (h'.range _ hf).1,
        UInt8.le_antisymm (h'.range _ hl).2 (h.range _ hl').2⟩

/-! ## A tree of this shape is what it contains -/

/-- There is a key below every node. -/
theorem Canonical.exists_key {t : IndexNode} :
    Canonical t → Parts t → t ≠ .null → ∃ q, t.lookup q ≠ [] := by
  induction t with
  | null => intro _ _ hne; exact absurd rfl hne
  | node d children ih =>
    intro hcan hparts _
    rcases hparts with hv | ⟨a, _, _, ha, _⟩
    · refine ⟨d.pfx, ?_⟩
      rw [lookup_node, descend_self]
      exact hv
    · obtain ⟨q, hq⟩ := ih a (hcan.2.2 a).1 (hcan.2.2 a).2 ha
      refine ⟨d.pfx ++ a :: q, ?_⟩
      rw [lookup_node, descend_below]
      exact hq

/-- A node that is needed has a key that does not go on with a given character. -/
theorem Canonical.exists_key_away {d : NodeData} {children : UInt8 → IndexNode}
    (hcan : Canonical (.node d children)) (hparts : Parts (.node d children)) (c : UInt8) :
    ∃ q, (IndexNode.node d children).lookup q ≠ [] ∧ ¬ (d.pfx ++ [c]) <+: q := by
  rcases hparts with hv | ⟨a, b, hab, ha, hb⟩
  · refine ⟨d.pfx, ?_, ?_⟩
    · rw [lookup_node, descend_self]
      exact hv
    · intro hp
      have hlen := hp.length_le
      rw [List.length_append, List.length_singleton] at hlen
      omega
  · -- one of the two children is not the one for `c`
    have hother : ∃ x, x ≠ c ∧ children x ≠ .null := by
      by_cases hac : a = c
      · exact ⟨b, fun hbc => hab (hac.trans hbc.symm), hb⟩
      · exact ⟨a, hac, ha⟩
    obtain ⟨x, hx, hnull⟩ := hother
    obtain ⟨q, hq⟩ := (hcan.2.2 x).1.exists_key (hcan.2.2 x).2 hnull
    refine ⟨d.pfx ++ x :: q, ?_, ?_⟩
    · rw [lookup_node, descend_below]
      exact hq
    · rw [List.prefix_append_right_inj]
      intro hp
      exact hx (List.cons_prefix_cons.mp hp).1.symm

/-- The keys of a node begin with its prefix. -/
theorem pfx_of_lookup {d : NodeData} {children : UInt8 → IndexNode} {q : CStr}
    (h : (IndexNode.node d children).lookup q ≠ []) : d.pfx <+: q := by
  by_contra hp
  rw [lookup_node, descend_eq_nil hp] at h
  exact h rfl

/-- A prefix cannot be shorter than the keys allow. -/
theorem Canonical.pfx_prefix {d d' : NodeData} {children children' : UInt8 → IndexNode}
    (hcan : Canonical (.node d children)) (hparts : Parts (.node d children))
    (h : ∀ q, (IndexNode.node d children).lookup q = (IndexNode.node d' children').lookup q)
    (hle : d.pfx <+: d'.pfx) : d.pfx = d'.pfx := by
  obtain ⟨rest, hrest⟩ := hle
  cases rest with
  | nil => rw [← hrest, List.append_nil]
  | cons c rest =>
    obtain ⟨q, hq, hnot⟩ := hcan.exists_key_away hparts c
    rw [h] at hq
    have hp : d.pfx ++ c :: rest <+: q := hrest ▸ pfx_of_lookup hq
    exact absurd (List.IsPrefix.trans ⟨rest, by simp⟩ hp) hnot

theorem Canonical.pfx_eq {d d' : NodeData} {children children' : UInt8 → IndexNode}
    (hcan : Canonical (.node d children)) (hparts : Parts (.node d children))
    (hcan' : Canonical (.node d' children')) (hparts' : Parts (.node d' children'))
    (h : ∀ q, (IndexNode.node d children).lookup q = (IndexNode.node d' children').lookup q) :
    d.pfx = d'.pfx := by
  -- both are prefixes of one key
  obtain ⟨q, hq⟩ := hcan.exists_key hparts (by simp)
  have hp := pfx_of_lookup hq
  rw [h] at hq
  have hp' := pfx_of_lookup hq
  rcases List.prefix_or_prefix_of_prefix hp hp' with hle | hle
  · exact hcan.pfx_prefix hparts h hle
  · exact (hcan'.pfx_prefix hparts' (fun q => (h q).symm) hle).symm

/-- Nodes with the same prefix are equal if their children are. -/
theorem Canonical.node_eq {d d' : NodeData} {children children' : UInt8 → IndexNode}
    (hcan : Canonical (.node d children)) (hcan' : Canonical (.node d' children'))
    (hpfx : d.pfx = d'.pfx)
    (h : ∀ q, (IndexNode.node d children).lookup q = (IndexNode.node d' children').lookup q)
    (hchildren : ∀ c, (∀ q, (children c).lookup q = (children' c).lookup q) →
      children c = children' c) :
    IndexNode.node d children = .node d' children' := by
  have hvalues : d.values = d'.values := by
    have := h d.pfx
    rw [lookup_node, lookup_node, ← hpfx, descend_self, descend_self] at this
    exact this
  have hbelow : children = children' := by
    funext c
    refine hchildren c (fun q => ?_)
    have := h (d.pfx ++ c :: q)
    rw [lookup_node, lookup_node, ← hpfx, descend_below, descend_below] at this
    exact this
  subst hbelow
  obtain ⟨hfirst, hlast⟩ := hcan.1.bounds_eq hcan'.1
  obtain ⟨pfx, values, first, last, size, total⟩ := d
  obtain ⟨pfx', values', first', last', size', total'⟩ := d'
  obtain ⟨hs, ht⟩ := hcan.2.1
  obtain ⟨hs', ht'⟩ := hcan'.2.1
  simp only at hpfx hvalues hfirst hlast hs ht hs' ht'
  subst hpfx hvalues hfirst hlast hs ht hs' ht'
  rfl

/-- **A canonical tree is determined by its contents.** -/
theorem Canonical.eq_of_lookup_eq {t : IndexNode} :
    Canonical t → Parts t → ∀ {t' : IndexNode}, Canonical t' → Parts t' →
      (∀ q, t.lookup q = t'.lookup q) → t = t' := by
  induction t with
  | null =>
    intro _ _ t' hcan' hparts' h
    by_contra hne
    obtain ⟨q, hq⟩ := hcan'.exists_key hparts' (Ne.symm hne)
    exact hq (h q).symm
  | node d children ih =>
    intro hcan hparts t' hcan' hparts' h
    cases t' with
    | null =>
      obtain ⟨q, hq⟩ := hcan.exists_key hparts (by simp)
      exact absurd (h q) hq
    | node d' children' =>
      refine hcan.node_eq hcan' (hcan.pfx_eq hparts hcan' hparts' h) h (fun c hc => ?_)
      exact ih c (hcan.2.2 c).1 (hcan.2.2 c).2 (hcan'.2.2 c).1 (hcan'.2.2 c).2 hc

/-- The root needs no reason to be there. -/
theorem Canonical.root_eq {t t' : IndexNode} (hcan : Canonical t) (hroot : AtRoot t)
    (hcan' : Canonical t') (hroot' : AtRoot t') (h : ∀ q, t.lookup q = t'.lookup q) : t = t' := by
  cases t with
  | null => exact absurd hroot (by simp [AtRoot])
  | node d children =>
    cases t' with
    | null => exact absurd hroot' (by simp [AtRoot])
    | node d' children' =>
      refine hcan.node_eq hcan' (hroot.trans hroot'.symm) h (fun c hc => ?_)
      exact (hcan.2.2 c).1.eq_of_lookup_eq (hcan.2.2 c).2 (hcan'.2.2 c).1 (hcan'.2.2 c).2 hc

/-! ## Insertion keeps the shape -/

theorem isNull_iff {t : IndexNode} : t.isNull = false ↔ t ≠ .null := by
  cases t with
  | null => simp [IndexNode.isNull]
  | node _ _ => simp [IndexNode.isNull]

/-- Children stay where they are when one is put in or replaced. -/
theorem update_ne_null {children : UInt8 → IndexNode} {c x : UInt8} {child : IndexNode}
    (hchild : child ≠ .null) (hx : children x ≠ .null) :
    Function.update children c child x ≠ .null := by
  by_cases hxc : x = c
  · rw [hxc, Function.update_self]
    exact hchild
  · rw [Function.update_of_ne hxc]
    exact hx

/-- The bounds stay tight when a child is added. -/
theorem Tight.addChild {d : NodeData} {children : UInt8 → IndexNode} (h : Tight d children)
    {c : UInt8} (hc : c < INDEX_CHILDMAX) {child : IndexNode} (hchild : child ≠ .null) :
    Tight
      { d with
        first := if c < d.first then c else d.first
        last := if d.last < c then c else d.last }
      (Function.update children c child) where
  range := by
    intro x hx
    by_cases hxc : x = c
    · subst hxc
      refine ⟨?_, ?_⟩
      · show (if x < d.first then x else d.first) ≤ x
        split
        · exact UInt8.le_refl _
        · next hn => exact UInt8.not_lt.mp hn
      · show x ≤ (if d.last < x then x else d.last)
        split
        · exact UInt8.le_refl _
        · next hn => exact UInt8.not_lt.mp hn
    · rw [Function.update_of_ne hxc] at hx
      obtain ⟨h1, h2⟩ := h.range x hx
      refine ⟨?_, ?_⟩
      · show (if c < d.first then c else d.first) ≤ x
        split
        · next hlt => exact UInt8.le_trans (UInt8.le_of_lt hlt) h1
        · exact h1
      · show x ≤ (if d.last < c then c else d.last)
        split
        · next hlt => exact UInt8.le_trans h2 (UInt8.le_of_lt hlt)
        · exact h2
  reached := by
    have hself : Function.update children c child c ≠ .null := by
      rw [Function.update_self]
      exact hchild
    refine .inr ⟨?_, ?_⟩
    · show Function.update children c child (if c < d.first then c else d.first) ≠ .null
      split
      · exact hself
      · next hn =>
        rcases h.reached with ⟨hf, _, _⟩ | ⟨hf, _⟩
        · rw [hf] at hn
          exact absurd hc hn
        · exact update_ne_null hchild hf
    · show Function.update children c child (if d.last < c then c else d.last) ≠ .null
      split
      · exact hself
      · next hn =>
        rcases h.reached with ⟨_, hl, _⟩ | ⟨_, hl⟩
        · -- only the character zero is not above the bound of a node without children
          rw [hl] at hn ⊢
          have hz : c = 0 := UInt8.le_antisymm (UInt8.not_lt.mp hn) (UInt8.zero_le)
          rw [← hz]
          exact hself
        · exact update_ne_null hchild hl

theorem addChild_canonical {d : NodeData} {children : UInt8 → IndexNode} (priority : UInt32)
    (rest value : CStr) (h : Canonical (.node d children)) {c : UInt8} (hc : c < INDEX_CHILDMAX) :
    Canonical (addChild d children c rest value priority) := by
  refine ⟨h.1.addChild hc (by simp), h.2.1, ?_⟩
  rw [Function.forall_update_iff children (fun _ t => Canonical t ∧ Parts t)]
  refine ⟨⟨⟨⟨fun _ hn => absurd rfl hn, .inl ⟨rfl, rfl, fun _ => rfl⟩⟩, ⟨rfl, rfl⟩,
    fun _ => ⟨trivial, trivial⟩⟩, .inl (addValue_ne_nil _ _ _)⟩, fun x _ => h.2.2 x⟩

/-- The node put above one that is split. -/
theorem split_canonical {d : NodeData} {children : UInt8 → IndexNode} (values : List IndexValue)
    (common : CStr) (ch : UInt8) (after : CStr) (h : Canonical (.node d children))
    (hparts : Parts (.node d children)) :
    Canonical (.node ⟨common, values, ch, ch, 0, 0⟩
      (Function.update noChildren ch (.node { d with pfx := after } children))) := by
  refine ⟨⟨fun x hx => ?_, .inr ?_⟩, ⟨rfl, rfl⟩, ?_⟩
  · by_cases hxc : x = ch
    · rw [hxc]
      exact ⟨UInt8.le_refl _, UInt8.le_refl _⟩
    · rw [Function.update_of_ne hxc] at hx
      exact absurd rfl hx
  · simp
  · rw [Function.forall_update_iff noChildren (fun _ t => Canonical t ∧ Parts t)]
    exact ⟨⟨⟨⟨h.1.range, h.1.reached⟩, h.2.1, h.2.2⟩, hparts⟩, fun _ _ => ⟨trivial, trivial⟩⟩

/-- A node that is needed stays so when a child is put in or replaced. -/
theorem Parts.update {d d' : NodeData} {children : UInt8 → IndexNode}
    (h : Parts (.node d children)) (hvalues : d'.values = d.values) {child : IndexNode}
    (hchild : child ≠ .null) (c : UInt8) : Parts (.node d' (Function.update children c child)) := by
  rcases h with hv | ⟨a, b, hab, ha, hb⟩
  · exact .inl (hvalues ▸ hv)
  · exact .inr ⟨a, b, hab, update_ne_null hchild ha, update_ne_null hchild hb⟩

/-- A child that is replaced: children are where they were. -/
theorem updateChild_canonical {d : NodeData} {children : UInt8 → IndexNode} {c : UInt8}
    (h : Canonical (.node d children)) (hne : children c ≠ .null) {child : IndexNode}
    (hchild : child ≠ .null) (hcan : Canonical child) (hparts : Parts child) :
    Canonical (.node d (Function.update children c child)) := by
  refine ⟨⟨fun x hx => h.1.range x (fun hnull => hx ?_), ?_⟩, h.2.1, ?_⟩
  · have hxc : x ≠ c := by
      rintro rfl
      exact hne hnull
    rw [Function.update_of_ne hxc, hnull]
  · rcases h.1.reached with ⟨_, _, hnull⟩ | ⟨hf, hl⟩
    · exact absurd (hnull c) hne
    · exact .inr ⟨update_ne_null hchild hf, update_ne_null hchild hl⟩
  · rw [Function.forall_update_iff children (fun _ t => Canonical t ∧ Parts t)]
    exact ⟨⟨hcan, hparts⟩, fun x _ => h.2.2 x⟩

/-- **One insertion keeps the shape.** -/
theorem insertLoop_canonical (value : CStr) (priority : UInt32) (t : IndexNode) :
    ∀ key : CStr, indexCheckstring key = true → Canonical t → t ≠ .null → AtRoot t ∨ Parts t →
      Canonical (insertLoop t key value priority).1 ∧
        (Parts t → Parts (insertLoop t key value priority).1) ∧
        (AtRoot t → AtRoot (insertLoop t key value priority).1) := by
  induction t with
  | null => intro _ _ _ hne; exact absurd rfl hne
  | node d children ih =>
    intro key hkey hcan _ hwhy
    have hchar : ∀ c ∈ key, c < INDEX_CHILDMAX := fun c hc => by
      simpa using List.all_eq_true.mp hkey c hc
    -- a node with a prefix is not the root
    have hinner : ∀ {common ch after}, d.pfx = common ++ ch :: after →
        ¬ AtRoot (.node d children) := by
      intro common ch after hpfx hroot
      have hroot : d.pfx = [] := hroot
      rw [hroot] at hpfx
      exact absurd hpfx (by simp)
    have hround := insertLoop_round value priority d children key
    generalize (insertLoop (.node d children) key value priority).1 = t at hround ⊢
    cases hround with
    | here =>
      refine ⟨⟨⟨hcan.1.range, hcan.1.reached⟩, hcan.2.1, hcan.2.2⟩, ?_, fun hroot => hroot⟩
      exact fun _ => .inl (addValue_ne_nil _ _ _)
    | grow c rest hnull =>
      refine ⟨addChild_canonical priority rest value hcan (hchar c (by simp)), ?_,
        fun hroot => hroot⟩
      exact fun hparts => hparts.update rfl (by simp) c
    | down c rest hchild =>
      have hne := isNull_iff.mp hchild
      have hrest : indexCheckstring rest = true := by
        unfold indexCheckstring at hkey ⊢
        rw [List.all_append, Bool.and_eq_true, List.all_cons, Bool.and_eq_true] at hkey
        exact hkey.2.2
      obtain ⟨hcan', hparts', _⟩ := ih c rest hrest (hcan.2.2 c).1 hne (.inr (hcan.2.2 c).2)
      have hne' : (insertLoop (children c) rest value priority).1 ≠ .null :=
        isNull_iff.mp (insertLoop_inserted value priority _ rest hchild).isNull
      refine ⟨updateChild_canonical hcan hne hne' hcan' (hparts' (hcan.2.2 c).2), ?_,
        fun hroot => hroot⟩
      exact fun hparts => hparts.update rfl hne' c
    | splitHere _ ch after hpfx =>
      refine ⟨split_canonical _ _ ch after hcan (hwhy.resolve_left (hinner hpfx)), ?_,
        fun hroot => absurd hroot (hinner hpfx)⟩
      exact fun _ => .inl (addValue_ne_nil _ _ _)
    | splitGrow common ch after c rest hpfx hne =>
      refine ⟨addChild_canonical priority rest value
        (split_canonical _ _ ch after hcan (hwhy.resolve_left (hinner hpfx))) (hchar c (by simp)),
        ?_, fun hroot => absurd hroot (hinner hpfx)⟩
      -- the old node and the new leaf
      refine fun _ => .inr ⟨c, ch, hne, by simp, ?_⟩
      rw [Function.update_of_ne (Ne.symm hne), Function.update_self]
      simp

/-! ## Sequences of insertions -/

/-- A canonical tree for the given entries. -/
structure Holds (root : IndexNode) (es : List Entry) : Prop where
  canonical : Canonical root
  atRoot : AtRoot root
  lookup : ∀ q, root.lookup q = addValues [] (entered es q)

theorem Holds.insert {root root' : IndexNode} {es : List Entry} {e : Entry} {dup : Int}
    (h : Holds root es) (hins : indexInsert root e.key e.value e.priority = .ok (root', dup)) :
    Holds root' (es ++ [e]) := by
  have hne : root ≠ .null := by
    rintro rfl
    exact h.atRoot
  unfold indexInsert at hins
  split at hins
  · next hcheck =>
    rw [Bool.and_eq_true] at hcheck
    obtain ⟨hcan, _, hroot⟩ := insertLoop_canonical e.value e.priority root e.key hcheck.1
      h.canonical hne (.inl h.atRoot)
    have hlook := (insertLoop_inserted e.value e.priority root e.key (isNull_iff.mpr hne)).lookup
    injection hins with hins
    rw [hins] at hcan hroot hlook
    refine ⟨hcan, hroot h.atRoot, fun q => ?_⟩
    rw [hlook, h.lookup, h.lookup]
    by_cases hq : q = e.key
    · simp [hq, entered, addValues]
    · have hne : e.key ≠ q := fun he => hq he.symm
      simp [hq, hne, entered]
  · exact absurd hins (by simp)

/-- **A run of insertions**: it ends the process at the first bad string, or builds the tree. -/
theorem insertEntries_holds (es : List Entry) :
    ∀ {done : List Entry} {root : IndexNode}, Holds root done →
      (∃ root', insertEntries root es = .ok root' ∧ Holds root' (done ++ es) ∧
        ∀ e ∈ es, indexCheckstring e.key && indexCheckstring e.value) ∨
      (insertEntries root es = .error .exited ∧
        ∃ e ∈ es, ¬ (indexCheckstring e.key && indexCheckstring e.value)) := by
  induction es with
  | nil =>
    intro done root h
    exact .inl ⟨root, rfl, by simpa using h, by simp⟩
  | cons e es ih =>
    intro done root h
    by_cases hcheck : (indexCheckstring e.key && indexCheckstring e.value) = true
    · have hins : indexInsert root e.key e.value e.priority
          = .ok (insertLoop root e.key e.value e.priority) := if_pos hcheck
      unfold insertEntries
      rw [hins]
      rcases ih (h.insert hins) with ⟨root', hrun, h', hall⟩ | ⟨hrun, x, hx, hbad⟩
      · refine .inl ⟨root', hrun, by simpa using h', ?_⟩
        intro x hx
        rcases List.mem_cons.mp hx with rfl | hx
        · exact hcheck
        · exact hall x hx
      · exact .inr ⟨hrun, x, List.mem_cons_of_mem _ hx, hbad⟩
    · refine .inr ⟨?_, e, List.mem_cons_self .., hcheck⟩
      unfold insertEntries indexInsert
      rw [if_neg hcheck]
      rfl

/-- The list of a key does not depend on the order either. -/
theorem addValues_perm {values values' : List IndexValue} (hperm : values.Perm values')
    (heq : ∀ v ∈ values, ∀ w ∈ values, v.priority = w.priority → v = w) :
    addValues [] values = addValues [] values' := by
  rw [addValues_eq, addValues_eq]
  have hleft := insertAll_perm (r := ByPriority) [] values
  have hright := insertAll_perm (r := ByPriority) [] values'
  rw [List.append_nil] at hleft hright
  refine List.Perm.eq_of_pairwise ?_ (insertAll_sorted List.Pairwise.nil _)
    (insertAll_sorted List.Pairwise.nil _) (hleft.trans (hperm.trans hright.symm))
  intro v w hv hw hle hge
  exact heq v (hleft.subset hv) w (hperm.symm.subset (hright.subset hw))
    (UInt32.le_antisymm hle hge)

/--
**Index files do not depend on the order of insertion.** If entries of equal key and
priority have equal values, two sequences that are permutations of each other lead
to the same bytes, or both end the process on a string that cannot be stored.
-/
theorem indexWrite_perm {es es' : List Entry} (hperm : es.Perm es')
    (heq : ∀ e ∈ es, ∀ f ∈ es, e.key = f.key → e.priority = f.priority → e.value = f.value) :
    (insertEntries indexCreate es).map indexWrite =
      (insertEntries indexCreate es').map indexWrite := by
  have hstart : Holds indexCreate [] :=
    ⟨indexCreate_canonical, rfl, indexCreate_contains.lookup⟩
  rcases insertEntries_holds es hstart with ⟨root, hrun, h, hall⟩ | ⟨hrun, e, he, hbad⟩
  · rcases insertEntries_holds es' hstart with ⟨root', hrun', h', _⟩ | ⟨_, e, he, hbad⟩
    · have hsame : root = root' := by
        refine h.canonical.root_eq h.atRoot h'.canonical h'.atRoot (fun q => ?_)
        rw [h.lookup, h'.lookup]
        refine addValues_perm ((hperm.filter _).map _) (fun v hv w hw hvw => ?_)
        obtain ⟨e, he, rfl⟩ := List.mem_map.mp hv
        obtain ⟨f, hf, rfl⟩ := List.mem_map.mp hw
        rw [List.mem_filter] at he hf
        have hkeys : e.key = f.key := by
          rw [of_decide_eq_true he.2, of_decide_eq_true hf.2]
        have hprio : e.priority = f.priority := hvw
        rw [hprio, heq e he.1 f hf.1 hkeys hprio]
      rw [hrun, hrun', hsame]
    · exact absurd (hall e (hperm.symm.subset he)) hbad
  · rcases insertEntries_holds es' hstart with ⟨_, _, _, hall⟩ | ⟨hrun', _⟩
    · exact absurd (hall e (hperm.subset he)) hbad
    · rw [hrun, hrun']

/-- Two keys that part behind a third one. -/
def partingEntries : List Entry :=
  [⟨cstr "abc", cstr "x", 0⟩, ⟨cstr "abd", cstr "y", 1⟩, ⟨cstr "a", cstr "z", 0⟩]

theorem indexWrite_perm_parting :
    (insertEntries indexCreate partingEntries).isOk = true ∧
      (insertEntries indexCreate partingEntries).map indexWrite
        = (insertEntries indexCreate partingEntries.reverse).map indexWrite :=
  ⟨by decide, indexWrite_perm (List.reverse_perm _).symm (by decide)⟩

end Kmod.Index
