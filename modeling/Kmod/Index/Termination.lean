import Kmod.Index.Read
import Kmod.Lib.Digraph
import Kmod.Lib.Fuel

/-!
# Whether a traversal ends

A file can pass `index_file_open` or `index_mm_open` and still have any bytes
behind its header. The traversals follow the offsets they find there. They end on
every file in which no node is below itself, but the readers do not check that:
an offset may lead back to a node that is being visited. In addition, the stream
reader accepts a range of children that ends at 255, over which a loop with a
counter of type `uint8_t` does not come to an end.

`traversals_end_iff` says that nothing else keeps a traversal from ending.
-/

namespace Kmod.Index

open Bytes Kmod.Fuel Kmod.Digraph Relation

/-! ## The graph of nodes -/

section Graph

variable {N : Type}

/-- The reader finds `y` as a child of `x`. -/
def Child (r : Reader N) (x y : N) : Prop :=
  ∃ ch, r.first x ≤ ch ∧ ch ≤ r.last x ∧ r.readchild x ch = .ok (some y)

/-- The loop over the children of a node does not end: its counter never passes `last`. -/
def Wraps (r : Reader N) (x : N) : Prop := r.last x = 255

/-- Among the nodes that can be reached from `x`, none is below itself and no range wraps. -/
def Sound (r : Reader N) (x : N) : Prop :=
  ∀ y, ReflTransGen (Child r) x y → ¬ OnCycle (Child r) y ∧ ¬ Wraps r y

/-- Among the nodes that can be reached from `x`, none is below itself. -/
def Loopless (r : Reader N) (x : N) : Prop :=
  ∀ y, ReflTransGen (Child r) x y → ¬ OnCycle (Child r) y

/-- The nodes that can be reached from `x` are finitely many. -/
def FiniteBelow (r : Reader N) (x : N) : Prop := {y | ReflTransGen (Child r) x y}.Finite

/-- **Induction on the nodes below a node**, towards the leaves. -/
theorem Sound.induction {r : Reader N} {x : N} (hs : Sound r x) (hfin : FiniteBelow r x)
    {P : N → Prop} (hstep : ∀ y, ¬ Wraps r y → (∀ z, Child r y z → P z) → P y) : P x := by
  have key := acyclic_induction (r := Child r) hfin (fun y hy => (hs y hy).1) (P := P)
    (fun y hy ih => hstep y (hs y hy).2 (fun z hz => ih z (ReflTransGen.tail hy hz) hz))
  exact key x .refl

theorem Sound.child {r : Reader N} {x y : N} (hs : Sound r x) (h : Child r x y) : Sound r y :=
  fun z hz => hs z (ReflTransGen.head h hz)

theorem FiniteBelow.child {r : Reader N} {x y : N} (hfin : FiniteBelow r x) (h : Child r x y) :
    FiniteBelow r y :=
  hfin.subset (fun _ hz => ReflTransGen.head h hz)

/-- A node that is not sound wraps, or has a child that is not sound. -/
theorem exists_unsound_child {r : Reader N} {x : N} (h : ¬ Sound r x) :
    Wraps r x ∨ ∃ y, Child r x y ∧ ¬ Sound r y := by
  unfold Sound at h
  push Not at h
  obtain ⟨y, hxy, hy⟩ := h
  rcases ReflTransGen.cases_head hxy with rfl | ⟨z, hxz, hzy⟩
  · by_cases hcyc : OnCycle (Child r) x
    · -- the node after `x` on the cycle reaches `x` again
      obtain ⟨z, hxz, hzx⟩ := TransGen.head'_iff.mp hcyc
      exact .inr ⟨z, hxz, fun hsound => (hsound x hzx).1 hcyc⟩
    · exact .inl (hy hcyc)
  · refine .inr ⟨z, hxz, fun hsound => ?_⟩
    exact (hsound y hzy).2 (hy (hsound y hzy).1)

end Graph

/-! ## Loops over characters -/

section Loop

variable {σ : Type}

/-- A loop whose bound is not 255 ends when each round does. -/
theorem forChars_ends {body : Nat → UInt8 → σ → Except Fault σ} {first last : UInt8}
    (hlast : last ≠ 255)
    (hbody : ∀ ch, first ≤ ch → ch ≤ last → ∀ s,
      Fuel.Ends .outOfFuel (fun fuel => body fuel ch s)) (s : σ) :
    Fuel.Ends .outOfFuel (fun fuel => forChars (body fuel) last fuel first s) := by
  have hlt : last.toNat < 255 := by
    have hne : last.toNat ≠ 255 := fun h => hlast (UInt8.toNat_inj.mp h)
    have := last.toNat_lt
    omega
  -- on the number of rounds that are left; the bodies keep the fuel of the whole loop
  have key : ∀ (n k : Nat) (ch : UInt8) (s : σ), first ≤ ch → last.toNat + 1 - ch.toNat = n →
      Fuel.Ends .outOfFuel (fun fuel => forChars (body (fuel + k)) last fuel ch s) := by
    intro n
    induction n with
    | zero =>
      intro k ch s _ hn
      have hgt : ¬ ch ≤ last := by
        rw [UInt8.le_iff_toNat_le]
        omega
      refine ends_succ ?_
      simp only [forChars, if_neg hgt]
      exact ends_ok s
    | succ n ih =>
      intro k ch s hfirst hn
      have hle : ch ≤ last := by
        rw [UInt8.le_iff_toNat_le]
        omega
      have hnext : (ch + 1).toNat = ch.toNat + 1 := by
        rw [UInt8.toNat_add, UInt8.toNat_one]
        rw [UInt8.le_iff_toNat_le] at hle
        omega
      have hfirst' : first ≤ ch + 1 := by
        rw [UInt8.le_iff_toNat_le] at hfirst ⊢
        omega
      refine ends_succ ?_
      simp only [forChars, if_pos hle, Nat.add_assoc]
      exact ((hbody ch hfirst hle s).add (1 + k)).bind
        (fun s' => ih (1 + k) (ch + 1) s' hfirst' (by omega))
  exact key _ 0 first s (UInt8.le_refl _) rfl

theorem forChars_quiet {body : UInt8 → σ → Except Fault σ}
    (hbody : ∀ ch s, Quiet .outOfFuel (body ch s)) (last : UInt8) (fuel : Nat) :
    ∀ ch s, Quiet .outOfFuel (forChars body last fuel ch s) := by
  induction fuel with
  | zero =>
    intro ch s
    unfold forChars
    split
    · exact quiet_stop
    · exact quiet_ok s
  | succ fuel ih =>
    intro ch s
    unfold forChars
    split
    · exact (hbody ch s).bind (ih (ch + 1))
    · exact quiet_ok s

/-- A counter of type `uint8_t` never passes 255. -/
theorem forChars_wraps {body : UInt8 → σ → Except Fault σ}
    (hbody : ∀ ch s, Quiet .outOfFuel (body ch s)) (fuel : Nat) :
    ∀ ch s, forChars body 255 fuel ch s = .error .outOfFuel := by
  have hle : ∀ ch : UInt8, ch ≤ 255 := fun ch => UInt8.le_iff_toNat_le.mpr (by
    have := ch.toNat_lt
    show ch.toNat ≤ 255
    omega)
  induction fuel with
  | zero =>
    intro ch s
    rw [forChars, if_pos (hle ch)]
  | succ fuel ih =>
    intro ch s
    rw [forChars, if_pos (hle ch)]
    exact (hbody ch s).bind_stop (ih (ch + 1))

/-- A loop does not get past a round that does not end. -/
theorem forChars_stuck {body : UInt8 → σ → Except Fault σ}
    (hbody : ∀ ch s, Quiet .outOfFuel (body ch s)) {last c : UInt8} (hc : c ≤ last)
    (hstuck : ∀ s, body c s = .error .outOfFuel) (fuel : Nat) :
    ∀ ch s, ch ≤ c → forChars body last fuel ch s = .error .outOfFuel := by
  induction fuel with
  | zero =>
    intro ch s hch
    rw [forChars, if_pos (UInt8.le_trans hch hc)]
  | succ fuel ih =>
    intro ch s hch
    rw [forChars, if_pos (UInt8.le_trans hch hc)]
    by_cases heq : ch = c
    · rw [heq, hstuck s]
      rfl
    · refine (hbody ch s).bind_stop (fun s' => ih (ch + 1) s' ?_)
      have hne : ch.toNat ≠ c.toNat := fun h => heq (UInt8.toNat_inj.mp h)
      rw [UInt8.le_iff_toNat_le] at hch ⊢
      have := c.toNat_lt
      rw [UInt8.toNat_add, UInt8.toNat_one]
      omega

end Loop

/-! ## Sound graphs -/

section Ends

variable {N : Type} {r : Reader N}

/-- What both readers do: a read ends, and finds children in the range of the node only. -/
structure Reads (r : Reader N) : Prop where
  readchild : ∀ x ch, r.readchild x ch ≠ .error .outOfFuel
  values : ∀ x, r.values x ≠ .error .outOfFuel
  inRange : ∀ x ch y, r.readchild x ch = .ok (some y) → r.first x ≤ ch ∧ ch ≤ r.last x

variable (hr : Reads r)
include hr

theorem Reads.child {x y : N} {ch : UInt8} (h : r.readchild x ch = .ok (some y)) : Child r x y :=
  ⟨ch, (hr.inRange x ch y h).1, (hr.inRange x ch y h).2, h⟩

theorem withChild_ends {σ : Type} {x : N} {ch : UInt8} (s : σ) {next : Nat → N → Except Fault σ}
    (hnext : ∀ y, r.readchild x ch = .ok (some y) →
      Fuel.Ends .outOfFuel (fun fuel => next fuel y)) :
    Fuel.Ends .outOfFuel (fun fuel => r.withChild x ch s (next fuel)) := by
  unfold Reader.withChild
  refine ends_bind (hr.readchild x ch) (fun child hread => ?_)
  cases child with
  | none => exact ends_ok s
  | some y => exact hnext y hread

/-- **The dump of a sound graph ends.** -/
theorem dumpNode_ends {x : N} (hs : Sound r x) (hfin : FiniteBelow r x) :
    ∀ buf out, Fuel.Ends .outOfFuel (fun fuel => dumpNode r fuel x buf out) := by
  refine hs.induction hfin
    (P := fun x => ∀ buf out, Fuel.Ends .outOfFuel (fun fuel => dumpNode r fuel x buf out))
    (fun y hwrap ih buf out => ends_succ ?_)
  simp only [dumpNode]
  refine ends_bind (hr.values y) (fun values _ => ?_)
  refine forChars_ends hwrap (fun ch _ _ out => withChild_ends hr out (fun z hz => ?_)) _
  exact ih z (hr.child hz) _ out

theorem searchwildAllvalues_ends (x : N) (out : List IndexValue) :
    Fuel.Ends .outOfFuel (fun _ => searchwildAllvalues r x out) :=
  ends_bind (hr.values x) (fun values _ => ends_ok (addValues out values))

/-- **A search below a wildcard of a sound graph ends.** -/
theorem searchwildAll_ends {x : N} (hs : Sound r x) (hfin : FiniteBelow r x)
    (fnmatch : CStr → CStr → Bool) (subkey : CStr) :
    ∀ pfx buf out,
      Fuel.Ends .outOfFuel (fun fuel => searchwildAll r fnmatch fuel x pfx buf subkey out) := by
  refine hs.induction hfin
    (P := fun x => ∀ pfx buf out,
      Fuel.Ends .outOfFuel (fun fuel => searchwildAll r fnmatch fuel x pfx buf subkey out))
    (fun y hwrap ih pfx buf out => ends_succ ?_)
  simp only [searchwildAll]
  refine Fuel.Ends.bind ?_ (fun out => ?_)
  · refine forChars_ends hwrap (fun ch _ _ out => withChild_ends hr out (fun z hz => ?_)) out
    exact ih z (hr.child hz) _ _ out
  · split
    · exact searchwildAllvalues_ends hr y out
    · exact ends_ok out

theorem searchwildChild_ends {x : N} (hs : Sound r x) (hfin : FiniteBelow r x)
    (fnmatch : CStr → CStr → Bool) (key : CStr) (ch : UInt8) (out : List IndexValue) :
    Fuel.Ends .outOfFuel (fun fuel => searchwildChild r fnmatch fuel x key ch out) := by
  unfold searchwildChild
  refine withChild_ends hr out (fun y hy => ?_)
  exact searchwildAll_ends hr (hs.child (hr.child hy))
    (hfin.child (hr.child hy)) fnmatch key _ _ out

theorem searchwildChildren_ends {x : N} (hs : Sound r x) (hfin : FiniteBelow r x)
    (fnmatch : CStr → CStr → Bool) (key : CStr) (out : List IndexValue) :
    Fuel.Ends .outOfFuel (fun fuel => searchwildChildren r fnmatch fuel x key out) := by
  unfold searchwildChildren
  refine (searchwildChild_ends hr hs hfin fnmatch key 42 out).bind (fun out => ?_)
  refine (searchwildChild_ends hr hs hfin fnmatch key 63 out).bind (fun out => ?_)
  exact searchwildChild_ends hr hs hfin fnmatch key 91 out

/-- The descent follows the key, so it ends wherever the searches below it do. -/
theorem searchwildNode_ends (host : Host) (fnmatch : CStr → CStr → Bool) (key : CStr) :
    ∀ {x : N}, Sound r x → FiniteBelow r x → ∀ pfx out,
      Fuel.Ends .outOfFuel (fun fuel => searchwildNode host r fnmatch fuel x pfx key out) := by
  induction key with
  | nil =>
    intro x hs hfin pfx out
    cases pfx with
    | nil =>
      simp only [searchwildNode]
      exact (searchwildChildren_ends hr hs hfin fnmatch [] out).bind
        (fun out => searchwildAllvalues_ends hr x out)
    | cons p pfx =>
      simp only [searchwildNode]
      split
      · exact searchwildAll_ends hr hs hfin fnmatch [] _ _ out
      · exact ends_ok out
  | cons k key ih =>
    intro x hs hfin pfx out
    cases pfx with
    | nil =>
      simp only [searchwildNode]
      refine (searchwildChildren_ends hr hs hfin fnmatch (k :: key) out).bind (fun out => ?_)
      refine withChild_ends hr out (fun y hy => ?_)
      exact ih (hs.child (hr.child hy)) (hfin.child (hr.child hy)) _ out
    | cons p pfx =>
      simp only [searchwildNode]
      split
      · exact searchwildAll_ends hr hs hfin fnmatch (k :: key) _ _ out
      · split
        · exact ih hs hfin pfx out
        · exact ends_ok out

end Ends

/-! ## Unsound graphs -/

section Endless

variable {N : Type} {r : Reader N}

/-- Every read succeeds. -/
structure NeverFails (r : Reader N) : Prop where
  readchild : ∀ x ch, ∃ child, r.readchild x ch = .ok child
  values : ∀ x, ∃ values, r.values x = .ok values

variable (hr : NeverFails r)
include hr

theorem withChild_quiet {σ : Type} (x : N) (ch : UInt8) (s : σ) {next : N → Except Fault σ}
    (hnext : ∀ y, Quiet .outOfFuel (next y)) : Quiet .outOfFuel (r.withChild x ch s next) := by
  obtain ⟨child, hread⟩ := hr.readchild x ch
  unfold Reader.withChild
  rw [hread]
  cases child with
  | none => exact quiet_ok s
  | some y => exact hnext y

theorem dumpNode_quiet (fuel : Nat) :
    ∀ x buf out, Quiet .outOfFuel (dumpNode r fuel x buf out) := by
  induction fuel with
  | zero => exact fun _ _ _ => quiet_stop
  | succ fuel ih =>
    intro x buf out
    obtain ⟨values, hvalues⟩ := hr.values x
    simp only [dumpNode, hvalues]
    refine forChars_quiet (fun ch out => ?_) _ fuel _ _
    exact withChild_quiet hr x ch out (fun y => ih y _ out)

/-- **The dump of an unsound graph goes on for ever.** -/
theorem dumpNode_endless (fuel : Nat) :
    ∀ {x : N}, ¬ Sound r x → ∀ buf out, dumpNode r fuel x buf out = .error .outOfFuel := by
  induction fuel with
  | zero => exact fun _ _ _ => rfl
  | succ fuel ih =>
    intro x hx buf out
    obtain ⟨values, hvalues⟩ := hr.values x
    simp only [dumpNode, hvalues]
    have hbody : ∀ ch out, Quiet .outOfFuel (r.withChild x ch out (fun child =>
        dumpNode r fuel child (buf ++ r.pfx x ++ [ch]) out)) :=
      fun ch out => withChild_quiet hr x ch out (fun y => dumpNode_quiet hr fuel y _ out)
    rcases exists_unsound_child hx with hwrap | ⟨y, ⟨c, h1, h2, hread⟩, hy⟩
    · rw [show r.last x = 255 from hwrap]
      exact forChars_wraps hbody fuel _ _
    · refine forChars_stuck hbody h2 (fun out => ?_) fuel _ _ h1
      unfold Reader.withChild
      rw [hread]
      exact ih hy _ out

end Endless

/-! ## The two readers -/

/-- Only finitely many nodes can be read. -/
theorem finiteBelow_of_table {N T : Type} [Finite T] {r : Reader N} (table : T → Option N)
    (h : ∀ x y, Child r x y → ∃ t, table t = some y) (x : N) : FiniteBelow r x := by
  have hfin : {y | some y ∈ Set.range table}.Finite :=
    (Set.finite_range table).preimage (Option.some_injective N).injOn
  refine (hfin.insert x).subset (fun y hy => ?_)
  rcases ReflTransGen.cases_tail hy with rfl | ⟨z, _, hzy⟩
  · exact Set.mem_insert ..
  · exact Set.mem_insert_of_mem _ (h z y hzy)

section Mm

variable {α : Type}

theorem mmRead_ends (take : List UInt8 → Option (α × List UInt8)) (p : List UInt8) :
    mmRead take p ≠ .error .outOfFuel := by
  unfold mmRead
  split
  · exact fun h => nomatch h
  · exact fun h => nomatch h

theorem readValueMm_ends (p : List UInt8) : readValueMm p ≠ .error .outOfFuel :=
  bind_ne_stop (mmRead_ends _ _) (fun _ => bind_ne_stop (mmRead_ends _ _) (fun _ h => nomatch h))

theorem readValuesMm_ends (count : Nat) : ∀ p, readValuesMm count p ≠ .error .outOfFuel := by
  induction count with
  | zero => exact fun _ h => nomatch h
  | succ count ih =>
    intro p
    refine bind_ne_stop (readValueMm_ends p) (fun v => ?_)
    exact bind_ne_stop (ih v.2) (fun _ h => nomatch h)

theorem readPfxMm_ends (offset : Nat) (p : List UInt8) :
    readPfxMm offset p ≠ .error .outOfFuel := by
  unfold readPfxMm
  split
  · exact mmRead_ends _ _
  · exact fun h => nomatch h

theorem readRangeMm_ends (p : List UInt8) : readRangeMm p ≠ .error .outOfFuel := by
  refine bind_ne_stop (mmRead_ends _ _) (fun first => bind_ne_stop (mmRead_ends _ _)
    (fun last => ?_))
  dsimp only
  split
  · exact fun h => nomatch h
  · exact fun h => nomatch h

theorem readChildsMm_ends (offset : Nat) (p : List UInt8) :
    readChildsMm offset p ≠ .error .outOfFuel := by
  unfold readChildsMm
  split
  · exact readRangeMm_ends p
  · exact fun h => nomatch h

theorem readCountMm_ends (offset : Nat) (p : List UInt8) :
    readCountMm offset p ≠ .error .outOfFuel := by
  unfold readCountMm
  split
  · exact mmRead_ends _ _
  · exact fun h => nomatch h

theorem indexMmReadNode_ends (idx : IndexMm) (offset : Nat) :
    indexMmReadNode idx offset ≠ .error .outOfFuel := by
  unfold indexMmReadNode
  dsimp only
  split
  · exact fun h => nomatch h
  · refine bind_ne_stop (readPfxMm_ends _ _) (fun pfx => ?_)
    refine bind_ne_stop (readChildsMm_ends _ _) (fun childs => ?_)
    cases childs with
    | none => exact fun h => nomatch h
    | some childs => exact bind_ne_stop (readCountMm_ends _ _) (fun _ h => nomatch h)

theorem indexMmReadchild_ends (idx : IndexMm) (x : IndexMmNode) (ch : UInt8) :
    indexMmReadchild idx x ch ≠ .error .outOfFuel := by
  unfold indexMmReadchild
  split
  · exact bind_ne_stop (mmRead_ends _ _) (fun off => indexMmReadNode_ends idx off.1)
  · exact fun h => nomatch h

theorem mmReader_reads (idx : IndexMm) : Reads (mmReader idx) where
  readchild := indexMmReadchild_ends idx
  values := fun x => readValuesMm_ends x.valueCount x.values
  inRange := by
    intro x ch y h
    by_contra hout
    have hnone : indexMmReadchild idx x ch = .ok none := if_neg hout
    have hread : indexMmReadchild idx x ch = .ok (some y) := h
    rw [hnone] at hread
    exact nomatch hread

/-- The range of a node in the mapping is checked when the node is read. -/
theorem readRangeMm_last {p : List UInt8} {res : UInt8 × UInt8 × List UInt8 × List UInt8}
    (h : readRangeMm p = .ok (some res)) : res.2.1 ≠ 255 := by
  obtain ⟨⟨first, p₁⟩, -, h⟩ := ok_of_bind h
  obtain ⟨⟨last, p₂⟩, -, h⟩ := ok_of_bind h
  dsimp only at h
  split at h
  · exact nomatch h
  · next hok =>
    rw [Except.ok.injEq, Option.some.injEq] at h
    subst h
    intro hlast
    exact hok (.inr (.inr (by rw [show last = 255 from hlast]; decide)))

theorem indexMmReadNode_last {idx : IndexMm} {offset : Nat} {x : IndexMmNode}
    (h : indexMmReadNode idx offset = .ok (some x)) : x.last ≠ 255 := by
  unfold indexMmReadNode at h
  dsimp only at h
  split at h
  · exact nomatch h
  · obtain ⟨⟨pfx, p⟩, -, h⟩ := ok_of_bind h
    obtain ⟨childs, hread, h⟩ := ok_of_bind h
    cases childs with
    | none => exact nomatch h
    | some childs =>
      obtain ⟨count, -, h⟩ := ok_of_bind h
      rw [Except.ok.injEq, Option.some.injEq] at h
      subst h
      unfold readChildsMm at hread
      split at hread
      · exact readRangeMm_last hread
      · rw [Except.ok.injEq, Option.some.injEq] at hread
        subst hread
        exact (by decide : (0 : UInt8) ≠ 255)

end Mm

/-! ## Offsets

An offset has 32 bits, so a reader finds only finitely many nodes.
-/

theorem and_word {mask : Nat} (hmask : mask < 2 ^ 32) (offset : Nat) :
    offset % 2 ^ 32 &&& mask = offset &&& mask := by
  have hle : offset &&& mask ≤ mask := Nat.and_le_right
  have hmod := Nat.and_mod_two_pow (a := offset) (b := mask) (n := 32)
  rw [Nat.mod_eq_of_lt hmask, Nat.mod_eq_of_lt (by omega)] at hmod
  exact hmod.symm

theorem indexMmReadNode_word (idx : IndexMm) (offset : Nat) :
    indexMmReadNode idx (offset % 2 ^ 32) = indexMmReadNode idx offset := by
  simp only [indexMmReadNode, readPfxMm, readChildsMm, readCountMm,
    and_word (show INDEX_NODE_MASK < 2 ^ 32 by decide),
    and_word (show INDEX_NODE_PREFIX < 2 ^ 32 by decide),
    and_word (show INDEX_NODE_CHILDS < 2 ^ 32 by decide),
    and_word (show INDEX_NODE_VALUES < 2 ^ 32 by decide)]

theorem indexRead_word (idx : IndexFile) (offset : Nat) :
    indexRead idx (offset % 2 ^ 32) = indexRead idx offset := by
  simp only [indexRead, readPfx, readChilds, readNodeValues,
    and_word (show INDEX_NODE_MASK < 2 ^ 32 by decide),
    and_word (show INDEX_NODE_PREFIX < 2 ^ 32 by decide),
    and_word (show INDEX_NODE_CHILDS < 2 ^ 32 by decide),
    and_word (show INDEX_NODE_VALUES < 2 ^ 32 by decide)]

theorem mmReader_offset {idx : IndexMm} {x y : IndexMmNode} (h : Child (mmReader idx) x y) :
    ∃ offset, indexMmReadNode idx offset = .ok (some y) := by
  obtain ⟨ch, h1, h2, hread⟩ := h
  have hread' : indexMmReadchild idx x ch = .ok (some y) := hread
  rw [indexMmReadchild, if_pos ⟨h1, h2⟩] at hread'
  obtain ⟨⟨offset, p⟩, -, hnode⟩ := ok_of_bind hread'
  exact ⟨offset, hnode⟩

theorem mmReader_finiteBelow (idx : IndexMm) (x : IndexMmNode) : FiniteBelow (mmReader idx) x := by
  refine finiteBelow_of_table (T := Fin (2 ^ 32))
    (fun offset => (indexMmReadNode idx offset).toOption.join) (fun x y h => ?_) x
  obtain ⟨offset, hread⟩ := mmReader_offset h
  refine ⟨⟨offset % 2 ^ 32, Nat.mod_lt _ (by decide)⟩, ?_⟩
  simp only [indexMmReadNode_word, hread]
  rfl

/-- No range wraps in the mapping. -/
theorem mmReader_sound_iff {idx : IndexMm} {x : IndexMmNode} {offset : Nat}
    (hx : indexMmReadNode idx offset = .ok (some x)) :
    Sound (mmReader idx) x ↔ Loopless (mmReader idx) x := by
  refine ⟨fun h y hy => (h y hy).1, fun h y hy => ⟨h y hy, ?_⟩⟩
  rcases ReflTransGen.cases_tail hy with rfl | ⟨z, _, hzy⟩
  · exact indexMmReadNode_last hx
  · obtain ⟨offset', hread⟩ := mmReader_offset hzy
    exact indexMmReadNode_last hread

theorem fileReader_finiteBelow (idx : IndexFile) (x : IndexNodeF) :
    FiniteBelow (fileReader idx) x := by
  refine finiteBelow_of_table (T := Fin (2 ^ 32)) (fun offset => indexRead idx offset)
    (fun x y h => ?_) x
  obtain ⟨ch, h1, h2, hread⟩ := h
  have hread' : indexReadchild idx x ch = some y := Except.ok.inj hread
  rw [indexReadchild, if_pos ⟨h1, h2⟩] at hread'
  generalize x.children.getD _ 0 = offset at hread'
  refine ⟨⟨offset % 2 ^ 32, Nat.mod_lt _ (by decide)⟩, ?_⟩
  simp only [indexRead_word]
  exact hread'

theorem fileReader_reads (idx : IndexFile) : Reads (fileReader idx) where
  readchild := fun _ _ h => nomatch h
  values := fun _ h => nomatch h
  inRange := by
    intro x ch y h
    by_contra hout
    have hnone : indexReadchild idx x ch = none := if_neg hout
    have hread : indexReadchild idx x ch = some y := Except.ok.inj h
    rw [hnone] at hread
    exact nomatch hread

theorem fileReader_neverFails (idx : IndexFile) : NeverFails (fileReader idx) :=
  ⟨fun x ch => ⟨indexReadchild idx x ch, rfl⟩, fun x => ⟨x.values, rfl⟩⟩

/-! ## Reads that fail

Reading past the end of a mapping is a fault, and a fault ends a traversal, too.
It may do so before the traversal comes to a loop. `Reader.failing` treats such a
read as the stream reader does: it finds no node, and the traversal goes on.
-/

/-- A read out of range finds nothing. -/
def Reader.failing {N : Type} (r : Reader N) : Reader N :=
  { r with
    readchild := fun x ch => .ok (r.readchild x ch).toOption.join
    values := fun x => .ok ((r.values x).toOption.getD []) }

/-- `index_mm_dump`, with reads that fail. -/
def indexMmDumpFailing (fuel : Nat) (idx : IndexMm) (aliasPrefix : Bool) :
    Except Fault (List UInt8) :=
  dump (mmReader idx).failing fuel (indexMmReadNode idx idx.rootOffset).toOption.join aliasPrefix

/-- `index_mm_searchwild`, with reads that fail. -/
def indexMmSearchwildFailing (host : Host) (fnmatch : CStr → CStr → Bool) (fuel : Nat)
    (idx : IndexMm) (key : CStr) : Except Fault (List IndexValue) :=
  searchwild host (mmReader idx).failing fnmatch fuel
    (indexMmReadNode idx idx.rootOffset).toOption.join key

section Failing

variable {N : Type} {r : Reader N}

theorem join_toOption {res : Except Fault (Option N)} {x : N} :
    res.toOption.join = some x ↔ res = .ok (some x) := by
  cases res with
  | error e => exact ⟨fun h => (nomatch h), fun h => (nomatch h)⟩
  | ok o => exact ⟨fun h => congrArg _ h, fun h => Except.ok.inj h⟩

theorem failing_readchild {x y : N} {ch : UInt8} :
    r.failing.readchild x ch = .ok (some y) ↔ r.readchild x ch = .ok (some y) := by
  refine Iff.trans ⟨fun h => Except.ok.inj h, fun h => congrArg _ h⟩ join_toOption

/-- Failing reads do not change the graph. -/
theorem child_failing : Child r.failing = Child r := by
  funext x y
  simp only [Child, failing_readchild]
  rfl

theorem sound_failing {x : N} : Sound r.failing x ↔ Sound r x := by
  unfold Sound
  rw [child_failing]
  rfl

theorem finiteBelow_failing {x : N} (h : FiniteBelow r x) : FiniteBelow r.failing x := by
  unfold FiniteBelow
  rw [child_failing]
  exact h

theorem failing_neverFails : NeverFails r.failing :=
  ⟨fun _ _ => ⟨_, rfl⟩, fun _ => ⟨_, rfl⟩⟩

theorem Reads.failing (hr : Reads r) : Reads r.failing where
  readchild := fun _ _ h => nomatch h
  values := fun _ h => nomatch h
  inRange := fun x ch y h => hr.inRange x ch y (failing_readchild.mp h)

end Failing

/-! ## Traversals of a file -/

section Root

variable {N : Type} {r : Reader N} {root : Option N}

theorem dump_ends (hr : Reads r) (h : ∀ x, root = some x → Sound r x ∧ FiniteBelow r x)
    (aliasPrefix : Bool) : Fuel.Ends .outOfFuel (fun fuel => dump r fuel root aliasPrefix) := by
  cases root with
  | none => exact ends_ok []
  | some x => exact dumpNode_ends hr (h x rfl).1 (h x rfl).2 _ _

theorem searchwild_ends (hr : Reads r) (h : ∀ x, root = some x → Sound r x ∧ FiniteBelow r x)
    (host : Host) (fnmatch : CStr → CStr → Bool) (key : CStr) :
    Fuel.Ends .outOfFuel (fun fuel => searchwild host r fnmatch fuel root key) := by
  cases root with
  | none => exact ends_ok []
  | some x => exact searchwildNode_ends hr host fnmatch key (h x rfl).1 (h x rfl).2 _ _

/-- A dump that ends has gone through a sound graph. -/
theorem sound_of_dump_ends (hr : NeverFails r) {aliasPrefix : Bool}
    (h : Fuel.Ends .outOfFuel (fun fuel => dump r fuel root aliasPrefix)) {x : N}
    (hx : root = some x) :
    Sound r x := by
  by_contra hbad
  subst hx
  exact (Endless.not_ends (fun fuel => dumpNode_endless hr fuel hbad _ _)) h

end Root

/-- Every traversal of the file ends, for every key, with both readers and with both ways to
treat a read out of the mapping. -/
structure TraversalsEnd (file : List UInt8) : Prop where
  dump : ∀ idx, indexFileOpen file = some idx → ∀ aliasPrefix,
    Fuel.Ends .outOfFuel (fun fuel => indexDump fuel idx aliasPrefix)
  searchwild : ∀ idx, indexFileOpen file = some idx → ∀ host fnmatch key,
    Fuel.Ends .outOfFuel (fun fuel => indexSearchwild host fnmatch fuel idx key)
  mmDump : ∀ idx, indexMmOpen file = .ok idx → ∀ aliasPrefix,
    Fuel.Ends .outOfFuel (fun fuel => indexMmDump fuel idx aliasPrefix) ∧
      Fuel.Ends .outOfFuel (fun fuel => indexMmDumpFailing fuel idx aliasPrefix)
  mmSearchwild : ∀ idx, indexMmOpen file = .ok idx → ∀ host fnmatch key,
    Fuel.Ends .outOfFuel (fun fuel => indexMmSearchwild host fnmatch fuel idx key) ∧
      Fuel.Ends .outOfFuel (fun fuel => indexMmSearchwildFailing host fnmatch fuel idx key)

/--
**When the traversals of a file end.** For every byte string: all traversals end, for
every key, if and only if the nodes that the stream reader reaches from the root form
no loop and have no range up to 255, and the nodes that can be reached in the
mapping form no loop.
-/
theorem traversals_end_iff (file : List UInt8) :
    TraversalsEnd file ↔
      (∀ idx x, indexFileOpen file = some idx → indexRead idx idx.rootOffset = some x →
        Sound (fileReader idx) x) ∧
      ∀ idx x, indexMmOpen file = .ok idx →
        indexMmReadNode idx idx.rootOffset = .ok (some x) → Loopless (mmReader idx) x := by
  refine ⟨fun h => ⟨fun idx x hopen hx => ?_, fun idx x hopen hx => ?_⟩, fun ⟨hfile, hmm⟩ => ?_⟩
  · exact sound_of_dump_ends (fileReader_neverFails idx) (h.dump idx hopen false) hx
  · have hs := sound_of_dump_ends failing_neverFails (h.mmDump idx hopen false).2
      (join_toOption.mpr hx)
    exact (mmReader_sound_iff hx).mp (sound_failing.mp hs)
  · have hread : ∀ idx, indexFileOpen file = some idx → ∀ x,
        indexRead idx idx.rootOffset = some x →
        Sound (fileReader idx) x ∧ FiniteBelow (fileReader idx) x :=
      fun idx hopen x hx => ⟨hfile idx x hopen hx, fileReader_finiteBelow idx x⟩
    have hreadMm : ∀ idx, indexMmOpen file = .ok idx → ∀ x,
        indexMmReadNode idx idx.rootOffset = .ok (some x) →
        Sound (mmReader idx) x ∧ FiniteBelow (mmReader idx) x :=
      fun idx hopen x hx =>
        ⟨(mmReader_sound_iff hx).mpr (hmm idx x hopen hx), mmReader_finiteBelow idx x⟩
    -- the same graph, with reads that fail
    have hfailing : ∀ idx, indexMmOpen file = .ok idx → ∀ x,
        (indexMmReadNode idx idx.rootOffset).toOption.join = some x →
        Sound (mmReader idx).failing x ∧ FiniteBelow (mmReader idx).failing x := by
      intro idx hopen x hx
      obtain ⟨hs, hfin⟩ := hreadMm idx hopen x (join_toOption.mp hx)
      exact ⟨sound_failing.mpr hs, finiteBelow_failing hfin⟩
    refine ⟨fun idx hopen aliasPrefix => ?_, fun idx hopen host fnmatch key => ?_,
      fun idx hopen aliasPrefix => ⟨?_, ?_⟩, fun idx hopen host fnmatch key => ⟨?_, ?_⟩⟩
    · exact dump_ends (fileReader_reads idx) (hread idx hopen) aliasPrefix
    · exact searchwild_ends (fileReader_reads idx) (hread idx hopen) host fnmatch key
    · unfold indexMmDump
      refine ends_bind (indexMmReadNode_ends idx idx.rootOffset) (fun root hroot => ?_)
      exact dump_ends (mmReader_reads idx)
        (fun x hx => hreadMm idx hopen x (hroot.trans (congrArg _ hx))) aliasPrefix
    · exact dump_ends (mmReader_reads idx).failing (hfailing idx hopen) aliasPrefix
    · unfold indexMmSearchwild
      refine ends_bind (indexMmReadNode_ends idx idx.rootOffset) (fun root hroot => ?_)
      exact searchwild_ends (mmReader_reads idx)
        (fun x hx => hreadMm idx hopen x (hroot.trans (congrArg _ hx))) host fnmatch key
    · exact searchwild_ends (mmReader_reads idx).failing (hfailing idx hopen) host fnmatch key

/-! ## Files with an endless traversal -/

/-- The offset of a node right behind the header that has children and nothing else. -/
def rootWord : Nat := 12 ||| INDEX_NODE_CHILDS

/-- A file with one node, behind the header. -/
def oneNode (node : List UInt8) : List UInt8 :=
  be32 INDEX_MAGIC ++ be32 INDEX_VERSION ++ be32 rootWord ++ node

/-- The root has one child, for `*`, and this child is the root. -/
def loopFile : List UInt8 := oneNode (42 :: 42 :: be32 rootWord)

/-- The root has a range from 255 to 255, with a null pointer in it. -/
def wrapFile : List UInt8 := oneNode (255 :: 255 :: be32 0)

theorem oneNode_eq (node : List UInt8) : oneNode node = headerWith rootWord node := by
  simp only [oneNode, headerWith, List.append_assoc]

theorem indexFileOpen_oneNode (node : List UInt8) :
    indexFileOpen (oneNode node) = some ⟨oneNode node, rootWord⟩ := by
  rw [oneNode_eq]
  exact indexFileOpen_headerWith (by decide) node

theorem indexMmOpen_oneNode (node : List UInt8) :
    indexMmOpen (oneNode node) = .ok ⟨oneNode node, rootWord⟩ := by
  rw [oneNode_eq]
  exact indexMmOpen_headerWith (by decide) node

/-- A node that is its own child for `*`, the only one. -/
structure OwnChild {N : Type} (r : Reader N) (x : N) : Prop where
  pfx : r.pfx x = []
  first : r.first x = 42
  last : r.last x = 42
  readchild : r.readchild x 42 = .ok (some x)
  values : r.values x = .ok []

section OwnChild

variable {N : Type} {r : Reader N} {x : N} (h : OwnChild r x)
include h

theorem OwnChild.withChild {σ : Type} (s : σ) (next : N → Except Fault σ) :
    r.withChild x 42 s next = next x := by
  unfold Reader.withChild
  rw [h.readchild]
  rfl

/-- The loop over the children does not get past the first one. -/
theorem OwnChild.forChars {σ : Type} {body : UInt8 → σ → Except Fault σ}
    (hbody : ∀ s, body 42 s = .error .outOfFuel) (fuel : Nat) (s : σ) :
    forChars body (r.last x) fuel (r.first x) s = .error .outOfFuel := by
  rw [h.first, h.last]
  cases fuel with
  | zero => rfl
  | succ fuel =>
    rw [Index.forChars, if_pos (UInt8.le_refl _), hbody s]
    rfl

theorem OwnChild.dumpNode (fuel : Nat) :
    ∀ buf out, dumpNode r fuel x buf out = .error .outOfFuel := by
  induction fuel with
  | zero => exact fun _ _ => rfl
  | succ fuel ih =>
    intro buf out
    simp only [Index.dumpNode, h.values, ok_bind]
    exact h.forChars (fun out => (h.withChild out _).trans (ih _ out)) fuel _

theorem OwnChild.searchwildAll (fnmatch : CStr → CStr → Bool) (subkey : CStr) (fuel : Nat) :
    ∀ pfx buf out, searchwildAll r fnmatch fuel x pfx buf subkey out = .error .outOfFuel := by
  induction fuel with
  | zero => exact fun _ _ _ => rfl
  | succ fuel ih =>
    intro pfx buf out
    have hloop : Index.forChars (fun ch out => r.withChild x ch out (fun child =>
        Index.searchwildAll r fnmatch fuel child (r.pfx child) (buf ++ pfx ++ [ch]) subkey out))
        (r.last x) fuel (r.first x) out = .error .outOfFuel :=
      h.forChars (fun out => (h.withChild out _).trans (ih _ _ out)) fuel out
    simp only [Index.searchwildAll, hloop]
    rfl

theorem OwnChild.searchwild (host : Host) (fnmatch : CStr → CStr → Bool) (fuel : Nat) (key : CStr) :
    searchwild host r fnmatch fuel (some x) key = .error .outOfFuel := by
  -- the children for wildcards come first, whatever the key is
  have hchildren : searchwildChildren r fnmatch fuel x key [] = .error .outOfFuel := by
    simp only [searchwildChildren, searchwildChild, h.withChild, h.searchwildAll]
    rfl
  unfold Index.searchwild
  dsimp only
  rw [h.pfx]
  cases key with
  | nil =>
    rw [searchwildNode, hchildren]
    rfl
  | cons k key =>
    rw [searchwildNode, hchildren]
    rfl

end OwnChild

/-- The root of `loopFile` in the mapping. -/
def loopNode : IndexMmNode := ⟨[], 42, 42, be32 rootWord, 0, []⟩

theorem loop_readNode : indexMmReadNode ⟨loopFile, rootWord⟩ rootWord = .ok (some loopNode) := by
  have hin : ¬ (rootWord &&& INDEX_NODE_MASK = 0 ∨
      rootWord &&& INDEX_NODE_MASK ≥ loopFile.length) := by
    decide
  unfold indexMmReadNode
  rw [if_neg hin]
  rfl

theorem loop_readchild :
    indexMmReadchild ⟨loopFile, rootWord⟩ loopNode 42 = .ok (some loopNode) := by
  have hfirst : loopNode.children.drop (4 * (UInt8.toNat 42 - loopNode.first.toNat))
      = be32 rootWord ++ [] := rfl
  have hword : readU32Mm (be32 rootWord ++ []) = .ok (rootWord % 2 ^ 32, []) := by
    rw [readU32Mm, mmRead, takeBe32_be32]
  rw [indexMmReadchild, if_pos (by decide), hfirst]
  rw [hword, ok_bind]
  exact loop_readNode

/-- On `loopFile`, which both readers open, no traversal ends; on `wrapFile`, the dump of the
stream does not end. -/
theorem traversals_endless :
    (∃ idx, indexFileOpen loopFile = some idx ∧
      (∀ aliasPrefix, Endless .outOfFuel (fun fuel => indexDump fuel idx aliasPrefix)) ∧
      ∀ host fnmatch key,
        Endless .outOfFuel (fun fuel => indexSearchwild host fnmatch fuel idx key)) ∧
    (∃ idx, indexMmOpen loopFile = .ok idx ∧
      (∀ aliasPrefix, Endless .outOfFuel (fun fuel => indexMmDump fuel idx aliasPrefix)) ∧
      ∀ host fnmatch key,
        Endless .outOfFuel (fun fuel => indexMmSearchwild host fnmatch fuel idx key)) ∧
    ∃ idx, indexFileOpen wrapFile = some idx ∧
      ∀ aliasPrefix, Endless .outOfFuel (fun fuel => indexDump fuel idx aliasPrefix) := by
  refine ⟨⟨⟨loopFile, rootWord⟩, indexFileOpen_oneNode _, ?_⟩,
    ⟨⟨loopFile, rootWord⟩, indexMmOpen_oneNode _, ?_⟩, ⟨wrapFile, rootWord⟩,
    indexFileOpen_oneNode _, ?_⟩
  · have hown : OwnChild (fileReader ⟨loopFile, rootWord⟩) ⟨[], [], 42, 42, [rootWord]⟩ :=
      ⟨rfl, rfl, rfl, rfl, rfl⟩
    exact ⟨fun _ fuel => hown.dumpNode fuel _ _,
      fun host fnmatch key fuel => hown.searchwild host fnmatch fuel key⟩
  · have hown : OwnChild (mmReader ⟨loopFile, rootWord⟩) loopNode :=
      ⟨rfl, rfl, rfl, loop_readchild, rfl⟩
    refine ⟨fun aliasPrefix fuel => ?_, fun host fnmatch key fuel => ?_⟩
    · simp only [indexMmDump, loop_readNode, ok_bind]
      exact hown.dumpNode fuel _ _
    · simp only [indexMmSearchwild, loop_readNode, ok_bind]
      exact hown.searchwild host fnmatch fuel key
  · have hwraps : Wraps (fileReader ⟨wrapFile, rootWord⟩) ⟨[], [], 255, 255, [0]⟩ := rfl
    exact fun _ fuel => dumpNode_endless (fileReader_neverFails _) fuel
      (fun hsound => (hsound _ .refl).2 hwraps) _ _

end Kmod.Index
