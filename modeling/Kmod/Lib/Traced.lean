import Kmod.Lib.ByteScan

/-!
# Reads that are recorded

A computation that reads a memory, together with the addresses it has read. The memory
is a list of bytes that goes on with NULs for ever, so a read always gives a byte and a
string always ends: what a program makes of the bytes it should not have read can be
said, and that it has read them as well (`Traced.Within`).
-/

namespace Kmod.ByteScan

/-- A result, and the addresses that were read for it. -/
structure Traced (α : Type) where
  val : α
  reads : List Nat
  deriving DecidableEq, Repr

namespace Traced

variable {α β : Type}

instance : Monad Traced where
  pure x := ⟨x, []⟩
  bind x f := ⟨(f x.val).val, x.reads ++ (f x.val).reads⟩

@[simp] theorem val_pure (x : α) : (pure x : Traced α).val = x := rfl

@[simp] theorem val_bind (x : Traced α) (f : α → Traced β) : (x >>= f).val = (f x.val).val := rfl

/-- Every read is of an address from `lo` on and below `hi`. -/
def Within (lo hi : Nat) (x : Traced α) : Prop := ∀ p ∈ x.reads, lo ≤ p ∧ p < hi

instance (lo hi : Nat) (x : Traced α) : Decidable (x.Within lo hi) :=
  inferInstanceAs (Decidable (∀ p ∈ x.reads, lo ≤ p ∧ p < hi))

variable {lo hi : Nat}

@[simp] theorem within_pure (x : α) : (pure x : Traced α).Within lo hi ↔ True :=
  iff_true_intro fun _ hp => absurd hp List.not_mem_nil

@[simp] theorem within_bind (x : Traced α) (f : α → Traced β) :
    (x >>= f).Within lo hi ↔ x.Within lo hi ∧ (f x.val).Within lo hi :=
  List.forall_mem_append

/-- The same result, and the same answer to whether there is a read outside. -/
def Agree (lo hi : Nat) (x y : Traced α) : Prop :=
  x.val = y.val ∧ (x.Within lo hi ↔ y.Within lo hi)

theorem Agree.refl (x : Traced α) : Agree lo hi x x := ⟨rfl, Iff.rfl⟩

theorem Agree.trans {x y z : Traced α} (hxy : Agree lo hi x y) (hyz : Agree lo hi y z) :
    Agree lo hi x z :=
  ⟨hxy.1.trans hyz.1, hxy.2.trans hyz.2⟩

/-- A first part that stays within can be left out. -/
theorem agree_bind {x : Traced α} {a : α} (hin : x.Within lo hi) (ha : x.val = a)
    (f : α → Traced β) : Agree lo hi (x >>= f) (f a) := by
  subst ha
  exact ⟨rfl, by rw [within_bind]; exact and_iff_right hin⟩

end Traced

/-! ## Reading -/

/-- The byte at an address. -/
def readByte (mem : List UInt8) (p : Nat) : Traced UInt8 := ⟨mem.getD p 0, [p]⟩

/-- The bytes of a range. -/
def readRange (mem : List UInt8) (p n : Nat) : Traced (List UInt8) :=
  ⟨(List.range' p n).map (mem.getD · 0), List.range' p n⟩

/-- `strlen`: the string and its NUL are read. -/
def strlen (mem : List UInt8) (p : Nat) : Traced Nat :=
  ⟨(front (mem.drop p)).length, List.range' p ((front (mem.drop p)).length + 1)⟩

/-- `strncmp` with all of a constant finds no difference; it reads up to the first one. -/
def strstartswith (mem : List UInt8) : List UInt8 → Nat → Traced Bool
  | [], _ => pure true
  | a :: s, p => do
    let b ← readByte mem p
    if b = a then strstartswith mem s (p + 1) else pure false

section
variable {mem l : List UInt8} {b : UInt8} {p lo hi : Nat}

@[simp] theorem within_readByte : (readByte mem p).Within lo hi ↔ lo ≤ p ∧ p < hi :=
  List.forall_mem_singleton

theorem within_range' {n : Nat} (hn : 0 < n) :
    (∀ q ∈ List.range' p n, lo ≤ q ∧ q < hi) ↔ lo ≤ p ∧ p + n ≤ hi := by
  constructor
  · intro h
    have hfirst := h p (List.mem_range'_1.mpr (by omega))
    have hlast := h (p + (n - 1)) (List.mem_range'_1.mpr (by omega))
    omega
  · intro h q hq
    rw [List.mem_range'_1] at hq
    omega

theorem within_readRange {n : Nat} (hn : 0 < n) :
    (readRange mem p n).Within lo hi ↔ lo ≤ p ∧ p + n ≤ hi :=
  within_range' hn

@[simp] theorem within_strlen :
    (strlen mem p).Within lo hi ↔ lo ≤ p ∧ p + (front (mem.drop p)).length < hi := by
  refine (within_range' (Nat.succ_pos _)).trans ?_
  omega

/-! ## Bytes that are known

`l <+: mem.drop p` says that the memory holds `l` from `p` on.
-/

theorem val_readByte (h : b :: l <+: mem.drop p) : (readByte mem p).val = b := by
  obtain ⟨rest, hrest⟩ := h
  have hget : mem[p]? = some b := by
    rw [← Nat.add_zero p, ← List.getElem?_drop, ← hrest]
    rfl
  exact List.getD_eq_getElem?_getD.trans (by rw [hget]; rfl)

theorem prefix_drop_add {w : List UInt8} (h : w ++ l <+: mem.drop p) :
    l <+: mem.drop (p + w.length) := by
  rw [← List.drop_drop]
  obtain ⟨rest, hrest⟩ := h
  refine ⟨rest, ?_⟩
  rw [← hrest, List.append_assoc, List.drop_left]

theorem prefix_drop_succ (h : b :: l <+: mem.drop p) : l <+: mem.drop (p + 1) :=
  prefix_drop_add (w := [b]) h

/-- Reading a byte that is known and lies inside. -/
theorem agree_readByte {β : Type} (h : b :: l <+: mem.drop p) (hlo : lo ≤ p) (hhi : p < hi)
    (f : UInt8 → Traced β) : Traced.Agree lo hi (readByte mem p >>= f) (f b) :=
  Traced.agree_bind (within_readByte.mpr ⟨hlo, hhi⟩) (val_readByte h) f

theorem val_readRange (h : l <+: mem.drop p) : (readRange mem p l.length).val = l := by
  induction l generalizing p with
  | nil => rfl
  | cons b l ih =>
    have hrest := ih (prefix_drop_succ h)
    have hb := val_readByte h
    unfold readRange at hrest ⊢
    exact congrArg₂ List.cons hb hrest

/-- Looking for `s` in bytes that are known and at least as many. -/
theorem strstartswith_spec : ∀ (s l : List UInt8) (p : Nat), l <+: mem.drop p →
    s.length ≤ l.length → lo ≤ p → p + s.length ≤ hi →
    (strstartswith mem s p).val = decide (s <+: l) ∧ (strstartswith mem s p).Within lo hi
  | [], l, p, _, _, _, _ => by simp [strstartswith]
  | a :: s, [], p, _, hlen, _, _ => by simp at hlen
  | a :: s, b :: l, p, h, hlen, hlo, hhi => by
    rw [List.length_cons] at hhi
    have hfirst : Traced.Agree lo hi (strstartswith mem (a :: s) p)
        (if b = a then strstartswith mem s (p + 1) else pure false) :=
      agree_readByte h hlo (by omega) _
    have hrest := strstartswith_spec s l (p + 1) (prefix_drop_succ h) (by simpa using hlen)
      (by omega) (by omega)
    unfold Traced.Agree at hfirst
    rw [hfirst.1, hfirst.2]
    by_cases hab : b = a
    · rw [if_pos hab, hrest.1]
      exact ⟨by simp [List.cons_prefix_cons, hab], hrest.2⟩
    · rw [if_neg hab]
      exact ⟨by simp [List.cons_prefix_cons, Ne.symm hab], by simp⟩

/-- The string at a place goes on behind bytes that are not NUL. -/
theorem front_drop {w : List UInt8} (hw : 0 ∉ w) (h : w <+: mem.drop p) :
    front (mem.drop p) = w ++ front (mem.drop (p + w.length)) := by
  obtain ⟨rest, hrest⟩ := h
  rw [← List.drop_drop, ← hrest, List.drop_left]
  unfold front
  refine List.takeWhile_append_of_pos ?_
  intro a ha
  rw [bne_iff_ne]
  rintro rfl
  exact hw ha

/-- A string that is known with its NUL. -/
theorem front_drop_of_nul {w : List UInt8} (hw : 0 ∉ w) (h : w ++ 0 :: l <+: mem.drop p) :
    front (mem.drop p) = w := by
  have hnul := prefix_drop_add h
  rw [front_drop hw ((List.prefix_append _ _).trans h)]
  obtain ⟨rest, hrest⟩ := hnul
  rw [← hrest]
  exact List.append_nil w

end

end Kmod.ByteScan
