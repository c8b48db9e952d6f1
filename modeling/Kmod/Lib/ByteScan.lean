import Mathlib.Data.Nat.Bitwise
import Mathlib.Data.List.Infix
import Mathlib.Data.List.TakeWhile
import Kmod.Lib.Memory

/-!
# Scanning a block of bytes

Numbers of either byte order, and the string functions of C on the rest of a block
from a pointer on. A string function looks at one byte after the other until it has
its answer; it gives nothing if the block ends before that.

A comparison with a string `v` is defined on every tail that is not one of the first
parts of `v`. So it is defined on every tail with a NUL in it, and on some without.
-/

namespace Kmod.ByteScan

open Kmod.Memory

/-! ## Numbers -/

/-- The number some bytes are, least significant first. -/
def uintLe : List UInt8 → Nat
  | [] => 0
  | b :: bs => b.toNat + 256 * uintLe bs

/-- The number some bytes are, in either order. -/
def uintOf (msb : Bool) (bs : List UInt8) : Nat := uintLe (if msb then bs.reverse else bs)

theorem uintLe_lt (bs : List UInt8) : uintLe bs < 256 ^ bs.length := by
  induction bs with
  | nil => exact Nat.one_pos
  | cons b bs ih =>
    have hb : b.toNat < 256 := b.toNat_lt
    rw [uintLe, List.length_cons, Nat.pow_succ]
    omega

theorem uintOf_lt (msb : Bool) (bs : List UInt8) : uintOf msb bs < 256 ^ bs.length := by
  unfold uintOf
  split
  · rw [← List.length_reverse]
    exact uintLe_lt _
  · exact uintLe_lt _

/-- The `n` least significant bytes of a number, least significant first. -/
def bytesLe : Nat → Nat → List UInt8
  | 0, _ => []
  | n + 1, v => UInt8.ofNat (v % 256) :: bytesLe n (v / 256)

/-- The same in either order. -/
def bytesOf (msb : Bool) (n v : Nat) : List UInt8 :=
  if msb then (bytesLe n v).reverse else bytesLe n v

@[simp] theorem length_bytesLe (n v : Nat) : (bytesLe n v).length = n := by
  induction n generalizing v with
  | zero => rfl
  | succ n ih => rw [bytesLe, List.length_cons, ih]

@[simp] theorem length_bytesOf (msb : Bool) (n v : Nat) : (bytesOf msb n v).length = n := by
  unfold bytesOf
  split
  · rw [List.length_reverse, length_bytesLe]
  · exact length_bytesLe n v

theorem bytesLe_uintLe (bs : List UInt8) : bytesLe bs.length (uintLe bs) = bs := by
  induction bs with
  | nil => rfl
  | cons b bs ih =>
    have hb : b.toNat < 256 := b.toNat_lt
    rw [List.length_cons, bytesLe, uintLe, Nat.add_mul_mod_self_left, Nat.mod_eq_of_lt hb,
      Nat.add_mul_div_left _ _ (by decide), Nat.div_eq_of_lt hb, Nat.zero_add, ih,
      UInt8.ofNat_toNat]

theorem uintLe_bytesLe (n : Nat) : ∀ v, v < 256 ^ n → uintLe (bytesLe n v) = v := by
  induction n with
  | zero =>
    intro v hv
    rw [Nat.pow_zero] at hv
    rw [bytesLe, uintLe]
    omega
  | succ n ih =>
    intro v hv
    rw [Nat.pow_succ] at hv
    have hbyte : (UInt8.ofNat (v % 256)).toNat = v % 256 := by
      rw [UInt8.toNat_ofNat']
      exact Nat.mod_mod _ _
    rw [bytesLe, uintLe, hbyte, ih (v / 256) (by omega)]
    omega

/-- Numbers are masked byte by byte. -/
theorem land_add_mul {a c : Nat} (ha : a < 256) (hc : c < 256) (b d : Nat) :
    (a + 256 * b) &&& (c + 256 * d) = (a &&& c) + 256 * (b &&& d) := by
  have hbits : ∀ {x : Nat}, x < 2 ^ 8 → ∀ y i,
      (x + 256 * y).testBit i = if i < 8 then x.testBit i else y.testBit (i - 8) := by
    intro x hx y i
    rw [Nat.add_comm]
    exact Nat.testBit_two_pow_mul_add y hx i
  refine Nat.eq_of_testBit_eq ?_
  intro i
  rw [Nat.testBit_and, hbits ha, hbits hc, hbits (Nat.and_lt_two_pow a hc)]
  split <;> rw [Nat.testBit_and]

/-- A 64-bit mask that leaves all bytes but the least significant one alone. -/
def lowMask (c : UInt8) : Nat := c.toNat + 256 * 72057594037927935

theorem uintLe_lowMask (b c : UInt8) {bs : List UInt8} (h : bs.length ≤ 7) :
    uintLe (b :: bs) &&& lowMask c = uintLe ((b &&& c) :: bs) := by
  have hlt : uintLe bs < 2 ^ 56 :=
    (uintLe_lt bs).trans_le (Nat.pow_le_pow_right (by decide : 0 < 256) h)
  unfold lowMask
  rw [uintLe, uintLe, land_add_mul b.toNat_lt c.toNat_lt, UInt8.toNat_and,
    show 72057594037927935 = 2 ^ 56 - 1 from rfl, Nat.and_two_pow_sub_one_eq_mod,
        Nat.mod_eq_of_lt hlt]

theorem modify_concat (f : UInt8 → UInt8) (b : UInt8) (t : List UInt8) :
    (t ++ [b]).modify t.length f = t ++ [f b] := by
  induction t with
  | nil => rfl
  | cons a t ih => rw [List.cons_append, List.length_cons, List.modify_succ_cons, ih,
      List.cons_append]

/-- Where the least significant byte of a number stands. -/
def lowPlace (msb : Bool) (n : Nat) : Nat := if msb then n - 1 else 0

/-- Masking the least significant byte changes that byte. -/
theorem bytesOf_lowMask (msb : Bool) (c : UInt8) {bs : List UInt8} (hne : bs ≠ [])
    (h8 : bs.length ≤ 8) :
    bytesOf msb bs.length (uintOf msb bs &&& lowMask c) =
      bs.modify (lowPlace msb bs.length) (· &&& c) := by
  cases msb with
  | false =>
    cases bs with
    | nil => exact absurd rfl hne
    | cons b bs =>
      rw [List.length_cons] at h8
      have hmask := uintLe_lowMask b c (show bs.length ≤ 7 by omega)
      have hbytes := bytesLe_uintLe ((b &&& c) :: bs)
      show bytesLe (b :: bs).length (uintLe (b :: bs) &&& lowMask c) = _
      rw [hmask]
      exact hbytes
  | true =>
    obtain ⟨t, b, rfl⟩ : ∃ t b, bs = t ++ [b] := ⟨_, _, (List.dropLast_append_getLast hne).symm⟩
    rw [List.length_append, List.length_singleton] at h8
    have hmask := uintLe_lowMask b c (show t.reverse.length ≤ 7 by rw [List.length_reverse]; omega)
    have hbytes := bytesLe_uintLe ((b &&& c) :: t.reverse)
    show (bytesLe (t ++ [b]).length (uintLe (t ++ [b]).reverse &&& lowMask c)).reverse = _
    rw [List.reverse_append, List.reverse_singleton, List.singleton_append, hmask,
      show (t ++ [b]).length = ((b &&& c) :: t.reverse).length by simp, hbytes]
    simp [lowPlace, modify_concat]

/-- The bytes of a range, as far as they are in the block. -/
def bytesAt (mem : List UInt8) (off n : Nat) : List UInt8 := (mem.drop off).take n

theorem length_bytesAt_le (mem : List UInt8) (off n : Nat) : (bytesAt mem off n).length ≤ n := by
  unfold bytesAt
  rw [List.length_take]
  exact Nat.min_le_left _ _

theorem length_bytesAt {mem : List UInt8} {off n : Nat} (h : off + n ≤ mem.length) :
    (bytesAt mem off n).length = n := by
  unfold bytesAt
  rw [List.length_take, List.length_drop]
  omega

/-- Overwriting bytes with the same bytes, of which one is changed. -/
theorem putRange_modify {mem : List UInt8} {off n i : Nat} (h : off + n ≤ mem.length) (hi : i < n)
    (f : UInt8 → UInt8) :
    putRange mem off ((bytesAt mem off n).modify i f) = some (mem.modify (off + i) f) := by
  have hlen : ((bytesAt mem off n).modify i f).length = n := by
    rw [List.length_modify, length_bytesAt h]
  obtain ⟨mem', hmem⟩ := exists_putRange.mpr (hlen.symm ▸ h)
  rw [hmem, Option.some_inj]
  refine List.ext_getElem? fun p => ?_
  rw [getElem?_putRange hmem, hlen, List.getElem?_modify, List.getElem?_modify]
  split
  · next hp =>
    unfold bytesAt
    rw [List.getElem?_take_of_lt (by omega), List.getElem?_drop, show off + (p - off) = p by omega]
    congr 1
    funext a
    simp only [show (i = p - off) = (off + i = p) from propext (by omega)]
  · next hp =>
    simp [show ¬ off + i = p by omega]

theorem bytesAt_take {mem : List UInt8} {off n size : Nat} (h : off + n ≤ size) :
    bytesAt (mem.take size) off n = bytesAt mem off n := by
  unfold bytesAt
  rw [List.drop_take, List.take_take]
  congr 1
  omega

theorem getRange_eq {mem : List UInt8} {off n : Nat} (h : off + n ≤ mem.length) :
    getRange mem off n = some (bytesAt mem off n) := if_pos h

/-! ## Strings -/

/-- `strcmp` finds no difference. -/
def streqTails : List UInt8 → List UInt8 → Option Bool
  | a :: as, b :: bs =>
    if a = b then if a = 0 then some true else streqTails as bs else some false
  | _, _ => none

/-- `strncmp` with all of a constant finds no difference. -/
def startsWithTail : List UInt8 → List UInt8 → Option Bool
  | [], _ => some true
  | _ :: _, [] => none
  | a :: as, b :: bs => if a = b then startsWithTail as bs else some false

/-- `strnlen` -/
def strnlenTail : Nat → List UInt8 → Option Nat
  | 0, _ => some 0
  | _ + 1, [] => none
  | n + 1, b :: bs => if b = 0 then some 0 else (strnlenTail n bs).map (· + 1)

/-- Comparing with `v` runs out of the block just if the block ends within `v`. -/
theorem streqTails_eq_none {v : List UInt8} (hv : 0 ∉ v) (rest : List UInt8) :
    ∀ t, streqTails (v ++ 0 :: rest) t = none ↔ t <+: v := by
  induction v with
  | nil =>
    intro t
    cases t with
    | nil => simp [streqTails]
    | cons b t => by_cases hb : 0 = b <;> simp [streqTails, hb]
  | cons a v ih =>
    intro t
    rw [List.mem_cons, not_or] at hv
    cases t with
    | nil => simp [streqTails]
    | cons b t =>
      rw [List.cons_append, streqTails, List.cons_prefix_cons]
      by_cases hab : a = b
      · rw [if_pos hab, if_neg (Ne.symm hv.1), ih hv.2]
        simp [hab]
      · simp [hab, Ne.symm hab]

/-- A terminated string can be compared with. -/
theorem streqTails_of_terminated {v : List UInt8} (hv : 0 ∉ v) {t : List UInt8} (ht : 0 ∈ t) :
    ∃ b, streqTails (v ++ [0]) t = some b := by
  rw [← Option.ne_none_iff_exists', Ne, streqTails_eq_none hv]
  exact fun hpre => hv (hpre.mem ht)

theorem streqTails_comm : ∀ t u, streqTails t u = streqTails u t
  | [], [] => rfl
  | [], _ :: _ => rfl
  | _ :: _, [] => rfl
  | a :: as, b :: bs => by
    unfold streqTails
    rw [streqTails_comm as bs]
    by_cases hab : a = b
    · subst hab
      rfl
    · rw [if_neg hab, if_neg (Ne.symm hab)]

/-- The string at the front of a tail. -/
def front (t : List UInt8) : List UInt8 := t.takeWhile (· != 0)

theorem nul_not_mem_front (t : List UInt8) : 0 ∉ front t := by
  intro h
  have := List.mem_takeWhile_imp h
  simp at this

theorem front_append {t : List UInt8} (h : 0 ∈ t) : ∃ rest, t = front t ++ 0 :: rest := by
  unfold front
  induction t with
  | nil => cases h
  | cons b t ih =>
    by_cases hb : b = 0
    · subst hb
      exact ⟨t, by simp⟩
    · obtain ⟨rest, hrest⟩ := ih (by simpa [Ne.symm hb] using h)
      refine ⟨rest, ?_⟩
      rw [List.takeWhile_cons_of_pos (by simp [hb]), List.cons_append, ← hrest]

/-- Comparing terminated strings compares all of them. -/
theorem streqTails_eq {v : List UInt8} (hv : 0 ∉ v) (rest : List UInt8) {t : List UInt8}
    (ht : 0 ∈ t) : streqTails (v ++ 0 :: rest) t = some (decide (front t = v)) := by
  induction v generalizing t with
  | nil =>
    cases t with
    | nil => cases ht
    | cons b t =>
      by_cases hb : 0 = b
      · subst hb
        rfl
      · simp [streqTails, front, hb, Ne.symm hb]
  | cons a v ih =>
    rw [List.mem_cons, not_or] at hv
    cases t with
    | nil => cases ht
    | cons b t =>
      rw [List.cons_append, streqTails]
      by_cases hab : a = b
      · subst hab
        rw [if_pos rfl, if_neg (Ne.symm hv.1), ih hv.2 (by simpa [hv.1] using ht), Option.some_inj,
          decide_eq_decide]
        simp [front, Ne.symm hv.1]
      · rw [if_neg hab]
        by_cases hb : b = 0
        · simp [front, hb]
        · simp [front, hb, Ne.symm hab]

/-- Comparing with a terminated string, in the other order. -/
theorem streqTails_front {t u : List UInt8} (hu : 0 ∈ u) :
    streqTails t u = none ↔ t <+: front u := by
  obtain ⟨rest, hrest⟩ := front_append hu
  rw [streqTails_comm]
  conv_lhs => rw [hrest]
  exact streqTails_eq_none (nul_not_mem_front u) rest t

/-- Looking for `s` runs out of the block just if the block ends within `s`. -/
theorem startsWithTail_eq_none (s : List UInt8) :
    ∀ t, startsWithTail s t = none ↔ t <+: s ∧ t ≠ s := by
  induction s with
  | nil =>
    intro t
    simp [startsWithTail]
  | cons a s ih =>
    intro t
    cases t with
    | nil => simp [startsWithTail]
    | cons b t =>
      rw [startsWithTail, List.cons_prefix_cons]
      by_cases hab : a = b
      · subst hab
        rw [if_pos rfl, ih]
        simp
      · simp [hab, Ne.symm hab]

theorem startsWithTail_eq_true (s : List UInt8) :
    ∀ t, startsWithTail s t = some true ↔ s <+: t := by
  induction s with
  | nil => intro t; simp [startsWithTail]
  | cons a s ih =>
    intro t
    cases t with
    | nil => simp [startsWithTail]
    | cons b t =>
      rw [startsWithTail, List.cons_prefix_cons]
      by_cases hab : a = b
      · rw [if_pos hab, ih]
        simp [hab]
      · simp [hab]

/-- Looking for `s` where the block is long enough. -/
theorem startsWithTail_eq {s t : List UInt8} (h : ¬ (t <+: s ∧ t ≠ s)) :
    startsWithTail s t = some (decide (s <+: t)) := by
  cases hr : startsWithTail s t with
  | none => exact absurd ((startsWithTail_eq_none s t).mp hr) h
  | some r =>
    congr 1
    rw [← Bool.coe_iff_coe, decide_eq_true_eq, ← startsWithTail_eq_true, hr, Option.some_inj]

/-- A string that is equal to another one ends. -/
theorem nul_mem_of_streqTails : ∀ {t u : List UInt8}, streqTails t u = some true → 0 ∈ t
  | a :: as, b :: bs, h => by
    unfold streqTails at h
    split at h
    · split at h
      · next ha => exact ha ▸ List.mem_cons_self
      · exact List.mem_cons_of_mem _ (nul_mem_of_streqTails h)
    · cases h

/-- `strnlen` in bounds. -/
theorem strnlenTail_eq (n : Nat) :
    ∀ t : List UInt8, n ≤ t.length → strnlenTail n t = some ((t.take n).idxOf 0) := by
  induction n with
  | zero => intro t _; rfl
  | succ n ih =>
    intro t ht
    cases t with
    | nil => simp at ht
    | cons b t =>
      rw [strnlenTail, List.take_succ_cons]
      by_cases hb : b = 0
      · subst hb
        simp
      · rw [if_neg hb, ih t (by simpa using ht), List.idxOf_cons_ne _ hb]
        rfl

end Kmod.ByteScan
