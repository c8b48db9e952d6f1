import Mathlib.Data.Nat.Bitwise
import Mathlib.Data.List.TakeWhile

/-!
# Byte strings with numbers and terminated strings in them

Encoders are lists of bytes; decoders take what they need from the front of a
byte string and hand back the rest. A decoder is right for an encoder when it
undoes it whatever follows, so decoders compose as the encodings concatenate.

The second half is about words that carry an address in their low bits and flags
in their high bits.
-/

namespace Kmod.Bytes

/-! ## Big-endian words -/

/-- The four bytes of a 32-bit word, most significant first. -/
def be32 (n : Nat) : List UInt8 :=
  [UInt8.ofNat (n / 2 ^ 24), UInt8.ofNat (n / 2 ^ 16), UInt8.ofNat (n / 2 ^ 8), UInt8.ofNat n]

/-- Take a big-endian word from the front. -/
def takeBe32 : List UInt8 → Option (Nat × List UInt8)
  | b₀ :: b₁ :: b₂ :: b₃ :: rest =>
    some (b₀.toNat * 2 ^ 24 + b₁.toNat * 2 ^ 16 + b₂.toNat * 2 ^ 8 + b₃.toNat, rest)
  | _ => none

@[simp] theorem length_be32 (n : Nat) : (be32 n).length = 4 := rfl

@[simp] theorem takeBe32_be32 (n : Nat) (rest : List UInt8) :
    takeBe32 (be32 n ++ rest) = some (n % 2 ^ 32, rest) := by
  simp only [be32, List.cons_append, List.nil_append, takeBe32, UInt8.toNat_ofNat']
  congr 2
  omega

theorem takeBe32_of_le {s : List UInt8} (h : 4 ≤ s.length) : ∃ w, takeBe32 s = some (w, s.drop 4) :=
  match s, h with
  | _ :: _ :: _ :: _ :: _, _ => ⟨_, rfl⟩

theorem takeBe32_of_lt {s : List UInt8} (h : s.length < 4) : takeBe32 s = none :=
  match s, h with
  | [], _ => rfl
  | [_], _ => rfl
  | [_, _], _ => rfl
  | [_, _, _], _ => rfl

/-! ## Terminated strings -/

/-- Take a string and its terminator from the front. -/
def takeCstr : List UInt8 → Option (List UInt8 × List UInt8)
  | [] => none
  | b :: rest => if b = 0 then some ([], rest) else (takeCstr rest).map (fun p => (b :: p.1, p.2))

@[simp] theorem takeCstr_append {s : List UInt8} (h : 0 ∉ s) (rest : List UInt8) :
    takeCstr (s ++ 0 :: rest) = some (s, rest) := by
  induction s with
  | nil => simp [takeCstr]
  | cons b s ih =>
    rw [List.mem_cons, not_or] at h
    rw [List.cons_append, takeCstr, if_neg (Ne.symm h.1), ih h.2]
    rfl

theorem takeCstr_of_mem {s : List UInt8} (h : 0 ∈ s) : takeCstr s
    = some (s.takeWhile (· ≠ 0), s.drop ((s.takeWhile (· ≠ 0)).length + 1)) := by
  induction s with
  | nil => cases h
  | cons b s ih =>
    rw [takeCstr]
    by_cases hb : b = 0
    · simp [hb]
    · rw [if_neg hb, ih (by simpa [Ne.symm hb] using h),
        List.takeWhile_cons_of_pos (by simpa using hb)]
      rfl

theorem takeCstr_of_notMem {s : List UInt8} (h : 0 ∉ s) : takeCstr s = none := by
  induction s with
  | nil => rfl
  | cons b s ih =>
    rw [List.mem_cons, not_or] at h
    rw [takeCstr, if_neg (Ne.symm h.1), ih h.2]
    rfl

/-! ## Delimiters -/

section Delimiters

variable {e : UInt8}

theorem ne_of_notMem {w : List UInt8} (hw : e ∉ w) : ∀ c ∈ w, decide (c ≠ e) = true := by
  intro c hc
  exact decide_eq_true (fun h => hw (h ▸ hc))

theorem takeWhile_delimiter {w : List UInt8} (hw : e ∉ w) (rest : List UInt8) :
    (w ++ e :: rest).takeWhile (· ≠ e) = w ∧ (w ++ e :: rest).dropWhile (· ≠ e) = e :: rest := by
  rw [List.takeWhile_append_of_pos (ne_of_notMem hw),
    List.dropWhile_append_of_pos (ne_of_notMem hw)]
  simp

/-- A text is taken apart at the first delimiter in one way only. -/
theorem delimiter_inj {w w' rest rest' : List UInt8} (hw : e ∉ w) (hw' : e ∉ w')
    (h : w ++ e :: rest = w' ++ e :: rest') : w = w' ∧ rest = rest' := by
  have htake := (takeWhile_delimiter hw rest).1
  have hdrop := (takeWhile_delimiter hw rest).2
  rw [h] at htake hdrop
  rw [(takeWhile_delimiter hw' rest').1] at htake
  rw [(takeWhile_delimiter hw' rest').2] at hdrop
  exact ⟨htake.symm, (List.cons.inj hdrop).2.symm⟩

theorem idxOf?_delimiter {w : List UInt8} (hw : e ∉ w) (rest : List UInt8) :
    (w ++ e :: rest).idxOf? e = some w.length := by
  induction w with
  | nil => rw [List.nil_append, List.idxOf?_cons, if_pos (beq_self_eq_true e), List.length_nil]
  | cons c w ih =>
    rw [List.mem_cons, not_or] at hw
    rw [List.cons_append, List.idxOf?_cons, if_neg (by simpa using Ne.symm hw.1), ih hw.2]
    rfl

end Delimiters

/-! ## Flags above an address -/

section Flags

variable {k x f : Nat}

theorem or_eq_add (hx : x < 2 ^ k) : x ||| 2 ^ k * f = 2 ^ k * f + x := by
  rw [Nat.or_comm, Nat.two_pow_add_eq_or_of_lt hx]

/-- The address part. -/
theorem or_and_low (hx : x < 2 ^ k) : (x ||| 2 ^ k * f) &&& (2 ^ k - 1) = x := by
  rw [or_eq_add hx, Nat.and_two_pow_sub_one_eq_mod, Nat.mul_add_mod, Nat.mod_eq_of_lt hx]

/-- A single flag. -/
theorem or_and_flag (hx : x < 2 ^ k) (i : Nat) :
    (x ||| 2 ^ k * f) &&& 2 ^ (k + i) ≠ 0 ↔ f.testBit i = true := by
  rw [Nat.and_two_pow, or_eq_add hx, Nat.testBit_two_pow_mul_add _ hx, if_neg (by omega),
    Nat.add_sub_cancel_left]
  cases f.testBit i <;> simp

/-- The word fits if the flags do. -/
theorem or_lt {j : Nat} (hx : x < 2 ^ k) (hf : f < 2 ^ j) : x ||| 2 ^ k * f < 2 ^ (k + j) := by
  rw [or_eq_add hx, Nat.pow_add]
  have : 2 ^ k * f + 2 ^ k ≤ 2 ^ k * 2 ^ j := by
    rw [← Nat.mul_succ]
    exact Nat.mul_le_mul_left _ hf
  omega

end Flags

end Kmod.Bytes
