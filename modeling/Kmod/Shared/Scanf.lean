import Kmod.Shared.Numbers

/-!
# Printing and scanning

A format is a list of directives. `fprintf` prints values with it and `sscanf` takes them out of a
text again, as far as it gets: what it returns are the values it has found when something does
not fit.

What is printed is found again if the words have no blanks and a number is not followed by a
digit (`sscanf_fprintf`).
-/

namespace Kmod.Scanf

open Kmod.Numbers

/-! ## The model -/

/-- A directive of a format. -/
inductive Directive where
  /-- A character that stands for itself. -/
  | lit (c : UInt8)
  /-- A space: any number of blanks. -/
  | blank
  /-- `%s` -/
  | str
  /-- `%c` -/
  | char
  /-- `%u` -/
  | uint
  deriving DecidableEq

/-- What a conversion is for. -/
inductive Value where
  | str (s : CStr)
  | char (c : UInt8)
  | uint (n : Nat)
  deriving DecidableEq

/-- `sscanf`: the values that are found. An `unsigned int` has 32 bits. -/
def sscanf : List Directive → CStr → List Value
  | [], _ => []
  | .lit _ :: _, [] => []
  | .lit c :: format, d :: s => if d = c then sscanf format s else []
  | .blank :: format, s => sscanf format (s.dropWhile isspace)
  | .str :: format, s =>
    let s := s.dropWhile isspace
    let word := s.takeWhile (fun c => !isspace c)
    if word = [] then [] else .str word :: sscanf format (s.drop word.length)
  | .char :: _, [] => []
  | .char :: format, c :: s => .char c :: sscanf format s
  | .uint :: format, s =>
    match scanNumber 10 s with
    | none => []
    | some (_, _, rest) => .uint ((strtoul 10 s).value.toNat % 2 ^ 32) :: sscanf format rest

/-- `fprintf`: what is printed for the values. -/
def fprintf : List Directive → List Value → CStr
  | [], _ => []
  | .lit c :: format, vs => c :: fprintf format vs
  | .blank :: format, vs => 32 :: fprintf format vs
  | .str :: format, .str s :: vs => s ++ fprintf format vs
  | .char :: format, .char c :: vs => c :: fprintf format vs
  | .uint :: format, .uint n :: vs => printNat 10 n ++ fprintf format vs
  | _, _ => []

/-! ## Scanning what was printed -/

/-- A word: it has no blanks. -/
structure Word (s : CStr) : Prop where
  ne_nil : s ≠ []
  chars : ∀ c ∈ s, isspace c = false

/-- What comes next ends a word. -/
def EndsWord (rest : CStr) : Prop := ∀ c ∈ rest.head?, isspace c = true

/-- The values fit the format, and each ends where the next thing begins. -/
inductive Readable : List Directive → List Value → CStr → Prop
  | nil (rest : CStr) : Readable [] [] rest
  | lit {format vs rest} (c : UInt8) : Readable format vs rest → Readable (.lit c :: format) vs rest
  | blank {format vs rest} :
      (∀ c ∈ (fprintf format vs ++ rest).head?, isspace c = false) → Readable format vs rest →
        Readable (.blank :: format) vs rest
  | str {format vs rest s} : Word s → EndsWord (fprintf format vs ++ rest) →
      Readable format vs rest → Readable (.str :: format) (.str s :: vs) rest
  | char {format vs rest} (c : UInt8) : Readable format vs rest →
      Readable (.char :: format) (.char c :: vs) rest
  | uint {format vs rest n} : n < 2 ^ 32 → Stops 10 (fprintf format vs ++ rest) →
      Readable format vs rest → Readable (.uint :: format) (.uint n :: vs) rest

theorem head_of_sscanf_lit {c : UInt8} {format : List Directive} {s : CStr}
    (h : sscanf (.lit c :: format) s ≠ []) : s.head? = some c := by
  cases s with
  | nil => exact absurd rfl h
  | cons d s =>
    by_cases hd : d = c
    · exact congrArg some hd
    · exact absurd (if_neg hd) h

/-- An `unsigned int` has 32 bits. -/
theorem sscanf_uint_lt (format : List Directive) :
    ∀ {s : CStr} {n : Nat}, .uint n ∈ sscanf format s → n < 2 ^ 32 := by
  induction format with
  | nil => exact fun h => absurd h List.not_mem_nil
  | cons d format ih =>
    intro s n h
    cases d with
    | lit c =>
      cases s with
      | nil => exact absurd h List.not_mem_nil
      | cons d s =>
        rw [sscanf] at h
        split at h
        · exact ih h
        · exact absurd h List.not_mem_nil
    | blank => exact ih h
    | str =>
      rw [sscanf] at h
      split at h
      · exact absurd h List.not_mem_nil
      · rcases List.mem_cons.mp h with h | h
        · cases h
        · exact ih h
    | char =>
      cases s with
      | nil => exact absurd h List.not_mem_nil
      | cons c s =>
        rcases List.mem_cons.mp h with h | h
        · cases h
        · exact ih h
    | uint =>
      rw [sscanf] at h
      split at h
      · exact absurd h List.not_mem_nil
      · rcases List.mem_cons.mp h with h | h
        · cases h
          exact Nat.mod_lt _ (by decide)
        · exact ih h

theorem sscanf_word {s rest : CStr} (h : Word s) (hrest : EndsWord rest) (format : List Directive) :
    sscanf (.str :: format) (s ++ rest) = .str s :: sscanf format rest := by
  cases s with
  | nil => exact absurd rfl h.ne_nil
  | cons c s =>
    have hdrop : (c :: s ++ rest).dropWhile isspace = c :: s ++ rest := by
      rw [List.cons_append, List.dropWhile_cons_of_neg]
      simp [h.chars c (List.mem_cons_self ..)]
    have hword : (c :: s ++ rest).takeWhile (fun c => !isspace c) = c :: s := by
      rw [List.takeWhile_append_of_pos (fun c hc => by simp [h.chars c hc])]
      cases rest with
      | nil => rw [List.takeWhile_nil, List.append_nil]
      | cons d rest =>
        rw [List.takeWhile_cons_of_neg (by simp [hrest d rfl]), List.append_nil]
    rw [sscanf, hdrop, hword, if_neg (List.cons_ne_nil c s), List.drop_left]

theorem sscanf_uint {n : Nat} (h : n < 2 ^ 32) {rest : CStr} (hrest : Stops 10 rest)
    (format : List Directive) :
    sscanf (.uint :: format) (printNat 10 n ++ rest) = .uint n :: sscanf format rest := by
  have hscan : scanNumber 10 (printNat 10 n ++ rest) = some (false, n, rest) :=
    scanNumber_printInt (n : Int) hrest
  have hvalue : strtoul 10 (printNat 10 n ++ rest) = ⟨n, rest, false⟩ := by
    unfold strtoul
    rw [hscan]
    exact if_neg (by unfold ULONG_MAX; omega)
  rw [sscanf, hscan, hvalue]
  dsimp only
  rw [Int.toNat_natCast, Nat.mod_eq_of_lt h]

/-- **What is printed is found again.** -/
theorem sscanf_fprintf {format : List Directive} {vs : List Value} {rest : CStr}
    (h : Readable format vs rest) : sscanf format (fprintf format vs ++ rest) = vs := by
  induction h with
  | nil rest => rfl
  | lit c _ ih => exact (if_pos rfl).trans ih
  | @blank format vs rest hnext _ ih =>
    rw [fprintf, sscanf, List.cons_append, List.dropWhile_cons_of_pos (by decide)]
    have hdrop : (fprintf format vs ++ rest).dropWhile isspace = fprintf format vs ++ rest := by
      cases htext : fprintf format vs ++ rest with
      | nil => rfl
      | cons c s =>
        rw [htext] at hnext
        exact List.dropWhile_cons_of_neg (by simp [hnext c rfl])
    rw [hdrop, ih]
  | str hword hend _ ih => rw [fprintf, List.append_assoc, sscanf_word hword hend, ih]
  | char c _ ih => exact congrArg (Value.char c :: ·) ih
  | uint hlt hstops _ ih => rw [fprintf, List.append_assoc, sscanf_uint hlt hstops, ih]

end Kmod.Scanf
