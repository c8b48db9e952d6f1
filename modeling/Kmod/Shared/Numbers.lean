import Kmod.Modprobe.RmmodWait
import Kmod.Shared.ReadSafe

/-!
# Numbers in files

The kernel shows a number as a line of text, and `read_str_long` takes it from there. What is
printed comes back, however the file is read in pieces (`readStrLong_number`).
-/

namespace Kmod.Numbers

open Kmod Kmod.ReadSafe RmmodWait

/-! ## The model -/

/-- The digits of a number, as `printf` writes them with `%u` and `%x`. -/
def printNat (base n : Nat) : CStr := (Nat.toDigits base n).map (fun c => UInt8.ofNat c.toNat)

/-- A number with its sign, as `printf` writes it with `%d`. -/
def printInt (z : Int) : CStr :=
  if z < 0 then 45 :: printNat 10 z.natAbs else printNat 10 z.natAbs

def LONG_MAX : Nat := 9223372036854775807
def ULONG_MAX : Nat := 18446744073709551615

structure StrtolResult where
  value : Int
  /-- What `*endptr` points to. -/
  endptr : CStr
  /-- `errno == ERANGE` -/
  range : Bool
  deriving DecidableEq

/-- The digits behind a prefix `0x`, which base 16 allows. -/
def hexDigits : CStr → CStr
  | 48 :: x :: c :: s =>
    if (x = 120 ∨ x = 88) ∧ (digitValue c).any (· < 16) then c :: s else 48 :: x :: c :: s
  | s => s

/-- What `strtol` and `strtoul` find: whether there is a `-`, the number, and what follows it. -/
def scanNumber (base : Nat) (nptr : CStr) : Option (Bool × Nat × CStr) :=
  let s := nptr.dropWhile isspace
  let unsigned := if s.head? = some 45 ∨ s.head? = some 43 then s.tail else s
  let digits := if base = 16 then hexDigits unsigned else unsigned
  let (n, rest) := scanDigits base 0 digits
  if rest = digits then none else some (s.head? = some 45, n, rest)

/-- `strtol(nptr, &endptr, base)` for the bases 10 and 16, where `long` has 64 bits. -/
def strtol (base : Nat) (nptr : CStr) : StrtolResult :=
  match scanNumber base nptr with
  | none => ⟨0, nptr, false⟩
  | some (true, n, rest) =>
    if LONG_MAX + 1 < n then ⟨-(LONG_MAX + 1 : Nat), rest, true⟩ else ⟨-n, rest, false⟩
  | some (false, n, rest) => if LONG_MAX < n then ⟨LONG_MAX, rest, true⟩ else ⟨n, rest, false⟩

/-- `strtoul(nptr, &endptr, base)` for the bases 10 and 16. -/
def strtoul (base : Nat) (nptr : CStr) : StrtolResult :=
  match scanNumber base nptr with
  | none => ⟨0, nptr, false⟩
  | some (negative, n, rest) =>
    if ULONG_MAX < n then ⟨ULONG_MAX, rest, true⟩
    else ⟨if negative then ((ULONG_MAX + 1 - n) % (ULONG_MAX + 1) : Nat) else n, rest, false⟩

/--
What `read_str_long` and `read_str_ulong` do: what they return, and `*value`. The buffer has 32
bytes. The unsigned number goes through a `long`, which changes nothing.
-/
def readStrNumber (conv : CStr → StrtolResult) (answers : List Answer) (file : List UInt8) :
    Except Fault (Int × Int) := do
  match ← readStrSafe answers (List.replicate 32 7) file with
  | none => .error .outOfFuel
  | some (err, (buf, _)) =>
    if err < 0 then .ok (err, 0)
    else
      let r := conv (buf.takeWhile (· ≠ 0))
      if r.endptr = buf.takeWhile (· ≠ 0) ∨ ¬ r.endptr.head?.any isspace ∨ r.range then
        .ok (-EINVAL, 0)
      else .ok (0, r.value)

/-- `read_str_long` -/
def readStrLong (answers : List Answer) (base : Nat) (file : List UInt8) :
    Except Fault (Int × Int) := readStrNumber (strtol base) answers file

/-- `read_str_ulong` -/
def readStrUlong (answers : List Answer) (base : Nat) (file : List UInt8) :
    Except Fault (Int × Int) := readStrNumber (strtoul base) answers file

/-! ## Digits -/

theorem digitValue_digitChar {d : Nat} (h : d < 16) :
    digitValue (UInt8.ofNat (Nat.digitChar d).toNat) = some d := by
  have hall : ∀ d : Fin 16, digitValue (UInt8.ofNat (Nat.digitChar d).toNat) = some d.val := by
    decide
  exact hall ⟨d, h⟩

/-- **The digits that are printed** are scanned as the number. -/
theorem scanDigits_printNat {base : Nat} (hlow : 1 < base) (hhigh : base ≤ 16) (n : Nat) :
    ∀ (a : Nat) (rest : CStr), scanDigits base a (printNat base n ++ rest)
      = scanDigits base (a * base ^ (printNat base n).length + n) rest := by
  induction n using Nat.strong_induction_on with
  | _ n ih =>
    intro a rest
    have hdigit : ∀ {d : Nat}, d < base → ∀ (a : Nat) (rest : CStr),
        scanDigits base a (UInt8.ofNat (Nat.digitChar d).toNat :: rest)
          = scanDigits base (a * base + d) rest := by
      intro d hd a rest
      rw [scanDigits, digitValue_digitChar (Nat.lt_of_lt_of_le hd hhigh)]
      exact if_pos hd
    by_cases hn : n < base
    · have hone : printNat base n = [UInt8.ofNat (Nat.digitChar n).toNat] := by
        unfold printNat
        rw [Nat.toDigits_of_lt_base hn]
        rfl
      rw [hone]
      exact (hdigit hn a rest).trans (by simp)
    · have hle : base ≤ n := Nat.not_lt.mp hn
      have hmore : printNat base n = printNat base (n / base) ++
          [UInt8.ofNat (Nat.digitChar (n % base)).toNat] := by
        unfold printNat
        rw [Nat.toDigits_of_base_le hlow hle, List.map_append]
        rfl
      have hdiv := Nat.div_add_mod n base
      rw [hmore, List.append_assoc, ih (n / base) (Nat.div_lt_self (by omega) hlow),
        List.singleton_append, hdigit (Nat.mod_lt _ (by omega)), List.length_append,
        List.length_singleton, pow_succ]
      congr 1
      calc (a * base ^ (printNat base (n / base)).length + n / base) * base + n % base
          = a * base ^ (printNat base (n / base)).length * base +
              (base * (n / base) + n % base) := by
            rw [Nat.add_mul, Nat.mul_comm base (n / base), Nat.add_assoc]
        _ = a * (base ^ (printNat base (n / base)).length * base) + n := by
            rw [hdiv, Nat.mul_assoc]

/-- What follows a number, so that no digit is added to it. -/
def Stops (base : Nat) (rest : CStr) : Prop := ∀ c ∈ rest.head?, ∀ d ∈ digitValue c, base ≤ d

theorem scanDigits_stops {base : Nat} {rest : CStr} (h : Stops base rest) (n : Nat) :
    scanDigits base n rest = (n, rest) := by
  cases rest with
  | nil => rfl
  | cons c rest =>
    rw [scanDigits]
    cases hd : digitValue c with
    | none => rfl
    | some d => exact if_neg (Nat.not_lt.mpr (h c rfl d hd))

theorem stops_newline {base : Nat} (rest : CStr) : Stops base (10 :: rest) := by
  intro c hc d hd
  obtain rfl : c = 10 := (Option.some.inj hc).symm
  exact absurd (show none = some d from hd) (Option.some_ne_none d).symm

theorem printNat_ne_nil (base n : Nat) : printNat base n ≠ [] := by
  unfold printNat
  rw [Ne, List.map_eq_nil_iff]
  exact Nat.toDigits_ne_nil

theorem ne_append_of_ne_nil {text : CStr} (h : text ≠ []) (rest : CStr) : rest ≠ text ++ rest := by
  intro heq
  have hlen := congrArg List.length heq
  rw [List.length_append] at hlen
  exact h (List.eq_nil_of_length_eq_zero (by omega))

theorem digit_of_mem_printNat {n : Nat} : ∀ c ∈ printNat 10 n, 48 ≤ c ∧ c ≤ 57 := by
  intro c hc
  obtain ⟨d, hd, rfl⟩ := List.mem_map.mp hc
  have hdigit := Nat.isDigit_of_mem_toDigits (by decide) (Nat.le_refl 10) hd
  have hbounds : 48 ≤ d.toNat ∧ d.toNat ≤ 57 := by
    simp only [Char.isDigit, Bool.and_eq_true, decide_eq_true_eq] at hdigit
    exact ⟨UInt32.le_iff_toNat_le.mp hdigit.1, UInt32.le_iff_toNat_le.mp hdigit.2⟩
  refine ⟨?_, ?_⟩
  · rw [UInt8.le_iff_toNat_le, UInt8.toNat_ofNat']
    show 48 ≤ d.toNat % 256
    omega
  · rw [UInt8.le_iff_toNat_le, UInt8.toNat_ofNat']
    show d.toNat % 256 ≤ 57
    omega

theorem isspace_of_digit {c : UInt8} (h : 48 ≤ c ∧ c ≤ 57) : isspace c = false := by
  have hle := UInt8.le_iff_toNat_le.mp h.1
  have hne : ∀ d : UInt8, d.toNat < 48 → c ≠ d := by
    rintro d hd rfl
    exact absurd hle (Nat.not_le.mpr hd)
  have hgt : ¬ c ≤ 13 := fun h => by
    have := UInt8.le_iff_toNat_le.mp h
    exact absurd (Nat.le_trans hle this) (by decide)
  simp [isspace, hne, hgt]

/-- **A number in front of something else** is found, with its sign. -/
theorem scanNumber_printInt (z : Int) {rest : CStr} (hrest : Stops 10 rest) :
    scanNumber 10 (printInt z ++ rest) = some (decide (z < 0), z.natAbs, rest) := by
  have hscan := (scanDigits_printNat (show 1 < 10 by decide) (by decide) z.natAbs 0 rest).trans
    (scanDigits_stops hrest _)
  rw [Nat.zero_mul, Nat.zero_add] at hscan
  have hne : rest ≠ printNat 10 z.natAbs ++ rest :=
    ne_append_of_ne_nil (printNat_ne_nil 10 z.natAbs) rest
  cases hdigits : printNat 10 z.natAbs with
  | nil => exact absurd hdigits (printNat_ne_nil 10 _)
  | cons c cs =>
    have hc : 48 ≤ c ∧ c ≤ 57 := digit_of_mem_printNat c (hdigits ▸ List.mem_cons_self ..)
    have hle := UInt8.le_iff_toNat_le.mp hc.1
    have hminus : c ≠ 45 := by
      rintro rfl
      exact absurd hle (by decide)
    have hplus : c ≠ 43 := by
      rintro rfl
      exact absurd hle (by decide)
    rw [hdigits] at hscan hne
    unfold scanNumber
    by_cases hz : z < 0
    · have htext : printInt z ++ rest = 45 :: (c :: cs ++ rest) := by
        rw [printInt, if_pos hz, hdigits]
        rfl
      rw [htext, List.dropWhile_cons_of_neg (by decide)]
      simp only [List.head?_cons, true_or, if_true, List.tail_cons]
      rw [if_neg (show ¬ (10 : Nat) = 16 by decide), hscan]
      dsimp only
      rw [if_neg hne, decide_eq_true hz, decide_true]
    · have htext : printInt z ++ rest = c :: cs ++ rest := by
        rw [printInt, if_neg hz, hdigits]
      rw [htext, List.cons_append, List.dropWhile_cons_of_neg (by simp [isspace_of_digit hc])]
      rw [List.cons_append] at hscan hne
      simp only [List.head?_cons, Option.some.injEq, hminus, hplus, or_self, if_false]
      rw [if_neg (show ¬ (10 : Nat) = 16 by decide), hscan]
      dsimp only
      rw [if_neg hne, decide_eq_false hz, decide_eq_false id]

theorem strtol_printInt {z : Int} (hlow : -(LONG_MAX + 1 : Nat) ≤ z) (hhigh : z ≤ LONG_MAX)
    {rest : CStr} (hrest : Stops 10 rest) : strtol 10 (printInt z ++ rest) = ⟨z, rest, false⟩ := by
  unfold strtol
  rw [scanNumber_printInt z hrest]
  by_cases hz : z < 0
  · rw [decide_eq_true hz]
    dsimp only
    rw [if_neg (by omega)]
    congr 1
    omega
  · rw [decide_eq_false hz]
    dsimp only
    rw [if_neg (by omega)]
    congr 1
    omega

/-! ## A file with a number -/

/-- The system delivers what is read: no errors, and more than `total` transfers. -/
def Delivers (total : Nat) (answers : List Answer) : Prop :=
  (∀ a ∈ answers, a.retry = true ∨ ∃ n, a = .got n) ∧
    total < (answers.filter (fun a => !a.retry)).length

/-- What `read_str_safe` gives then. -/
theorem readStrSafe_delivered {answers : List Answer} {buf : List UInt8} (hbuf : buf ≠ [])
    (h : Delivers (buf.length - 1) answers) (file : List UInt8) :
    ∃ rest, readStrSafe answers buf file = .ok (some ((file.take (buf.length - 1)).length,
      (textIn (file.take (buf.length - 1)) buf, rest))) := by
  obtain ⟨out, hrun, hreads, -⟩ := readStrSafe_reads answers hbuf file
  cases out with
  | none =>
    rcases hreads.2 with rfl | hfew
    · exact absurd h.2 (Nat.not_lt_zero _)
    · exact absurd hfew (Nat.lt_asymm h.2)
  | some out =>
    obtain ⟨ret, buf', rest⟩ := out
    rcases hreads with ⟨errno, pos, hmem, hretry, -⟩ | ⟨rfl, hbuf'⟩
    · rcases h.1 _ hmem with htrue | ⟨n, hn⟩
      · exact absurd (hretry.symm.trans htrue) (by decide)
      · exact absurd hn (by simp)
    · obtain rfl : buf' = _ := hbuf'
      exact ⟨rest, hrun⟩

theorem length_printNat_le {base n k : Nat} (hbase : 1 < base) (h : n < base ^ (k + 1)) :
    (printNat base n).length ≤ k + 1 := by
  unfold printNat
  rw [List.length_map]
  exact (Nat.length_toDigits_le_iff hbase (Nat.succ_pos k)).mpr h

theorem mem_printInt {z : Int} : ∀ c ∈ printInt z, c = 45 ∨ 48 ≤ c ∧ c ≤ 57 := by
  intro c hc
  unfold printInt at hc
  split at hc
  · rcases List.mem_cons.mp hc with rfl | hc
    · exact .inl rfl
    · exact .inr (digit_of_mem_printNat c hc)
  · exact .inr (digit_of_mem_printNat c hc)

theorem ne_zero_of_mem_printInt {z : Int} : ∀ c ∈ printInt z, c ≠ 0 ∧ c ≠ 10 ∧ c ≠ 32 ∧ c ≠ 9 := by
  intro c hc
  rcases mem_printInt c hc with rfl | ⟨hle, -⟩
  · decide
  · have hlow := UInt8.le_iff_toNat_le.mp hle
    refine ⟨?_, ?_, ?_, ?_⟩ <;> · rintro rfl; exact absurd hlow (by decide)

/-- A text that fits into the buffer is read as a whole, however the file is read in pieces. -/
theorem readStrSafe_text {answers : List Answer} (hanswers : Delivers 31 answers) {text : CStr}
    (hlen : text.length ≤ 31) (hnul : ∀ c ∈ text, c ≠ 0) :
    ∃ buf left, readStrSafe answers (List.replicate 32 7) text
      = .ok (some (text.length, (buf, left))) ∧ buf.takeWhile (· ≠ 0) = text := by
  have hbuf : List.replicate 32 (7 : UInt8) ≠ [] := by simp
  obtain ⟨left, hread⟩ := readStrSafe_delivered hbuf (by rwa [List.length_replicate]) text
  rw [List.length_replicate, List.take_of_length_le hlen] at hread
  refine ⟨_, left, hread, ?_⟩
  unfold textIn
  rw [List.takeWhile_append_of_pos (fun c hc => decide_eq_true (hnul c hc)),
    List.takeWhile_cons_of_neg (by decide), List.append_nil]

theorem readStrNumber_text {answers : List Answer} (hanswers : Delivers 31 answers)
    {conv : CStr → StrtolResult} {text rest : CStr} {value : Int} (hlen : text.length ≤ 31)
    (hnul : ∀ c ∈ text, c ≠ 0) (hconv : conv text = ⟨value, rest, false⟩) (hne : rest ≠ text)
    (hspace : rest.head?.any isspace = true) :
    readStrNumber conv answers text = .ok (0, value) := by
  obtain ⟨buf, left, hread, htext⟩ := readStrSafe_text hanswers hlen hnul
  unfold readStrNumber
  rw [hread]
  have hnonneg : ¬ (text.length : Int) < 0 := by omega
  simp only [bind, Except.bind]
  rw [if_neg hnonneg, htext, hconv]
  refine if_neg ?_
  rintro (h | h | h)
  · exact hne h
  · exact h hspace
  · exact Bool.false_ne_true h

theorem printInt_ne_nil (z : Int) : printInt z ≠ [] := by
  unfold printInt
  split
  · exact List.cons_ne_nil _ _
  · exact printNat_ne_nil 10 _

/-- **A line with a number** is read as the number. -/
theorem readStrLong_number {answers : List Answer} (hanswers : Delivers 31 answers) {z : Int}
    (hlow : -(LONG_MAX + 1 : Nat) ≤ z) (hhigh : z ≤ LONG_MAX) :
    readStrLong answers 10 (printInt z ++ cstr "\n") = .ok (0, z) := by
  have hlen : (printInt z).length ≤ 20 := by
    have hdigits : (printNat 10 z.natAbs).length ≤ 19 := by
      refine length_printNat_le (k := 18) (by decide) ?_
      unfold LONG_MAX at hlow hhigh
      omega
    unfold printInt
    split
    · exact Nat.succ_le_succ hdigits
    · exact Nat.le_succ_of_le hdigits
  refine @readStrNumber_text _ hanswers _ _ (cstr "\n") _ ?_ ?_ ?_ ?_ rfl
  · rw [List.length_append]
    exact Nat.add_le_add hlen (show (cstr "\n").length ≤ 11 by decide)
  · intro c hc
    rcases List.mem_append.mp hc with hc | hc
    · exact (ne_zero_of_mem_printInt c hc).1
    · obtain rfl : c = 10 := List.mem_singleton.mp hc
      decide
  · exact strtol_printInt hlow hhigh (stops_newline [])
  · exact ne_append_of_ne_nil (printInt_ne_nil z) _

/-- The digits of `%0*x`. -/
def hexPadded (width n : Nat) : CStr :=
  List.replicate (width - (printNat 16 n).length) 48 ++ printNat 16 n

/-- `0x%0*x` -/
def printHex (width n : Nat) : CStr := cstr "0x" ++ hexPadded width n

/-- An address, as the kernel shows it. -/
def printAddress (n : Nat) : CStr := printHex 16 n

theorem scanDigits_zeros (k : Nat) (rest : CStr) :
    scanDigits 16 0 (List.replicate k 48 ++ rest) = scanDigits 16 0 rest := by
  induction k with
  | zero => rfl
  | succ k ih => exact ih

theorem digit_of_mem_hex {n : Nat} : ∀ c ∈ printNat 16 n, (digitValue c).any (· < 16) = true := by
  induction n using Nat.strong_induction_on with
  | _ n ih =>
    have hdigit : ∀ {d : Nat}, d < 16 →
        (digitValue (UInt8.ofNat (Nat.digitChar d).toNat)).any (· < 16) = true := by
      intro d hd
      rw [digitValue_digitChar hd]
      exact decide_eq_true hd
    intro c hc
    by_cases hn : n < 16
    · unfold printNat at hc
      rw [Nat.toDigits_of_lt_base hn] at hc
      obtain rfl := List.mem_singleton.mp hc
      exact hdigit hn
    · unfold printNat at hc
      rw [Nat.toDigits_of_base_le (by decide) (Nat.not_lt.mp hn), List.map_append] at hc
      rcases List.mem_append.mp hc with hc | hc
      · exact ih (n / 16) (by omega) c hc
      · obtain rfl := List.mem_singleton.mp hc
        exact hdigit (Nat.mod_lt _ (by decide))

theorem mem_hexPadded {width n : Nat} :
    ∀ c ∈ hexPadded width n, (digitValue c).any (· < 16) = true := by
  intro c hc
  rcases List.mem_append.mp hc with hc | hc
  · obtain rfl := List.eq_of_mem_replicate hc
    decide
  · exact digit_of_mem_hex c hc

theorem hexPadded_ne_nil (width n : Nat) : hexPadded width n ≠ [] :=
  List.append_ne_nil_of_right_ne_nil _ (printNat_ne_nil 16 n)

/-- **A number in base 16** is found behind its prefix. -/
theorem scanNumber_printHex (width n : Nat) {rest : CStr} (hrest : Stops 16 rest) :
    scanNumber 16 (printHex width n ++ rest) = some (false, n, rest) := by
  have hscan : scanDigits 16 0 (hexPadded width n ++ rest) = (n, rest) := by
    unfold hexPadded
    rw [List.append_assoc, scanDigits_zeros, scanDigits_printNat (by decide) (by decide),
      Nat.zero_mul, Nat.zero_add]
    exact scanDigits_stops hrest n
  have hne : rest ≠ hexPadded width n ++ rest :=
    ne_append_of_ne_nil (hexPadded_ne_nil width n) rest
  have htext : printHex width n ++ rest = 48 :: 120 :: (hexPadded width n ++ rest) := rfl
  have hhex : hexDigits (48 :: 120 :: (hexPadded width n ++ rest)) = hexPadded width n ++ rest := by
    cases hdigits : hexPadded width n with
    | nil => exact absurd hdigits (hexPadded_ne_nil width n)
    | cons c cs =>
      have hc := mem_hexPadded c (hdigits ▸ List.mem_cons_self ..)
      exact if_pos ⟨.inl rfl, hc⟩
  unfold scanNumber
  rw [htext, List.dropWhile_cons_of_neg (by decide)]
  have hsign : ¬ ((48 :: 120 :: (hexPadded width n ++ rest)).head? = some 45 ∨
      (48 :: 120 :: (hexPadded width n ++ rest)).head? = some 43) := by
    rintro (h | h) <;> exact absurd (Option.some.inj h) (by decide)
  dsimp only
  rw [if_neg hsign, if_pos rfl, hhex, hscan]
  exact if_neg hne

theorem strtoul_printHex {width n : Nat} (h : n ≤ ULONG_MAX) {rest : CStr}
    (hrest : Stops 16 rest) : strtoul 16 (printHex width n ++ rest) = ⟨n, rest, false⟩ := by
  unfold strtoul
  rw [scanNumber_printHex width n hrest]
  exact if_neg (Nat.not_lt.mpr h)

theorem stops_nil (base : Nat) : Stops base [] :=
  fun _ h => absurd (show none = some _ from h) (Option.some_ne_none _).symm

/-- **A line with an address** is read as the address. -/
theorem readStrUlong_address {answers : List Answer} (hanswers : Delivers 31 answers) {n : Nat}
    (h : n ≤ ULONG_MAX) : readStrUlong answers 16 (printAddress n ++ cstr "\n") = .ok (0, n) := by
  have hlen : (hexPadded 16 n).length = 16 := by
    have hle : (printNat 16 n).length ≤ 16 := by
      refine length_printNat_le (k := 15) (by decide) ?_
      unfold ULONG_MAX at h
      omega
    unfold hexPadded
    rw [List.length_append, List.length_replicate]
    omega
  refine @readStrNumber_text _ hanswers _ _ (cstr "\n") _ ?_ ?_ ?_ ?_ rfl
  · show (cstr "0x" ++ hexPadded 16 n ++ cstr "\n").length ≤ 31
    rw [List.length_append, List.length_append, hlen]
    decide
  · intro c hc
    have hmem : c ∈ cstr "0x" ++ (hexPadded 16 n ++ cstr "\n") := hc
    rintro rfl
    rcases List.mem_append.mp hmem with hc | hc
    · exact absurd hc (by decide)
    · rcases List.mem_append.mp hc with hc | hc
      · exact absurd (mem_hexPadded 0 hc) (by decide)
      · exact absurd hc (by decide)
  · exact strtoul_printHex h (stops_newline [])
  · exact ne_append_of_ne_nil (List.append_ne_nil_of_left_ne_nil (by decide) _) _

end Kmod.Numbers
