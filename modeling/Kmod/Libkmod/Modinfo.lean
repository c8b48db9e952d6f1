import Kmod.Lib.Segments
import Kmod.Lib.Traced
import Kmod.Libkmod.ElfAccessors

/-!
# The strings of `.modinfo`

`kmod_elf_get_modinfo_strings` gives the strings of the `.modinfo` section as an array of
pointers into a copy of the section. It goes over the section twice: once to count the
strings, and once over the copy to set the pointers. The two loops do not treat runs of
NULs in the same way. That they agree is proved round by round, a round being a string
and the NULs behind it.

The counting loop looks at a byte before it tests the index, so it can read the byte
behind the section. The memory of the process is the file and what lies `behind` it, and
the reads are recorded: the strings do not depend on that byte, and when it is read is
said by `within_countModinfo`.
-/

namespace Kmod

open Kmod.ByteScan Kmod.Segments

/-! ## The source -/

/-- The memory from the start of the file on. -/
def KmodElf.mapped (elf : KmodElf) (behind : List UInt8) : List UInt8 := elf.memory ++ behind

/-- Skip zero padding: the offset and the size of what is left. -/
def skipPadding (mem : List UInt8) : Nat → Nat → Traced (Nat × Nat)
  | strings, 0 => pure (strings, 0)
  | strings, 1 => pure (strings, 1)
  | strings, size + 2 => do
    let c ← readByte mem strings
    if c = 0 then skipPadding mem (strings + 1) (size + 1) else pure (strings, size + 2)

/--
`while (strings[i] == '\0' && i < size)`: the index behind the NULs. The byte is read
first; `left` is `size - i`.
-/
def skipNuls (mem : List UInt8) (strings : Nat) : Nat → Nat → Traced Nat
  | 0, i => do
    let _ ← readByte mem (strings + i)
    pure i
  | left + 1, i => do
    let c ← readByte mem (strings + i)
    if c = 0 then skipNuls mem strings left (i + 1) else pure i

/-- The counting loop: `i` and `count` behind it. A round moves `i`, so `size` of them do. -/
def countStrings (mem : List UInt8) (strings size : Nat) : Nat → Nat → Nat → Traced (Nat × Nat)
  | 0, i, count => pure (i, count)
  | fuel + 1, i, count =>
    if i < size then do
      let c ← readByte mem (strings + i)
      if c ≠ 0 then countStrings mem strings size fuel (i + 1) count
      else do
        let i ← skipNuls mem strings (size - i) i
        countStrings mem strings size fuel i (count + 1)
    else pure (i, count)

/-- The number of strings, with one that does not end. -/
def stringsCount (mem : List UInt8) (strings size : Nat) : Traced Nat := do
  let (i, count) ← countStrings mem strings size size 0 0
  let last ← readByte mem (strings + (i - 1))
  pure (if last ≠ 0 then count + 1 else count)

/-- A pointer in the array. -/
inductive StringPtr where
  | unset
  | null
  /-- A place in the copy of the section. -/
  | into (i : Nat)
  deriving DecidableEq, Repr

/-- What is allocated: the pointers, and the copy they point into. -/
structure ModinfoArray where
  a : List StringPtr
  s : List UInt8
  deriving DecidableEq, Repr

/-- `while (i < size && s[i] == '\0')`: the index behind the NULs; `left` is `size - i`. -/
def skipCopied (s : List UInt8) : Nat → Nat → Nat
  | 0, i => i
  | left + 1, i => if s.getD i 0 = 0 then skipCopied s left (i + 1) else i

/-- The splitting loop; `size` rounds are enough. -/
def splitStrings (s : List UInt8) (size count : Nat) :
    Nat → Nat → Nat → List StringPtr → List StringPtr
  | 0, _, _, a => a
  | fuel + 1, i, j, a =>
    if j < count ∧ i < size then
      if s.getD i 0 ≠ 0 then splitStrings s size count fuel (i + 1) j a
      else
        let i := skipCopied s (size - i) i
        splitStrings s size count fuel i (j + 1) (a.set j (.into i))
    else a

/-- The array for a copy of the section without its padding. -/
def modinfoArray (strings : List UInt8) (count : Nat) : ModinfoArray :=
  let size := strings.length
  -- make sure the last string is NULL-terminated
  let s := strings ++ [0]
  let a := ((List.replicate (count + 1) .unset).set count .null).set 0 (.into 0)
  ⟨splitStrings s size count size 0 1 a, s⟩

/-- The first half: what is left without the padding and the strings in it, if anything is. -/
def countModinfo (mem : List UInt8) (off size : Nat) : Traced (Option (Nat × Nat × Nat)) := do
  let (strings, size) ← skipPadding mem off size
  if size ≤ 1 then pure none
  else do
    let count ← stringsCount mem strings size
    pure (some (strings, size, count))

/-- The second half. -/
def copyModinfo (mem : List UInt8) (strings size count : Nat) : Traced ModinfoArray := do
  let copy ← readRange mem strings size
  pure (modinfoArray copy count)

/-- Both halves: the strings of a range of the memory. -/
def splitModinfo (mem : List UInt8) (off size : Nat) : Traced (Option ModinfoArray) := do
  match ← countModinfo mem off size with
  | none => pure none
  | some (strings, size, count) => do
    let array ← copyModinfo mem strings size count
    pure (some array)

/-- (string vector + NULL) * sizeof(char *) + size + NUL does not fit a `size_t`. -/
def modinfoOverflow (size count : Nat) : Bool :=
  decide (count + 1 > SIZE_MAX ∨ 8 * (count + 1) > SIZE_MAX ∨ size + 8 * (count + 1) > SIZE_MAX ∨
    1 + (size + 8 * (count + 1)) > SIZE_MAX)

/-- `kmod_elf_get_modinfo_strings`: the return value and `*array`. -/
def kmodElfGetModinfoStrings (malloc : Bool) (behind : List UInt8) (elf : KmodElf) :
    Traced (Except Int (Int × Option ModinfoArray)) :=
  let sec := elf.sections .modinfo
  if sec.offset = 0 then pure (.error (-ENODATA))
  else do
    match ← countModinfo (elf.mapped behind) sec.offset sec.size with
    | none => pure (.ok (0, none))
    | some (strings, size, count) =>
      if modinfoOverflow size count then pure (.error (-ENOMEM))
      else if malloc = false then pure (.error (-ENOMEM))
      else do
        let array ← copyModinfo (elf.mapped behind) strings size count
        pure (.ok (int32 count, some array))

/-! ## The padding -/

section
variable {mem : List UInt8} {lo hi : Nat}

/-- The bytes after the leading NULs. -/
def unpadded (l : List UInt8) : List UInt8 := l.dropWhile (· == 0)

theorem unpadded_head (l : List UInt8) : (unpadded l).head? ≠ some 0 := by
  intro h
  unfold unpadded at h
  have := List.head?_dropWhile_not (· == (0 : UInt8)) l
  rw [h] at this
  simp at this

/-- What is left is a byte at most, or the section without its leading NULs. -/
theorem skipPadding_spec : ∀ (l : List UInt8) (off : Nat), l <+: mem.drop off → lo ≤ off →
    off + l.length ≤ hi →
    (skipPadding mem off l.length).Within lo hi ∧
      (((unpadded l).length ≤ 1 ∧ (skipPadding mem off l.length).val.2 ≤ 1) ∨
        (1 < (unpadded l).length ∧
          (skipPadding mem off l.length).val =
            (off + (l.length - (unpadded l).length), (unpadded l).length)))
  | [], off, _, _, _ => ⟨by simp [skipPadding], .inl ⟨by simp [unpadded], by simp [skipPadding]⟩⟩
  | [b], off, _, _, _ => by
    refine ⟨by simp [skipPadding], .inl ⟨?_, by simp [skipPadding]⟩⟩
    exact (List.dropWhile_suffix _).length_le
  | b :: c :: l, off, h, hlo, hhi => by
    rw [List.length_cons] at hhi
    have hagree : Traced.Agree lo hi (skipPadding mem off (b :: c :: l).length)
        (if b = 0 then skipPadding mem (off + 1) (c :: l).length
          else pure (off, (b :: c :: l).length)) :=
      agree_readByte h hlo (by omega) _
    unfold Traced.Agree at hagree
    rw [hagree.1, hagree.2]
    by_cases hb : b = 0
    · have ih := skipPadding_spec (c :: l) (off + 1) (prefix_drop_succ h) (by omega) (by omega)
      have hle : (unpadded (c :: l)).length ≤ (c :: l).length :=
        (List.dropWhile_suffix _).length_le
      have hdrop : unpadded (b :: c :: l) = unpadded (c :: l) :=
        List.dropWhile_cons_of_pos (by simp [hb])
      rw [if_pos hb, hdrop]
      refine ⟨ih.1, ih.2.imp_right ?_⟩
      intro ⟨h1, hval⟩
      refine ⟨h1, hval.trans ?_⟩
      rw [Prod.mk.injEq, List.length_cons (a := b)]
      exact ⟨by omega, rfl⟩
    · have hkeep : unpadded (b :: c :: l) = b :: c :: l :=
        List.dropWhile_cons_of_neg (by simp [hb])
      rw [if_neg hb, hkeep]
      refine ⟨by simp, .inr ⟨by simp, ?_⟩⟩
      rw [Nat.sub_self]
      rfl

/-! ## Counting -/

variable {strings size : Nat}

/-- The loop over NULs reads the byte behind them, also if the section ends there. -/
theorem skipNuls_spec {l : List UInt8} (hl : l.head? ≠ some 0) (k i : Nat)
    (h : List.replicate k 0 ++ l <+: mem.drop (strings + i)) (hlo : lo ≤ strings + i)
    (hhi : hi = strings + (i + k) + l.length) :
    (skipNuls mem strings (k + l.length) i).val = i + k ∧
      ((skipNuls mem strings (k + l.length) i).Within lo hi ↔ l ≠ []) := by
  induction k generalizing i with
  | zero =>
    cases l with
    | nil => simp [skipNuls, hhi]
    | cons b l =>
      have hb : b ≠ 0 := by simpa using hl
      rw [List.length_cons] at hhi
      have hagree : Traced.Agree lo hi (skipNuls mem strings (0 + (b :: l).length) i)
          (if b = 0 then skipNuls mem strings (0 + l.length) (i + 1) else pure i) :=
        agree_readByte h hlo (by omega) _
      unfold Traced.Agree at hagree
      rw [hagree.1, hagree.2, if_neg hb]
      simp
  | succ k ih =>
    rw [List.replicate_succ, List.cons_append] at h
    have hagree : Traced.Agree lo hi (skipNuls mem strings (k + l.length + 1) i)
        (skipNuls mem strings (k + l.length) (i + 1)) :=
      agree_readByte h hlo (by omega) _
    have hrest := ih (i + 1) (prefix_drop_succ h) (by omega) (by omega)
    unfold Traced.Agree at hagree
    rw [Nat.add_right_comm, hagree.1, hagree.2]
    exact ⟨by omega, hrest.2⟩

/-- The counting loop goes over a string. -/
theorem countStrings_word {l : List UInt8} (fuel count : Nat) : ∀ (w : List UInt8) (i : Nat),
    0 ∉ w → w ++ l <+: mem.drop (strings + i) → lo ≤ strings + i → i + w.length ≤ size →
    strings + size ≤ hi →
    Traced.Agree lo hi (countStrings mem strings size (fuel + w.length) i count)
      (countStrings mem strings size fuel (i + w.length) count)
  | [], i, _, _, _, _, _ => .refl _
  | b :: w, i, hw, h, hlo, hsize, hhi => by
    rw [List.mem_cons, not_or] at hw
    rw [List.length_cons] at hsize
    have hstep : Traced.Agree lo hi (countStrings mem strings size (fuel + (b :: w).length) i count)
        (countStrings mem strings size (fuel + w.length) (i + 1) count) := by
      rw [List.length_cons, ← Nat.add_assoc, countStrings, if_pos (by omega)]
      refine (agree_readByte h hlo (by omega) _).trans ?_
      rw [if_pos (Ne.symm hw.1)]
      exact .refl _
    refine hstep.trans ?_
    have hrest := countStrings_word fuel count w (i + 1) hw.2 (prefix_drop_succ h) (by omega)
      (by omega) hhi
    rwa [Nat.add_right_comm, Nat.add_assoc i] at hrest

/-- The loop is at the end. -/
theorem countStrings_end {i : Nat} (hend : size ≤ i) (fuel count : Nat) :
    countStrings mem strings size fuel i count = pure (i, count) := by
  cases fuel with
  | zero => rfl
  | succ fuel => exact if_neg (by omega)

/--
The counting loop counts the strings that are followed by a NUL. It stays in the section
unless a NUL is the last byte of it.
-/
theorem countStrings_spec (hlo : lo ≤ strings) (hhi : hi = strings + size) :
    ∀ l : List UInt8, l.head? ≠ some 0 → ∀ fuel i count, l.length ≤ fuel → i + l.length = size →
      l <+: mem.drop (strings + i) →
      (countStrings mem strings size fuel i count).val =
          (size, count + (segments 0 (closedPart 0 l)).length) ∧
        ((countStrings mem strings size fuel i count).Within lo hi ↔ l = [] ∨
          openTail 0 l ≠ []) := by
  refine rounds_induction ?_ ?_ ?_
  · intro fuel i count _ hsize _
    rw [countStrings_end (show size ≤ i by simpa using hsize.ge)]
    simp [← hsize, closedPart]
  · intro w hw h0 fuel i count hfuel hsize h
    obtain ⟨fuel, rfl⟩ := Nat.exists_eq_add_of_le' hfuel
    have hword : Traced.Agree lo hi _ _ := countStrings_word (l := []) fuel count w i h0
      (by simpa using h) (by omega) hsize.le hhi.ge
    unfold Traced.Agree at hword
    rw [hword.1, hword.2, countStrings_end hsize.ge, closedPart_word h0, openTail_word h0]
    simp [hsize, hw]
  · intro w k l hw h0 hk hl ih fuel i count hfuel hsize h
    rw [List.length_append, List.length_append, List.length_replicate] at hfuel hsize
    obtain ⟨fuel, rfl⟩ : ∃ f, fuel = f + 1 + w.length := ⟨fuel - w.length - 1, by omega⟩
    have hword : Traced.Agree lo hi _ _ := countStrings_word (fuel + 1) count w i h0 h (by omega)
      (by omega) hhi.ge
    have hnuls := prefix_drop_add h
    rw [Nat.add_assoc] at hnuls
    -- the first NUL behind the string is seen by the outer loop, and again by the inner one
    have hfirst : Traced.Agree lo hi (countStrings mem strings size (fuel + 1) (i + w.length) count)
        (skipNuls mem strings (k + l.length) (i + w.length) >>= fun i =>
          countStrings mem strings size fuel i (count + 1)) := by
      rw [countStrings, if_pos (by omega), show size - (i + w.length) = k + l.length by omega]
      obtain ⟨k, rfl⟩ := Nat.exists_eq_succ_of_ne_zero hk.ne'
      exact agree_readByte hnuls (by omega) (by omega) _
    have hskip : _ ∧ (Traced.Within lo hi _ ↔ _) :=
      skipNuls_spec hl k (i + w.length) hnuls (by omega) (by omega)
    have hrest := ih fuel (i + w.length + k) (count + 1) (by omega) (by omega)
      (by simpa [Nat.add_assoc] using prefix_drop_add hnuls)
    have hround := hword.trans hfirst
    unfold Traced.Agree at hround
    rw [hround.1, hround.2, Traced.val_bind, Traced.within_bind, hskip.1, hskip.2, hrest.1, hrest.2,
      closedPart_round w hk, openTail_round w hk, segments_round hw h0 hk, List.length_cons]
    refine ⟨by rw [Nat.add_right_comm, Nat.add_assoc], ?_⟩
    by_cases hnil : l = []
    · subst hnil
      simp [openTail, hw]
    · simp [hnil, hw]

/-- Both loops together, and the correction for a string that does not end. -/
theorem stringsCount_spec {t : List UInt8} (h : t <+: mem.drop strings) (ht : t ≠ [])
    (hhead : t.head? ≠ some 0) (hlo : lo ≤ strings) (hhi : hi = strings + t.length) :
    (stringsCount mem strings t.length).val = (segments 0 t).length ∧
      ((stringsCount mem strings t.length).Within lo hi ↔ openTail 0 t ≠ []) := by
  obtain ⟨hval, hin⟩ := countStrings_spec hlo hhi t hhead t.length 0 0 le_rfl (Nat.zero_add _) h
  obtain ⟨a, b, rfl⟩ : ∃ a b, t = a ++ [b] := ⟨_, _, (List.dropLast_append_getLast ht).symm⟩
  have hlast : (readByte mem (strings + ((a ++ [b]).length - 1))).val = b := by
    refine val_readByte (l := []) ?_
    simpa using prefix_drop_add h
  have hopen : openTail 0 (a ++ [b]) = [] ↔ b = 0 := openTail_concat_eq_nil a b
  unfold stringsCount
  rw [Traced.val_bind, Traced.within_bind, hval, hin]
  dsimp only
  rw [Traced.val_bind, Traced.within_bind, hlast, within_readByte, length_segments 0 (a ++ [b])]
  refine ⟨?_, ?_⟩
  · by_cases hb : b = 0
    · rw [if_neg (not_not.mpr hb), if_pos (hopen.mpr hb), Nat.add_zero, Nat.zero_add]
      rfl
    · rw [if_pos hb, if_neg (mt hopen.mp hb), Nat.zero_add]
      rfl
  · have hplace : lo ≤ strings + ((a ++ [b]).length - 1) ∧
      strings + ((a ++ [b]).length - 1) < hi := by
      rw [hhi, List.length_append, List.length_singleton]
      omega
    rw [and_iff_right hplace]
    simp

/-! ## The first half -/

theorem exists_padding (l : List UInt8) : ∃ k, l = List.replicate k 0 ++ unpadded l := by
  induction l with
  | nil => exact ⟨0, rfl⟩
  | cons b l ih =>
    by_cases hb : b = 0
    · obtain ⟨k, hk⟩ := ih
      refine ⟨k + 1, ?_⟩
      have hdrop : unpadded (b :: l) = unpadded l := List.dropWhile_cons_of_pos (by simp [hb])
      rw [hdrop, List.replicate_succ, List.cons_append, ← hk, hb]
    · have hkeep : unpadded (b :: l) = b :: l := List.dropWhile_cons_of_neg (by simp [hb])
      exact ⟨0, by rw [hkeep, List.replicate_zero, List.nil_append]⟩

theorem unpadded_mapped {l : List UInt8} {off : Nat} (h : l <+: mem.drop off) :
    unpadded l <+: mem.drop (off + (l.length - (unpadded l).length)) := by
  obtain ⟨k, hk⟩ := exists_padding l
  have hlen := congrArg List.length hk
  rw [List.length_append] at hlen
  rw [hlen, Nat.add_sub_cancel]
  refine prefix_drop_add ?_
  rwa [← hk]

/-- What `kmod_elf_get_modinfo_strings` reads before it allocates anything. -/
theorem countModinfo_spec {l : List UInt8} {off : Nat} (h : l <+: mem.drop off) (hlo : lo ≤ off)
    (hhi : hi = off + l.length) :
    ((countModinfo mem off l.length).val =
      if (unpadded l).length ≤ 1 then none
      else some (off + (l.length - (unpadded l).length), (unpadded l).length,
        (segments 0 l).length)) ∧
    ((countModinfo mem off l.length).Within lo hi ↔
      (unpadded l).length ≤ 1 ∨ openTail 0 l ≠ []) := by
  unfold countModinfo
  rw [Traced.val_bind, Traced.within_bind]
  obtain ⟨hskipin, ⟨h1, hskip⟩ | ⟨h1, hskip⟩⟩ := skipPadding_spec l off h hlo hhi.ge
  · cases hpair : (skipPadding mem off l.length).val with | mk strings size =>
    rw [hpair] at hskip
    dsimp only
    rw [if_pos hskip, if_pos h1]
    exact ⟨rfl, by simp [hskipin, h1]⟩
  · have hle : (unpadded l).length ≤ l.length := (List.dropWhile_suffix _).length_le
    obtain ⟨hval, hin⟩ : _ ∧ (Traced.Within lo hi _ ↔ _) := stringsCount_spec (unpadded_mapped h)
      (List.ne_nil_of_length_pos (by omega)) (unpadded_head l) (by omega) (by omega)
    rw [hskip]
    dsimp only
    rw [if_neg (by omega), if_neg (by omega), Traced.val_bind, Traced.within_bind, hval, hin]
    have htail : openTail 0 (unpadded l) = openTail 0 l := openTail_dropWhile l
    have hseg : segments 0 (unpadded l) = segments 0 l := segments_dropWhile l
    rw [htail, hseg]
    exact ⟨rfl, by simp [hskipin, show ¬ (unpadded l).length ≤ 1 by omega]⟩
end

/-! ## Splitting -/

/-- There is a string at a place in a block, with its NUL. -/
def StringAt (s : List UInt8) (i : Nat) (str : CStr) : Prop :=
  0 ∉ str ∧ ∃ rest, s.drop i = str ++ 0 :: rest

/-- The pointers are to the given strings, in their order, and a NULL pointer follows. -/
def ModinfoArray.Lists (array : ModinfoArray) (strs : List CStr) : Prop :=
  ∃ places : List Nat, array.a = places.map .into ++ [.null] ∧
    List.Forall₂ (StringAt array.s) places strs

section
variable {s : List UInt8} {size count : Nat}

theorem getD_of_drop {l : List UInt8} {b : UInt8} {i : Nat} (h : b :: l <+: s.drop i) :
    s.getD i 0 = b :=
  val_readByte h

theorem skipCopied_spec {l : List UInt8} (hl : l.head? ≠ some 0) (k i : Nat)
    (h : List.replicate k 0 ++ l <+: s.drop i) : skipCopied s (k + l.length) i = i + k := by
  induction k generalizing i with
  | zero =>
    cases l with
    | nil => rfl
    | cons b l =>
      have hb : b ≠ 0 := by simpa using hl
      rw [List.length_cons, ← Nat.add_assoc, skipCopied, getD_of_drop h, if_neg hb]
      rfl
  | succ k ih =>
    rw [List.replicate_succ, List.cons_append] at h
    rw [Nat.add_right_comm, skipCopied, getD_of_drop h, if_pos rfl, ih (i + 1) (prefix_drop_succ h)]
    omega

/-- The splitting loop goes over a string. -/
theorem splitStrings_word {l : List UInt8} (fuel j : Nat) (hj : j < count) (a : List StringPtr) :
    ∀ (w : List UInt8) (i : Nat), 0 ∉ w → w ++ l <+: s.drop i → i + w.length ≤ size →
      splitStrings s size count (fuel + w.length) i j a =
        splitStrings s size count fuel (i + w.length) j a
  | [], i, _, _, _ => rfl
  | b :: w, i, hw, h, hsize => by
    rw [List.mem_cons, not_or] at hw
    rw [List.length_cons] at hsize
    have hrest := splitStrings_word fuel j hj a w (i + 1) hw.2 (prefix_drop_succ h) (by omega)
    rw [List.length_cons, ← Nat.add_assoc, splitStrings, if_pos ⟨hj, by omega⟩, getD_of_drop h,
      if_pos (Ne.symm hw.1), hrest]
    congr 1
    omega

/-- All pointers are set. -/
theorem splitStrings_done (fuel i : Nat) (a : List StringPtr) :
    splitStrings s size count fuel i count a = a := by
  cases fuel with
  | zero => rfl
  | succ fuel => exact if_neg (by omega)

/-- The pointers to some places, those that are not set yet, and the NULL pointer. -/
def partly (places : List Nat) (unset : Nat) : List StringPtr :=
  places.map .into ++ (List.replicate unset .unset ++ [.null])

theorem partly_set (places : List Nat) (unset i : Nat) :
    (partly places (unset + 1)).set places.length (.into i) = partly (places ++ [i]) unset := by
  unfold partly
  rw [List.set_append_right _ _ (by simp), List.length_map, Nat.sub_self, List.replicate_succ]
  simp

/--
The splitting loop at the start of a string, with the pointer to it set: the other
pointers are to the strings that follow.
-/
theorem splitStrings_spec : ∀ l : List UInt8, l.head? ≠ some 0 → l ≠ [] →
    ∀ fuel i places, l.length ≤ fuel → i + l.length = size → l ++ [0] = s.drop i →
      places.length + (segments 0 l).length = count + 1 →
      ∃ more, splitStrings s size count fuel i places.length
            (partly places (count - places.length)) = partly (places ++ more) 0 ∧
          List.Forall₂ (StringAt s) (i :: more) (segments 0 l) := by
  refine rounds_induction (fun h => absurd rfl h) ?_ ?_
  · intro w hw h0 _ fuel i places _ _ hs hcount
    rw [segments_word hw h0] at hcount ⊢
    obtain rfl : count = places.length := by simpa using hcount.symm
    refine ⟨[], ?_, ?_⟩
    · rw [splitStrings_done, Nat.sub_self, List.append_nil]
    · exact .cons ⟨h0, [], hs.symm⟩ .nil
  · intro w k l hw h0 hk hl ih _ fuel i places hfuel hsize hs hcount
    rw [segments_round hw h0 hk] at hcount ⊢
    rw [List.length_cons] at hcount
    rw [List.length_append, List.length_append, List.length_replicate] at hfuel hsize
    have hstr : StringAt s i w := by
      obtain ⟨k, rfl⟩ := Nat.exists_eq_succ_of_ne_zero hk.ne'
      exact ⟨h0, List.replicate k 0 ++ (l ++ [0]), by rw [← hs]; simp [List.replicate_succ]⟩
    by_cases hnil : l = []
    · subst hnil
      obtain rfl : count = places.length := by simpa using hcount.symm
      refine ⟨[], ?_, .cons hstr .nil⟩
      rw [splitStrings_done, Nat.sub_self, List.append_nil]
    · have hpos := List.length_pos_of_ne_nil (segments_ne_nil hl hnil)
      obtain ⟨fuel, rfl⟩ : ∃ f, fuel = f + 1 + w.length := ⟨fuel - w.length - 1, by omega⟩
      have hword : w ++ (List.replicate k 0 ++ l) <+: s.drop i := ⟨[0], hs⟩
      have hnuls := prefix_drop_add hword
      have hskip := skipCopied_spec hl k (i + w.length) hnuls
      have hstart : l ++ [0] = s.drop (i + w.length + k) := by
        rw [← List.drop_drop, ← List.drop_drop, ← hs]
        simp
      obtain ⟨more, hmore, hstrs⟩ := ih hnil fuel (i + w.length + k) (places ++ [i + w.length + k])
        (by omega) (by omega) hstart (by rw [List.length_append, List.length_singleton]; omega)
      refine ⟨(i + w.length + k) :: more, ?_, .cons hstr hstrs⟩
      have hfirst : s.getD (i + w.length) 0 = 0 := by
        obtain ⟨k, rfl⟩ := Nat.exists_eq_succ_of_ne_zero hk.ne'
        exact getD_of_drop hnuls
      rw [splitStrings_word (fuel + 1) _ (by omega) _ w i h0 hword (by omega), splitStrings,
        if_pos ⟨by omega, by omega⟩, hfirst, if_neg (not_not.mpr rfl),
        show size - (i + w.length) = k + l.length by omega, hskip,
        show count - places.length = count - (places.length + 1) + 1 by omega]
      dsimp only
      rw [partly_set]
      rw [List.length_append, List.length_singleton, List.append_assoc] at hmore
      exact hmore

/-- The array for the section without its padding. -/
theorem modinfoArray_lists {t : List UInt8} (hhead : t.head? ≠ some 0) (ht : t ≠ []) :
    (modinfoArray t (segments 0 t).length).Lists (segments 0 t) := by
  obtain ⟨n, hn⟩ := Nat.exists_eq_succ_of_ne_zero
    (List.length_pos_of_ne_nil (segments_ne_nil hhead ht)).ne'
  obtain ⟨more, hmore, hstrs⟩ := splitStrings_spec (s := t ++ [0]) t hhead ht t.length 0 [0]
    le_rfl (Nat.zero_add _) rfl (by rw [List.length_singleton, Nat.add_comm])
  refine ⟨0 :: more, ?_, hstrs⟩
  have hfirst : ((List.replicate (n + 1 + 1) StringPtr.unset).set (n + 1) .null).set 0 (.into 0) =
      partly [0] (n + 1 - 1) := by
    rw [List.replicate_succ', List.set_append_right _ _ (by simp), List.replicate_succ]
    simp [partly]
  unfold modinfoArray
  rw [hn] at hmore ⊢
  dsimp only
  rw [hfirst]
  exact hmore

end

/-! ## The function -/

/-- The bytes of a section. -/
def KmodElf.sectionBytes (elf : KmodElf) (sec : KmodElfSection) : List UInt8 :=
  bytesAt elf.memory (elf.sections sec).offset (elf.sections sec).size

theorem KmodElf.Valid.length_sectionBytes {elf : KmodElf} (hv : elf.Valid) (sec : KmodElfSection) :
    (elf.sectionBytes sec).length = (elf.sections sec).size := by
  have hin := hv.sections_inFile sec
  have hle := hv.le
  unfold KmodElf.sectionBytes bytesAt
  rw [List.length_take, List.length_drop]
  omega

theorem KmodElf.Valid.sectionBytes_mapped {elf : KmodElf} (hv : elf.Valid) (sec : KmodElfSection)
    (behind : List UInt8) :
    elf.sectionBytes sec <+: (elf.mapped behind).drop (elf.sections sec).offset := by
  have hin := hv.sections_inFile sec
  have hle := hv.le
  unfold KmodElf.sectionBytes KmodElf.mapped bytesAt
  rw [List.drop_append_of_le_length (by omega)]
  exact (List.take_prefix _ _).trans (List.prefix_append _ _)

/-- What is given for some strings: no array if there are none. -/
def GivenAs (array : Option ModinfoArray) (strs : List CStr) : Prop :=
  array.elim (strs = []) (·.Lists strs)

section
variable {mem l : List UInt8} {off : Nat}

theorem copyModinfo_spec (h : l <+: mem.drop off) :
    (copyModinfo mem (off + (l.length - (unpadded l).length)) (unpadded l).length
      (segments 0 l).length).val = modinfoArray (unpadded l) (segments 0 l).length := by
  unfold copyModinfo
  rw [Traced.val_bind, val_readRange (unpadded_mapped h), Traced.val_pure]

theorem modinfoArray_unpadded (h1 : 1 < (unpadded l).length) :
    (modinfoArray (unpadded l) (segments 0 l).length).Lists (segments 0 l) := by
  have hseg : segments 0 (unpadded l) = segments 0 l := segments_dropWhile l
  rw [← hseg]
  exact modinfoArray_lists (unpadded_head l) (List.ne_nil_of_length_pos (by omega))

theorem segments_of_padding (hclosed : openTail 0 l = []) (h1 : (unpadded l).length ≤ 1) :
    segments 0 l = [] := by
  have hseg : segments 0 (unpadded l) = segments 0 l := segments_dropWhile l
  have htail : openTail 0 (unpadded l) = openTail 0 l := openTail_dropWhile l
  have hhead := unpadded_head l
  rw [← hseg]
  rcases hu : unpadded l with _ | ⟨b, rest⟩
  · rfl
  · rw [hu, List.length_cons] at h1
    obtain rfl : rest = [] := List.eq_nil_of_length_eq_zero (by omega)
    -- a single byte is left, which is not NUL though the section ends with one
    rw [hu, hclosed] at htail
    have hb : b = 0 := (openTail_concat_eq_nil [] b).mp htail
    simp [hu, hb] at hhead

/-- The strings of a range that ends with a NUL. -/
theorem splitModinfo_given (h : l <+: mem.drop off) (hclosed : openTail 0 l = []) :
    GivenAs (splitModinfo mem off l.length).val (segments 0 l) := by
  have hcount := (countModinfo_spec h le_rfl rfl).1
  unfold splitModinfo
  rw [Traced.val_bind, hcount]
  by_cases h1 : (unpadded l).length ≤ 1
  · rw [if_pos h1]
    exact segments_of_padding hclosed h1
  · rw [if_neg h1]
    dsimp only
    rw [Traced.val_bind, copyModinfo_spec h]
    exact modinfoArray_unpadded (by omega)

end

/--
**The strings of `.modinfo` are its longest runs without a NUL**, in order, whatever byte
lies behind the section. If at most a byte is left behind the leading NULs, none are given.
-/
theorem kmodElfGetModinfoStrings_eq {allocated : Bool} {memory : List UInt8} {elf : KmodElf}
    (hnew : kmodElfNew allocated memory = .ok (.ok elf))
    (hoff : (elf.sections .modinfo).offset ≠ 0) (hsize : (elf.sections .modinfo).size < 2147483648)
    (behind : List UInt8) :
    ((unpadded (elf.sectionBytes .modinfo)).length ≤ 1 →
      (kmodElfGetModinfoStrings true behind elf).val = .ok (0, none)) ∧
    (1 < (unpadded (elf.sectionBytes .modinfo)).length →
      ∃ array, (kmodElfGetModinfoStrings true behind elf).val =
          .ok ((segments 0 (elf.sectionBytes .modinfo)).length, some array) ∧
        array.Lists (segments 0 (elf.sectionBytes .modinfo))) := by
  obtain ⟨hv, _⟩ := valid_of_kmodElfNew hnew
  have hpre := hv.sectionBytes_mapped .modinfo behind
  have hlen := hv.length_sectionBytes .modinfo
  have hcount := (countModinfo_spec hpre le_rfl rfl).1
  have hfew := length_segments_le 0 (elf.sectionBytes .modinfo)
  have hle : (unpadded (elf.sectionBytes .modinfo)).length ≤ (elf.sectionBytes .modinfo).length :=
    (List.dropWhile_suffix _).length_le
  rw [hlen] at hcount
  unfold kmodElfGetModinfoStrings
  dsimp only
  rw [if_neg hoff, Traced.val_bind, hcount]
  refine ⟨?_, ?_⟩
  · intro h1
    rw [if_pos h1]
    rfl
  · intro h1
    refine ⟨_, ?_, modinfoArray_unpadded h1⟩
    have hfits : modinfoOverflow (unpadded (elf.sectionBytes .modinfo)).length
        (segments 0 (elf.sectionBytes .modinfo)).length = false := by
      unfold modinfoOverflow SIZE_MAX
      rw [decide_eq_false_iff_not]
      omega
    rw [if_neg (by omega)]
    dsimp only
    rw [hfits, if_neg Bool.false_ne_true, if_neg (by simp), Traced.val_bind, ← hlen,
      copyModinfo_spec hpre, Traced.val_pure]
    have hint : int32 (segments 0 (elf.sectionBytes .modinfo)).length =
        (segments 0 (elf.sectionBytes .modinfo)).length := by
      unfold int32
      rw [Nat.mod_eq_of_lt (by omega), if_pos (by omega)]
    rw [hint]

/--
The function reads the byte behind the section if a NUL is the last byte of it, and no
other byte outside.
-/
theorem kmodElfGetModinfoStrings_within {elf : KmodElf} (hv : elf.Valid) (malloc : Bool)
    (behind : List UInt8) (hoff : (elf.sections .modinfo).offset ≠ 0) :
    (kmodElfGetModinfoStrings malloc behind elf).Within (elf.sections .modinfo).offset
        ((elf.sections .modinfo).offset + (elf.sections .modinfo).size) ↔
      (unpadded (elf.sectionBytes .modinfo)).length ≤ 1 ∨
        openTail 0 (elf.sectionBytes .modinfo) ≠ [] := by
  have hlen := hv.length_sectionBytes .modinfo
  obtain ⟨hval, hin⟩ := countModinfo_spec (hv.sectionBytes_mapped .modinfo behind) le_rfl rfl
  have hle : (unpadded (elf.sectionBytes .modinfo)).length ≤ (elf.sectionBytes .modinfo).length :=
    (List.dropWhile_suffix _).length_le
  rw [hlen] at hval hin hle
  unfold kmodElfGetModinfoStrings
  dsimp only
  rw [if_neg hoff, Traced.within_bind, hin, hval]
  refine and_iff_left ?_
  by_cases h1 : (unpadded (elf.sectionBytes .modinfo)).length ≤ 1
  · rw [if_pos h1]
    exact (Traced.within_pure _).mpr trivial
  · rw [if_neg h1]
    dsimp only
    split
    · simp
    · split
      · simp
      · unfold copyModinfo
        rw [Traced.within_bind, Traced.within_bind, within_readRange (by omega)]
        exact ⟨⟨by omega, by simp⟩, by simp⟩

/-- A file whose last section is `.modinfo`. -/
def modinfoFile (info : List UInt8) : List UInt8 :=
  [0x7f, 0x45, 0x4c, 0x46, 1, 1] ++ List.replicate 26 0 ++ [52, 0, 0, 0] ++ List.replicate 10 0 ++
    [40, 0, 3, 0, 1, 0] ++
  List.replicate 40 0 ++ sectionHeader32 0 172 10 ++
    sectionHeader32 1 182 (UInt8.ofNat info.length) ++
  (0 :: cstr ".modinfo" ++ [0]) ++ info

/-- The same file, opened. -/
def modinfoElf (info : List UInt8) : KmodElf :=
  { memory := modinfoFile info, size := 182 + info.length, x32 := true, msb := false,
    sectionOffset := 52, sectionCount := 3, sectionEntrySize := 40, stringsSection := 1,
    stringsSize := 10, stringsOffset := 172, machine := 0,
    found := [(.modinfo, ⟨182, info.length⟩)] }

/-- Padding at the front and in the middle, and a last string that does not end. -/
def paddedInfo : List UInt8 := [0, 0] ++ cstr "a=b" ++ [0, 0, 0] ++ cstr "c"

theorem kmodElfGetModinfoStrings_padded :
    kmodElfNew true (modinfoFile paddedInfo) = .ok (.ok (modinfoElf paddedInfo)) ∧
    ∃ array, (kmodElfGetModinfoStrings true [7] (modinfoElf paddedInfo)).val = .ok (2, some array) ∧
      array.Lists [cstr "a=b", cstr "c"] := by
  have hnew : kmodElfNew true (modinfoFile paddedInfo) = .ok (.ok (modinfoElf paddedInfo)) := by
    decide +kernel
  have hsegs : segments 0 ((modinfoElf paddedInfo).sectionBytes .modinfo) =
      [cstr "a=b", cstr "c"] := by decide +kernel
  have h := (kmodElfGetModinfoStrings_eq hnew (by decide +kernel) (by decide +kernel) [7]).2
    (by decide +kernel)
  rw [hsegs] at h
  exact ⟨hnew, h⟩

end Kmod
