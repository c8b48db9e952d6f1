import Kmod.Libkmod.Aliases

/-!
# The aliases of the modules in the kernel

`modules.builtin.modinfo` has one record `modname.key=value` after the other, each ended by
a NUL. depmod reads it character by character and writes the aliases to
`modules.builtin.alias.bin`. It takes a record apart with `flush_stream_to`, which stops at
a delimiter, at the end of the record, at the end of the file or when its buffer is full.
The caller cannot tell these apart, except that the delimiter was found.

So it goes on in the wrong place after some records. Behind a record without `=` the next
one is skipped, and behind a part that is empty or too long the rest of the record is
taken for a record. What comes out is right just if this does not matter
(`outputBuiltinAlias_iff`).
-/

namespace Kmod.BuiltinAlias

open Kmod.Bytes Kmod.Index

/-! ## The model -/

/-- A `FILE` that is read: what is left of it, and whether its end has been met. -/
structure Stream where
  rest : List UInt8
  ended : Bool
  deriving DecidableEq

/-- The loop of `flush_stream`: the last character, or `EOF`, and what is left. -/
def flushLoop (endchar : UInt8) : List UInt8 → Option UInt8 × List UInt8
  | [] => (none, [])
  | c :: rest => if c = endchar ∨ c = 0 then (some c, rest) else flushLoop endchar rest

/-- `flush_stream`; it returns zero in any case. -/
def flushStream (endchar : UInt8) (s : Stream) : Stream :=
  let (c, rest) := flushLoop endchar s.rest
  ⟨rest, s.ended || c.isNone⟩

/--
The loop of `flush_stream_to`, with what has been written to `dst`. A full buffer is
noticed only when the next character has been read.
-/
def flushToLoop (endchar : UInt8) (dstSz : Nat) :
    List UInt8 → CStr → CStr × Option UInt8 × List UInt8
  | [], dst => (dst, none, [])
  | c :: rest, dst =>
    if c = endchar ∨ c = 0 ∨ dstSz ≤ dst.length then (dst, some c, rest)
    else flushToLoop endchar dstSz rest (dst ++ [c])

/-- `flush_stream_to`: the string in the buffer, which the caller terminates. -/
def flushStreamTo (endchar : UInt8) (dstSz : Nat) (s : Stream) : CStr × Stream :=
  let (dst, c, rest) := flushToLoop endchar dstSz s.rest []
  let i := if dst.length = dstSz then dst.length - 1 else dst.length
  (dst.take (if c = some endchar then i else 0), ⟨rest, s.ended || c.isNone⟩)

/-- A call of `index_insert`, with what is left of the file then. -/
structure Inserted where
  left : Nat
  aliasname : CStr
  modname : CStr
  deriving DecidableEq

/-- The body of the loop of `output_builtin_alias_bin`, from the value on: what is inserted. -/
def valueRound (modname : CStr) (s : Stream) : Option Inserted × Stream :=
  let (value, s) := flushStreamTo 0 PATH_MAX s
  if value.length = 0 then (none, s)
  else
    -- alias_normalize fails for an unmatched bracket
    ((aliasNormalize value).map (fun a => ⟨s.rest.length, a, modname⟩), s)

/-- The body of the loop, from the key on. -/
def keyRound (modname : CStr) (s : Stream) : Option Inserted × Stream :=
  let (value, s) := flushStreamTo 61 PATH_MAX s
  if value ≠ cstr "alias" then (none, flushStream 0 s) else valueRound modname s

/-- The body of the loop: what is inserted, and the stream. -/
def aliasRound (s : Stream) : Option Inserted × Stream :=
  let (modname, s) := flushStreamTo 46 PATH_MAX s
  if modname.length = 0 then (none, s) else keyRound modname s

/-- The loop of `output_builtin_alias_bin`: the calls of `index_insert`. -/
def aliasLoop : Nat → Stream → Except Fault (List Inserted)
  | 0, _ => .error .outOfFuel
  | fuel + 1, s =>
    if s.ended then .ok []
    else do
      let round := aliasRound s
      let more ← aliasLoop fuel round.2
      .ok (round.1.toList ++ more)

/-- What `index_insert` is given. -/
def Inserted.entry (i : Inserted) : Entry := ⟨i.aliasname, i.modname, 0⟩

/--
`output_builtin_alias_bin`: what it returns, and the file it writes. `file` is the file it
reads, if there is one; reading ends at its end, or with an error.
-/
def outputBuiltinAliasBin (fuel : Nat) (toStdout : Bool) (file : Option (List UInt8))
    (memory readError : Bool) : Except Fault (Int × Option (List UInt8)) :=
  if toStdout then .ok (0, none)
  else
    match file with
    | none => .ok (0, none)
    | some content =>
      if !memory then .ok (-ENOMEM, none)
      else do
        let inserted ← aliasLoop fuel ⟨content, false⟩
        let idx ← insertEntries indexCreate (inserted.map Inserted.entry)
        if readError then .ok (-EINVAL, none) else .ok (0, some (indexWrite idx))

/-! ## Records -/

/-- The file with these records. -/
def content (records : List CStr) : List UInt8 := records.flatMap (fun r => r ++ [0])

/-- The record of a module's alias. -/
def aliasRecord (modname value : CStr) : CStr := modname ++ 46 :: (cstr "alias" ++ 61 :: value)

/-- The entry for a record, as the format is meant: an alias and the module. -/
def entryOf (r : CStr) : Option (CStr × CStr) :=
  let modname := r.takeWhile (· ≠ 46)
  let value := r.drop (aliasRecord modname []).length
  if r = aliasRecord modname value ∧ modname ≠ [] ∧ value ≠ [] ∧ modname.length < PATH_MAX ∧
      value.length < PATH_MAX then
    (aliasNormalize value).map (fun a => (a, modname))
  else none

/-- How a text is taken apart at a delimiter, with a buffer of `PATH_MAX` characters. -/
inductive Cut where
  /-- There are more characters before it; one more than the buffer holds has been read. -/
  | full (rest : CStr)
  | missing
  | found (part rest : CStr)
  deriving DecidableEq

def cut (endchar : UInt8) (t : CStr) : Cut :=
  if PATH_MAX < (t.takeWhile (· ≠ endchar)).length then .full (t.drop (PATH_MAX + 1))
  else
    match t.dropWhile (· ≠ endchar) with
    | [] => .missing
    | _ :: rest => .found (t.takeWhile (· ≠ endchar)) rest

/-- What becomes of a text that is taken for a record. -/
inductive Reading where
  /-- It is read to its end, and an alias and a module may be inserted. -/
  | done (inserted : Option (CStr × CStr))
  /-- It is read to its end, and the next record is skipped. -/
  | skipNext
  /-- The rest of it is taken for a record. -/
  | again (rest : CStr)
  deriving DecidableEq

/-- How the value of an alias is read: not to its end if it is too long. -/
def readingValue (modname value : CStr) : Reading :=
  if PATH_MAX < value.length then .again (value.drop (PATH_MAX + 1))
  else if value = [] then .done none
  else
    .done ((aliasNormalize (value.take (PATH_MAX - 1))).map
      (fun a => (a, modname.take (PATH_MAX - 1))))

/-- How the part behind the name of the module is read: beyond its end, if it has no `=`. -/
def readingKey (modname q : CStr) : Reading :=
  match cut 61 q with
  | .full _ => .done none
  | .missing => .skipNext
  | .found key value => if key ≠ cstr "alias" then .done none else readingValue modname value

/-- How a text is read: not to its end if the name of the module is empty or too long. -/
def reading (t : CStr) : Reading :=
  match cut 46 t with
  | .full rest => .again rest
  | .missing => .done none
  | .found modname q => if modname = [] then .again q else readingKey modname q

/-! ## Taking a text apart -/

section Cut

variable {e : UInt8} {t : CStr}

theorem cut_full {w : CStr} (hw : e ∉ w) (hlen : w.length = PATH_MAX + 1) (rest : CStr) :
    cut e (w ++ rest) = .full rest := by
  unfold cut
  rw [List.takeWhile_append_of_pos (ne_of_notMem hw),
    if_pos (by rw [List.length_append]; omega), ← hlen, List.drop_left]

theorem cut_missing (he : e ∉ t) (hlen : t.length ≤ PATH_MAX) : cut e t = .missing := by
  unfold cut
  rw [List.takeWhile_eq_self_iff.2 (ne_of_notMem he),
    List.dropWhile_eq_nil_iff.2 (ne_of_notMem he), if_neg (by omega)]

theorem cut_found {w : CStr} (hw : e ∉ w) (hlen : w.length ≤ PATH_MAX) (rest : CStr) :
    cut e (w ++ e :: rest) = .found w rest := by
  unfold cut
  rw [(takeWhile_delimiter hw rest).1, (takeWhile_delimiter hw rest).2, if_neg (by omega)]

/-- The three ways a text is taken apart. -/
theorem cut_cases (e : UInt8) (t : CStr) :
    (∃ w rest, t = w ++ rest ∧ e ∉ w ∧ w.length = PATH_MAX + 1 ∧ cut e t = .full rest) ∨
      (e ∉ t ∧ t.length ≤ PATH_MAX ∧ cut e t = .missing) ∨
      (∃ w rest, t = w ++ e :: rest ∧ e ∉ w ∧ w.length ≤ PATH_MAX ∧ cut e t = .found w rest) := by
  -- where more characters than the buffer holds come first
  have hfull : ∀ {w : CStr} (rest : CStr), e ∉ w → PATH_MAX < w.length →
      ∃ w' rest', w ++ rest = w' ++ rest' ∧ e ∉ w' ∧ w'.length = PATH_MAX + 1 ∧
        cut e (w ++ rest) = .full rest' := by
    intro w rest hw hlen
    have hw' : e ∉ w.take (PATH_MAX + 1) := fun h => hw (List.mem_of_mem_take h)
    have hlen' : (w.take (PATH_MAX + 1)).length = PATH_MAX + 1 := by
      rw [List.length_take]
      omega
    have heq : w ++ rest = w.take (PATH_MAX + 1) ++ (w.drop (PATH_MAX + 1) ++ rest) := by
      rw [← List.append_assoc, List.take_append_drop]
    exact ⟨_, _, heq, hw', hlen', heq ▸ cut_full hw' hlen' _⟩
  by_cases he : e ∈ t
  · obtain ⟨w, rest, rfl, hw⟩ := List.eq_append_cons_of_mem he
    by_cases hlen : w.length ≤ PATH_MAX
    · exact .inr (.inr ⟨w, rest, rfl, hw, hlen, cut_found hw hlen rest⟩)
    · exact .inl (hfull _ hw (Nat.not_le.1 hlen))
  · by_cases hlen : t.length ≤ PATH_MAX
    · exact .inr (.inl ⟨he, hlen, cut_missing he hlen⟩)
    · have hlong := hfull [] he (Nat.not_le.1 hlen)
      rw [List.append_nil] at hlong
      exact .inl hlong

/-! ## The stream -/

theorem flushToLoop_append {w : CStr} (hw : e ∉ w) (h0 : 0 ∉ w) (rest : List UInt8) (N : Nat) :
    ∀ dst : CStr, dst.length + w.length ≤ N →
      flushToLoop e N (w ++ rest) dst = flushToLoop e N rest (dst ++ w) := by
  induction w with
  | nil =>
    intro dst _
    rw [List.nil_append, List.append_nil]
  | cons c w ih =>
    intro dst hlen
    rw [List.mem_cons, not_or] at hw h0
    rw [List.length_cons] at hlen
    have hgo : ¬ (c = e ∨ c = 0 ∨ N ≤ dst.length) := by
      rintro (h | h | h)
      · exact hw.1 h.symm
      · exact h0.1 h.symm
      · omega
    rw [List.cons_append, flushToLoop, if_neg hgo, ih hw.2 h0.2 _ (by simp; omega),
      List.append_assoc]
    rfl

/-- The buffer is full: one character more is read. -/
theorem flushToLoop_full {w : CStr} (hw : e ∉ w) (h0 : 0 ∉ w) {N : Nat} (hlen : w.length = N + 1)
    (rest : List UInt8) : ∃ dst c, flushToLoop e N (w ++ rest) [] =
      (dst, some c, rest) ∧ c ≠ e := by
  obtain ⟨init, c, rfl⟩ : ∃ init c, w = init ++ [c] := by
    rcases List.eq_nil_or_concat w with rfl | ⟨init, c, h⟩
    · cases hlen
    · exact ⟨init, c, h.trans List.concat_eq_append⟩
  simp only [List.mem_append, List.mem_singleton, not_or] at hw h0
  rw [List.length_append, List.length_singleton] at hlen
  refine ⟨init, c, ?_, fun h => hw.2 h.symm⟩
  rw [List.append_assoc, flushToLoop_append hw.1 h0.1 _ _ _ (by simp; omega), List.nil_append,
    List.singleton_append, flushToLoop, if_pos (.inr (.inr (by omega)))]

/-- The string of a buffer that may be full is shorter than it. -/
theorem take_terminated {w : CStr} (hlen : w.length ≤ PATH_MAX) :
    w.take (if w.length = PATH_MAX then w.length - 1 else w.length) = w.take (PATH_MAX - 1) := by
  split
  · next h => rw [h]
  · rw [List.take_of_length_le (Nat.le_refl _), List.take_of_length_le (by omega)]

/-- What `flush_stream_to` leaves of a record and what follows it, for each way to take it apart. -/
def cutStream (R : List UInt8) : Cut → CStr × Stream
  | .full rest => ([], ⟨rest ++ 0 :: R, false⟩)
  | .missing => ([], ⟨R, false⟩)
  | .found part rest => (part.take (PATH_MAX - 1), ⟨rest ++ 0 :: R, false⟩)

/-- `flush_stream_to` in a record, with a delimiter. -/
theorem flushStreamTo_eq (he : e ≠ 0) (h0 : 0 ∉ t) (R : List UInt8) :
    flushStreamTo e PATH_MAX ⟨t ++ 0 :: R, false⟩ = cutStream R (cut e t) := by
  unfold flushStreamTo
  rcases cut_cases e t with ⟨w, rest, rfl, hw, hlen, hcut⟩ | ⟨hnot, hlen, hcut⟩ |
    ⟨w, rest, rfl, hw, hlen, hcut⟩
  · have h0w : 0 ∉ w := fun h => h0 (List.mem_append_left _ h)
    obtain ⟨dst, c, hloop, hc⟩ := flushToLoop_full hw h0w hlen (rest ++ 0 :: R)
    have hne : ¬ some c = some e := fun h => hc (Option.some.inj h)
    simp only [List.append_assoc, hloop, hcut, cutStream, if_neg hne]
    rfl
  · have hne : ¬ some (0 : UInt8) = some e := fun h => he (Option.some.inj h).symm
    have hloop : flushToLoop e PATH_MAX (t ++ 0 :: R) [] = (t, some 0, R) := by
      rw [flushToLoop_append hnot h0 _ _ _ (by simpa using hlen), List.nil_append, flushToLoop,
        if_pos (.inr (.inl rfl))]
    simp only [hloop, hcut, cutStream, if_neg hne]
    rfl
  · have h0w : 0 ∉ w := fun h => h0 (List.mem_append_left _ h)
    have hloop : flushToLoop e PATH_MAX (w ++ e :: rest ++ 0 :: R) []
        = (w, some e, rest ++ 0 :: R) := by
      rw [List.append_assoc, flushToLoop_append hw h0w _ _ _ (by simpa using hlen), List.nil_append,
        List.cons_append, flushToLoop, if_pos (.inl rfl)]
    simp only [hloop, hcut, cutStream, if_true, take_terminated hlen]
    rfl

/-- `flush_stream_to` up to the end of a record. -/
theorem flushStreamTo_end (h0 : 0 ∉ t) (R : List UInt8) :
    flushStreamTo 0 PATH_MAX ⟨t ++ 0 :: R, false⟩
      = if PATH_MAX < t.length then ([], ⟨t.drop (PATH_MAX + 1) ++ 0 :: R, false⟩)
        else (t.take (PATH_MAX - 1), ⟨R, false⟩) := by
  by_cases hlen : PATH_MAX < t.length
  · rw [if_pos hlen]
    have htake : (t.take (PATH_MAX + 1)).length = PATH_MAX + 1 := by
      rw [List.length_take]
      omega
    have h0w : 0 ∉ t.take (PATH_MAX + 1) := fun h => h0 (List.mem_of_mem_take h)
    have hfull := flushToLoop_full h0w h0w htake (t.drop (PATH_MAX + 1) ++ 0 :: R)
    rw [← List.append_assoc, List.take_append_drop] at hfull
    obtain ⟨dst, c, hloop, hc⟩ := hfull
    have hne : ¬ some c = some 0 := fun h => hc (Option.some.inj h)
    unfold flushStreamTo
    simp only [hloop, if_neg hne]
    rfl
  · rw [if_neg hlen]
    have hloop : flushToLoop 0 PATH_MAX (t ++ 0 :: R) [] = (t, some 0, R) := by
      rw [flushToLoop_append h0 h0 _ _ _ (by simpa using hlen), List.nil_append, flushToLoop,
        if_pos (.inl rfl)]
    unfold flushStreamTo
    simp only [hloop, if_true, take_terminated (Nat.not_lt.1 hlen)]
    rfl

/-- `flush_stream` to the end of a record. -/
theorem flushStream_eq (h0 : 0 ∉ t) (R : List UInt8) :
    flushStream 0 ⟨t ++ 0 :: R, false⟩ = ⟨R, false⟩ := by
  have hloop : flushLoop 0 (t ++ 0 :: R) = (some 0, R) := by
    induction t with
    | nil => exact if_pos (.inl rfl)
    | cons c t ih =>
      rw [List.mem_cons, not_or] at h0
      rw [List.cons_append, flushLoop, if_neg (by simpa using fun h => h0.1 h.symm)]
      exact ih h0.2
  unfold flushStream
  rw [hloop]
  rfl

end Cut

/-! ## One round -/

/-- What a round inserts and leaves, for each way a text is read. -/
def readingStream (R : List UInt8) : Reading → Option Inserted × Stream
  | .done inserted => (inserted.map (fun i => ⟨R.length, i.1, i.2⟩), ⟨R, false⟩)
  | .skipNext => (none, flushStream 0 ⟨R, false⟩)
  | .again rest => (none, ⟨rest ++ 0 :: R, false⟩)

/-- A string that was cut short is none of the short ones. -/
theorem take_eq_short {w v : CStr} (hv : v.length < PATH_MAX - 1) :
    w.take (PATH_MAX - 1) = v ↔ w = v := by
  constructor
  · intro h
    have hlen := congrArg List.length h
    rw [List.length_take] at hlen
    rw [← h, List.take_of_length_le (by omega)]
  · rintro rfl
    exact List.take_of_length_le (by omega)

theorem take_ne_nil {w : CStr} (h : w ≠ []) : w.take (PATH_MAX - 1) ≠ [] :=
  fun hnil => h ((take_eq_short (by decide)).1 hnil)

theorem valueRound_eq {v : CStr} (h0 : 0 ∉ v) (m : CStr) (R : List UInt8) :
    valueRound (m.take (PATH_MAX - 1)) ⟨v ++ 0 :: R, false⟩ =
      readingStream R (readingValue m v) := by
  unfold valueRound readingValue
  rw [flushStreamTo_end h0]
  by_cases hlen : PATH_MAX < v.length
  · rw [if_pos hlen, if_pos hlen]
    rfl
  · rw [if_neg hlen, if_neg hlen]
    by_cases hv : v = []
    · rw [hv]
      rfl
    · have htake : ¬ (v.take (PATH_MAX - 1)).length = 0 :=
        fun h => take_ne_nil hv (List.eq_nil_of_length_eq_zero h)
      dsimp only
      rw [if_neg htake, if_neg hv, readingStream, Option.map_map]
      rfl

theorem keyRound_eq {q : CStr} (h0 : 0 ∉ q) (m : CStr) (R : List UInt8) :
    keyRound (m.take (PATH_MAX - 1)) ⟨q ++ 0 :: R, false⟩ = readingStream R (readingKey m q) := by
  unfold keyRound readingKey
  rw [flushStreamTo_eq (by decide) h0]
  rcases cut_cases 61 q with ⟨w, rest, rfl, -, -, hcut⟩ | ⟨-, -, hcut⟩ | ⟨k, v, rfl, -, -, hcut⟩
  · -- what is left of the record is skipped
    have h0rest : 0 ∉ rest := fun h => h0 (List.mem_append_right _ h)
    rw [hcut]
    exact congrArg (Prod.mk none) (flushStream_eq h0rest R)
  · rw [hcut]
    rfl
  · have h0v : 0 ∉ v := fun h => h0 (List.mem_append_right _ (List.mem_cons_of_mem _ h))
    rw [hcut]
    dsimp only [cutStream]
    by_cases hk : k = cstr "alias"
    · have htake : ¬ k.take (PATH_MAX - 1) ≠ cstr "alias" := by
        rw [hk]
        decide
      rw [if_neg htake, if_neg (not_not.2 hk)]
      exact valueRound_eq h0v m R
    · have htake : k.take (PATH_MAX - 1) ≠ cstr "alias" :=
        fun h => hk ((take_eq_short (by decide)).1 h)
      rw [if_pos htake, if_pos hk]
      exact congrArg (Prod.mk none) (flushStream_eq h0v R)

/-- **A round reads a text as `reading` says.** -/
theorem aliasRound_eq {t : CStr} (h0 : 0 ∉ t) (R : List UInt8) :
    aliasRound ⟨t ++ 0 :: R, false⟩ = readingStream R (reading t) := by
  unfold aliasRound reading
  rw [flushStreamTo_eq (by decide) h0]
  rcases cut_cases 46 t with ⟨w, rest, rfl, -, -, hcut⟩ | ⟨-, -, hcut⟩ | ⟨m, q, rfl, -, -, hcut⟩
  · rw [hcut]
    rfl
  · rw [hcut]
    rfl
  · have h0q : 0 ∉ q := fun h => h0 (List.mem_append_right _ (List.mem_cons_of_mem _ h))
    rw [hcut]
    dsimp only [cutStream]
    by_cases hm : m = []
    · rw [hm]
      rfl
    · have htake : ¬ (m.take (PATH_MAX - 1)).length = 0 :=
        fun h => take_ne_nil hm (List.eq_nil_of_length_eq_zero h)
      rw [if_neg htake, if_neg hm]
      exact keyRound_eq h0q m R

/-! ## Whole records -/

/-- A text that is read beyond its end: it has the name of a module, but no `=`. -/
def KeyOnly (t : CStr) : Prop :=
  ∃ modname key, t = modname ++ 46 :: key ∧ modname ≠ [] ∧ 46 ∉ modname ∧ 61 ∉ key ∧
    modname.length ≤ PATH_MAX ∧ key.length ≤ PATH_MAX

/--
The rest of a text that is taken for a record: behind a `.` at its beginning, behind one
character more than the buffer holds, or behind as many of the value of an alias.
-/
def RestOf (t rest : CStr) : Prop :=
  t = 46 :: rest ∨ (∃ w, t = w ++ rest ∧ 46 ∉ w ∧ w.length = PATH_MAX + 1) ∨
    ∃ modname w, t = aliasRecord modname (w ++ rest) ∧ modname ≠ [] ∧ 46 ∉ modname ∧
      modname.length ≤ PATH_MAX ∧ w.length = PATH_MAX + 1

/-- A text for which an entry is inserted. A part that fills the buffer is cut short. -/
def ReadAsAlias (t : CStr) : Prop :=
  ∃ modname value, t = aliasRecord modname value ∧ modname ≠ [] ∧ 46 ∉ modname ∧ value ≠ [] ∧
    modname.length ≤ PATH_MAX ∧ value.length ≤ PATH_MAX ∧
    (aliasNormalize (value.take (PATH_MAX - 1))).isSome

theorem readingKey_cases (m q : CStr) :
    readingKey m q = .done none ∨ (61 ∉ q ∧ q.length ≤ PATH_MAX ∧ readingKey m q = .skipNext) ∨
      ∃ v, q = cstr "alias" ++ 61 :: v ∧ readingKey m q = readingValue m v := by
  unfold readingKey
  rcases cut_cases 61 q with ⟨w, rest, -, -, -, hcut⟩ | ⟨hnot, hlen, hcut⟩ | ⟨k, v, rfl, -, -, hcut⟩
  · rw [hcut]
    exact .inl rfl
  · rw [hcut]
    exact .inr (.inl ⟨hnot, hlen, rfl⟩)
  · rw [hcut]
    by_cases hk : k = cstr "alias"
    · exact .inr (.inr ⟨v, by rw [hk], if_neg (not_not.2 hk)⟩)
    · exact .inl (if_pos hk)

/-- The ways a text is read, with what it looks like. -/
theorem reading_cases (t : CStr) :
    (∃ rest, RestOf t rest ∧ reading t = .again rest) ∨ reading t = .done none ∨
      (KeyOnly t ∧ reading t = .skipNext) ∨
      ∃ m v, t = aliasRecord m v ∧ m ≠ [] ∧ 46 ∉ m ∧ m.length ≤ PATH_MAX ∧
        v.length ≤ PATH_MAX ∧ reading t = readingValue m v := by
  unfold reading
  rcases cut_cases 46 t with ⟨w, rest, ht, hw, hlen, hcut⟩ | ⟨-, -, hcut⟩ |
    ⟨m, q, rfl, hm, hlen, hcut⟩
  · rw [hcut]
    exact .inl ⟨rest, .inr (.inl ⟨w, ht, hw, hlen⟩), rfl⟩
  · rw [hcut]
    exact .inr (.inl rfl)
  · rw [hcut]
    dsimp only
    by_cases hne : m = []
    · rw [if_pos hne, hne]
      exact .inl ⟨q, .inl rfl, rfl⟩
    · rw [if_neg hne]
      rcases readingKey_cases m q with hkey | ⟨hq, hqlen, hkey⟩ | ⟨v, rfl, hkey⟩
      · exact .inr (.inl hkey)
      · exact .inr (.inr (.inl ⟨⟨m, q, rfl, hne, hm, hq, hlen, hqlen⟩, hkey⟩))
      · by_cases hv : v.length ≤ PATH_MAX
        · exact .inr (.inr (.inr ⟨m, v, rfl, hne, hm, hlen, hv, hkey⟩))
        · have hlong : readingValue m v = .again (v.drop (PATH_MAX + 1)) := if_pos (by omega)
          have hsplit : v.take (PATH_MAX + 1) ++ v.drop (PATH_MAX + 1) = v :=
            List.take_append_drop _ _
          refine .inl ⟨_, .inr (.inr ⟨m, v.take (PATH_MAX + 1), ?_, hne, hm, hlen, ?_⟩),
            hkey.trans hlong⟩
          · rw [hsplit]
            rfl
          · rw [List.length_take]
            omega

/-- A value that fits is read to its end. -/
theorem readingValue_done {v : CStr} (hlen : v.length ≤ PATH_MAX) (m : CStr) :
    readingValue m v = .done (if v = [] then none else
      (aliasNormalize (v.take (PATH_MAX - 1))).map (fun a => (a, m.take (PATH_MAX - 1)))) := by
  unfold readingValue
  rw [if_neg (by omega)]
  split <;> rfl

theorem restOf_of_reading {t rest : CStr} (h : reading t = .again rest) : RestOf t rest := by
  rcases reading_cases t with ⟨rest', hrest, hr⟩ | hr | ⟨-, hr⟩ | ⟨m, v, -, -, -, -, hlen, hr⟩
  · rw [hr] at h
    cases h
    exact hrest
  · rw [hr] at h
    cases h
  · rw [hr] at h
    cases h
  · rw [hr, readingValue_done hlen] at h
    cases h

/-- A text that is taken for a record is the end of one. -/
theorem reading_again {t rest : CStr} (h : reading t = .again rest) :
    rest <:+ t ∧ rest.length < t.length := by
  rcases restOf_of_reading h with rfl | ⟨w, rfl, -, hlen⟩ | ⟨m, w, rfl, -, -, -, hlen⟩
  · exact ⟨List.suffix_cons _ _, Nat.lt_succ_self _⟩
  · refine ⟨List.suffix_append _ _, ?_⟩
    rw [List.length_append]
    omega
  · refine ⟨⟨m ++ 46 :: (cstr "alias" ++ 61 :: w), by simp [aliasRecord]⟩, ?_⟩
    simp only [aliasRecord, List.length_append, List.length_cons]
    omega

theorem reading_aliasRecord {m : CStr} (hm : 46 ∉ m) (hne : m ≠ []) (hlen : m.length ≤ PATH_MAX)
    (v : CStr) : reading (aliasRecord m v) = readingValue m v := by
  have hkey : cut 61 (cstr "alias" ++ 61 :: v) = .found (cstr "alias") v :=
    cut_found (by decide) (by decide) v
  unfold reading aliasRecord
  rw [cut_found hm hlen]
  dsimp only
  rw [if_neg hne, readingKey, hkey]
  exact if_neg (not_not.2 rfl)

/-- What is read beyond its end. -/
theorem reading_skipNext_iff {t : CStr} : reading t = .skipNext ↔ KeyOnly t := by
  constructor
  · intro h
    rcases reading_cases t with ⟨rest, -, hr⟩ | hr | ⟨hkey, -⟩ | ⟨m, v, -, -, -, -, hlen, hr⟩
    · rw [hr] at h
      cases h
    · rw [hr] at h
      cases h
    · exact hkey
    · rw [hr, readingValue_done hlen] at h
      cases h
  · rintro ⟨m, k, rfl, hne, hm, hk, hmlen, hklen⟩
    unfold reading
    rw [cut_found hm hmlen]
    dsimp only
    rw [if_neg hne, readingKey, cut_missing hk hklen]

/-- What is inserted for. -/
theorem reading_inserted_iff {t : CStr} :
    (∃ entry, reading t = .done (some entry)) ↔ ReadAsAlias t := by
  constructor
  · rintro ⟨entry, h⟩
    rcases reading_cases t with ⟨rest, -, hr⟩ | hr | ⟨-, hr⟩ | ⟨m, v, ht, hne, hm, hmlen, hlen, hr⟩
    · rw [hr] at h
      cases h
    · rw [hr] at h
      cases h
    · rw [hr] at h
      cases h
    · rw [hr, readingValue_done hlen] at h
      have hdone := Reading.done.inj h
      split at hdone
      · cases hdone
      · next hv =>
        obtain ⟨a, ha, -⟩ := Option.map_eq_some_iff.1 hdone
        exact ⟨m, v, ht, hne, hm, hv, hmlen, hlen, Option.isSome_iff_exists.2 ⟨a, ha⟩⟩
  · rintro ⟨m, v, rfl, hne, hm, hv, hmlen, hlen, ha⟩
    obtain ⟨a, ha⟩ := Option.isSome_iff_exists.1 ha
    refine ⟨(a, m.take (PATH_MAX - 1)), ?_⟩
    rw [reading_aliasRecord hm hne hmlen, readingValue_done hlen, if_neg hv, ha]
    rfl

/-- What of a record is taken for a record last. -/
def lastRead (t : CStr) : CStr :=
  match _h : reading t with
  | .again rest => lastRead rest
  | _ => t
termination_by t.length
decreasing_by exact (reading_again _h).2

theorem lastRead_again {t rest : CStr} (h : reading t = .again rest) :
    lastRead t = lastRead rest := by
  rw [lastRead]
  split
  · next rest' h' =>
    rw [h] at h'
    cases h'
    rfl
  · next hne => exact absurd h (hne rest)

theorem lastRead_eq_self {t : CStr} (h : ∀ rest, reading t ≠ .again rest) : lastRead t = t := by
  rw [lastRead]
  split
  · next rest h' => exact absurd h' (h rest)
  · rfl

theorem aliasLoop_succ (fuel : Nat) (rest : List UInt8) :
    aliasLoop (fuel + 1) ⟨rest, false⟩
      = (aliasLoop fuel (aliasRound ⟨rest, false⟩).2).map
          ((aliasRound ⟨rest, false⟩).1.toList ++ ·) := by
  rw [aliasLoop, if_neg Bool.false_ne_true]
  dsimp only
  cases aliasLoop fuel (aliasRound ⟨rest, false⟩).2 <;> rfl

/-- A record is read in some rounds, the last of which reads `lastRead`. -/
theorem aliasLoop_record (t : CStr) (h0 : 0 ∉ t) (R : List UInt8) : ∃ k, ∀ fuel,
    aliasLoop (fuel + k) ⟨t ++ 0 :: R, false⟩
      = (aliasLoop fuel (readingStream R (reading (lastRead t))).2).map
          ((readingStream R (reading (lastRead t))).1.toList ++ ·) := by
  have hround : ∀ {t : CStr}, 0 ∉ t → ∀ fuel, aliasLoop (fuel + 1) ⟨t ++ 0 :: R, false⟩
      = (aliasLoop fuel (readingStream R (reading t)).2).map
          ((readingStream R (reading t)).1.toList ++ ·) := by
    intro t h0 fuel
    rw [aliasLoop_succ, aliasRound_eq h0]
  induction t using lastRead.induct with
  | case1 t rest hrest ih =>
    obtain ⟨k, hk⟩ := ih (fun h => h0 ((reading_again hrest).1.subset h))
    refine ⟨k + 1, fun fuel => ?_⟩
    rw [← Nat.add_assoc, hround h0, hrest, lastRead_again hrest]
    show (aliasLoop (fuel + k) ⟨rest ++ 0 :: R, false⟩).map ([] ++ ·) = _
    rw [hk fuel]
    cases aliasLoop fuel (readingStream R (reading (lastRead rest))).2 <;> rfl
  | case2 t hself =>
    refine ⟨1, fun fuel => ?_⟩
    rw [lastRead_eq_self hself]
    exact hround h0 fuel

/-- The entry that is inserted for a record, if it is read from its beginning. -/
def ownEntry (r : CStr) : Option (CStr × CStr) :=
  match reading (lastRead r) with
  | .done inserted => inserted
  | _ => none

/-- The call of `index_insert` for an entry, before the part `R` of the file. -/
def placed (R : List UInt8) (entry : Option (CStr × CStr)) : List Inserted :=
  (entry.map (fun i => ⟨R.length, i.1, i.2⟩)).toList

/-- The record is read beyond its end. -/
def SkipsNext (r : CStr) : Prop := KeyOnly (lastRead r)

instance : DecidablePred SkipsNext :=
  fun r => decidable_of_iff (reading (lastRead r) = .skipNext) reading_skipNext_iff

/-- What is inserted for the records of a file. -/
def readLog : List CStr → List Inserted
  | [] => []
  | [r] => placed [] (ownEntry r)
  | r :: r' :: rs =>
    placed (content (r' :: rs)) (ownEntry r) ++
      if SkipsNext r then readLog rs else readLog (r' :: rs)

/-- What is to be inserted: one entry for each record that has one, when the record is read. -/
def expectedLog : List CStr → List Inserted
  | [] => []
  | r :: rs => placed (content rs) (entryOf r) ++ expectedLog rs

/-! ## Whole files -/

theorem readingStream_inserted (R : List UInt8) (r : CStr) :
    (readingStream R (reading (lastRead r))).1.toList = placed R (ownEntry r) := by
  unfold placed ownEntry
  cases reading (lastRead r) <;> rfl

/-- The end of the file is met in one more round. -/
theorem aliasLoop_empty (fuel : Nat) : aliasLoop (fuel + 2) ⟨[], false⟩ = .ok [] := by
  rw [aliasLoop_succ]
  rfl

theorem content_cons (r : CStr) (rs : List CStr) : content (r :: rs) = r ++ 0 :: content rs := by
  rw [content, List.flatMap_cons, List.append_assoc]
  rfl

/-- What is read last is read to its end. -/
theorem reading_lastRead (t : CStr) : ∀ rest, reading (lastRead t) ≠ .again rest := by
  induction t using lastRead.induct with
  | case1 t rest hrest ih =>
    rw [lastRead_again hrest]
    exact ih
  | case2 t hself =>
    rw [lastRead_eq_self hself]
    exact hself

/-- A record, and then what follows where it has been left. -/
theorem aliasLoop_cons {r : CStr} (h0 : 0 ∉ r) (rs : List CStr) {log : List Inserted}
    (h : ∃ bound, ∀ fuel ≥ bound,
      aliasLoop fuel (readingStream (content rs) (reading (lastRead r))).2 = .ok log) :
    ∃ bound, ∀ fuel ≥ bound, aliasLoop fuel ⟨content (r :: rs), false⟩
      = .ok (placed (content rs) (ownEntry r) ++ log) := by
  obtain ⟨bound, hlog⟩ := h
  obtain ⟨k, hk⟩ := aliasLoop_record r h0 (content rs)
  refine ⟨bound + k, fun fuel hfuel => ?_⟩
  obtain ⟨fuel, rfl⟩ : ∃ n, fuel = n + k := ⟨fuel - k, by omega⟩
  rw [content_cons, hk, hlog fuel (by omega), readingStream_inserted]
  rfl

/-- The stream behind a record that is read to its end. -/
theorem readingStream_of_not_skips {r : CStr} (h : ¬ SkipsNext r) (R : List UInt8) :
    (readingStream R (reading (lastRead r))).2 = ⟨R, false⟩ := by
  have hagain := reading_lastRead r
  cases hr : reading (lastRead r) with
  | done inserted => rfl
  | skipNext => exact absurd (reading_skipNext_iff.1 hr) h
  | again rest => exact absurd hr (hagain rest)

/-- **The loop inserts what `readLog` says**, and comes to an end. -/
theorem aliasLoop_content (records : List CStr) (h0 : ∀ r ∈ records, 0 ∉ r) :
    ∃ bound, ∀ fuel ≥ bound, aliasLoop fuel ⟨content records, false⟩ = .ok (readLog records) := by
  induction records using readLog.induct with
  | case1 =>
    refine ⟨2, fun fuel hfuel => ?_⟩
    obtain ⟨fuel, rfl⟩ : ∃ n, fuel = n + 2 := ⟨fuel - 2, by omega⟩
    exact aliasLoop_empty fuel
  | case2 r =>
    have hend : ∃ bound, ∀ fuel ≥ bound,
        aliasLoop fuel (readingStream (content []) (reading (lastRead r))).2 = .ok [] := by
      refine ⟨2, fun fuel hfuel => ?_⟩
      obtain ⟨fuel, rfl⟩ : ∃ n, fuel = n + 2 := ⟨fuel - 2, by omega⟩
      by_cases hskip : SkipsNext r
      · rw [reading_skipNext_iff.2 hskip]
        rfl
      · rw [readingStream_of_not_skips hskip]
        exact aliasLoop_empty fuel
    obtain ⟨bound, hlog⟩ := aliasLoop_cons (h0 r (List.mem_singleton_self r)) [] hend
    exact ⟨bound, fun fuel hfuel => by rw [hlog fuel hfuel, List.append_nil]; rfl⟩
  | case3 r r' rs ih ih' =>
    rw [readLog]
    refine aliasLoop_cons (h0 r (by simp)) (r' :: rs) ?_
    by_cases hskip : SkipsNext r
    · rw [if_pos hskip, reading_skipNext_iff.2 hskip, content_cons]
      show ∃ bound, ∀ fuel ≥ bound, aliasLoop fuel (flushStream 0 ⟨r' ++ 0 :: content rs, false⟩) = _
      rw [flushStream_eq (h0 r' (by simp))]
      exact ih (fun x hx => h0 x (by simp [hx]))
    · rw [if_neg hskip, readingStream_of_not_skips hskip]
      exact ih' (fun x hx => h0 x (List.mem_cons_of_mem r hx))

/-! ## Which records are read right -/

/-- The record of an alias with a part that just fills the buffer, so that it is cut short. -/
def FillsBuffer (r : CStr) : Prop :=
  ∃ modname value, r = aliasRecord modname value ∧ 46 ∉ modname ∧
    (modname.length = PATH_MAX ∨ value.length = PATH_MAX)

/--
An entry is inserted for a record that has none: a part of it was taken for a record, or
cut short.
-/
def Misread (r : CStr) : Prop :=
  (lastRead r ≠ r ∨ FillsBuffer r) ∧ ReadAsAlias (lastRead r)

theorem entryOf_aliasRecord {m : CStr} (hm : 46 ∉ m) (v : CStr) :
    entryOf (aliasRecord m v) =
      if m ≠ [] ∧ v ≠ [] ∧ m.length < PATH_MAX ∧ v.length < PATH_MAX then
        (aliasNormalize v).map (fun a => (a, m))
      else none := by
  have htake : (aliasRecord m v).takeWhile (· ≠ 46) = m := (takeWhile_delimiter hm _).1
  have hdrop : (aliasRecord m v).drop (aliasRecord m []).length = v := by
    have happend : aliasRecord m v = aliasRecord m [] ++ v := by simp [aliasRecord]
    rw [happend, List.drop_left]
  unfold entryOf
  simp only [htake, hdrop, true_and]

/-- The records with an entry. -/
theorem entryOf_eq_some_iff {r a m : CStr} :
    entryOf r = some (a, m) ↔ ∃ v, r = aliasRecord m v ∧ m ≠ [] ∧ 46 ∉ m ∧ v ≠ [] ∧
      m.length < PATH_MAX ∧ v.length < PATH_MAX ∧ aliasNormalize v = some a := by
  constructor
  · intro h
    unfold entryOf at h
    dsimp only at h
    split at h
    · next hr =>
      obtain ⟨a', ha', heq⟩ := Option.map_eq_some_iff.1 h
      cases heq
      obtain ⟨hrec, hm, hv, hmlen, hvlen⟩ := hr
      refine ⟨_, hrec, hm, fun hmem => ?_, hv, hmlen, hvlen, ha'⟩
      have hne := List.mem_takeWhile_imp hmem
      simp at hne
    · cases h
  · rintro ⟨v, rfl, hne, hm, hv, hmlen, hvlen, ha⟩
    rw [entryOf_aliasRecord hm, if_pos ⟨hne, hv, hmlen, hvlen⟩, ha]
    rfl

/-- A record with an entry is read right. -/
theorem reading_of_entryOf {r : CStr} {entry : CStr × CStr} (h : entryOf r = some entry) :
    reading r = .done (some entry) := by
  obtain ⟨a, m⟩ := entry
  obtain ⟨v, rfl, hne, hm, hv, hmlen, hvlen, ha⟩ := entryOf_eq_some_iff.1 h
  rw [reading_aliasRecord hm hne (Nat.le_of_lt hmlen), readingValue, if_neg (by omega), if_neg hv,
    List.take_of_length_le (by omega), List.take_of_length_le (by omega), ha]
  rfl

theorem entryOf_eq_none {r : CStr} (h : ∀ entry, reading r ≠ .done (some entry)) :
    entryOf r = none := by
  cases hentry : entryOf r with
  | none => rfl
  | some entry => exact absurd (reading_of_entryOf hentry) (h entry)

/-- A part that fills the buffer is too long for an entry. -/
theorem FillsBuffer.entryOf_eq_none {r : CStr} (h : FillsBuffer r) : entryOf r = none := by
  obtain ⟨m, v, rfl, hm, hlen⟩ := h
  rw [entryOf_aliasRecord hm]
  refine if_neg (fun hparts => ?_)
  omega

/-- Where no part fills the buffer, the entry that is inserted is the one of the record. -/
theorem entryOf_of_reading {r : CStr} {entry : CStr × CStr} (h : reading r = .done (some entry))
    (hfills : ¬ FillsBuffer r) : entryOf r = some entry := by
  obtain ⟨m, v, rfl, hne, hm, hv, hmlen, hvlen, -⟩ := reading_inserted_iff.1 ⟨entry, h⟩
  have hmlt : m.length < PATH_MAX :=
    Nat.lt_of_le_of_ne hmlen (fun heq => hfills ⟨m, v, rfl, hm, .inl heq⟩)
  have hvlt : v.length < PATH_MAX :=
    Nat.lt_of_le_of_ne hvlen (fun heq => hfills ⟨m, v, rfl, hm, .inr heq⟩)
  rw [reading_aliasRecord hm hne hmlen, readingValue, if_neg (by omega), if_neg hv,
    List.take_of_length_le (by omega), List.take_of_length_le (by omega)] at h
  rw [entryOf_aliasRecord hm, if_pos ⟨hne, hv, hmlt, hvlt⟩]
  exact Reading.done.inj h

theorem lastRead_length (t : CStr) : (lastRead t).length ≤ t.length := by
  induction t using lastRead.induct with
  | case1 t rest hrest ih =>
    rw [lastRead_again hrest]
    exact Nat.le_trans ih (Nat.le_of_lt (reading_again hrest).2)
  | case2 t hself => rw [lastRead_eq_self hself]

/-- **The entry of a record is the one that is inserted**, unless it is misread. -/
theorem ownEntry_eq_iff (r : CStr) : ownEntry r = entryOf r ↔ ¬ Misread r := by
  by_cases hagain : ∃ rest, reading r = .again rest
  · obtain ⟨rest, hrest⟩ := hagain
    have hnone : entryOf r = none := entryOf_eq_none (fun entry h => by rw [hrest] at h; cases h)
    have hne : lastRead r ≠ r := by
      intro heq
      have hlt := (reading_again hrest).2
      have hle := lastRead_length rest
      rw [← lastRead_again hrest, heq] at hle
      omega
    rw [hnone, Misread, ← reading_inserted_iff]
    unfold ownEntry
    cases hr : reading (lastRead r) with
    | done inserted => cases inserted <;> simp [hne]
    | skipNext => simp
    | again rest => simp
  · have hself : lastRead r = r := lastRead_eq_self (fun rest h => hagain ⟨rest, h⟩)
    rw [Misread, ← reading_inserted_iff]
    unfold ownEntry
    rw [hself]
    cases hr : reading r with
    | done inserted =>
      cases inserted with
      | none => simp [entryOf_eq_none (fun entry h => by rw [hr] at h; cases h)]
      | some entry =>
        by_cases hfills : FillsBuffer r
        · simp [hfills.entryOf_eq_none, hfills]
        · simp [entryOf_of_reading hr hfills, hfills]
    | skipNext => simp [entryOf_eq_none (fun entry h => by rw [hr] at h; cases h)]
    | again rest => exact absurd ⟨rest, hr⟩ hagain

/-! ## Which files are read right -/

/--
The records are read right: none that is read is misread, and none that is skipped has an
entry.
-/
def Intact : List CStr → Prop
  | [] => True
  | [r] => ¬ Misread r
  | r :: r' :: rs =>
    ¬ Misread r ∧ if SkipsNext r then entryOf r' = none ∧ Intact rs else Intact (r' :: rs)

theorem left_of_placed {R : List UInt8} {entry : Option (CStr × CStr)} {i : Inserted}
    (h : i ∈ placed R entry) : i.left = R.length := by
  unfold placed at h
  rw [Option.mem_toList] at h
  obtain ⟨e, -, rfl⟩ := Option.map_eq_some_iff.1 h
  rfl

theorem length_content_lt (r : CStr) (rs : List CStr) :
    (content rs).length < (content (r :: rs)).length := by
  rw [content_cons, List.length_append, List.length_cons]
  omega

/-- What is inserted for records is inserted when less than all of them is left. -/
theorem left_of_expectedLog (records : List CStr) :
    ∀ i ∈ expectedLog records, i.left < (content records).length := by
  induction records with
  | nil =>
    intro i hi
    cases hi
  | cons r rs ih =>
    intro i hi
    have hlt := length_content_lt r rs
    rcases List.mem_append.1 hi with hi | hi
    · rw [left_of_placed hi]
      exact hlt
    · have := ih i hi
      omega

theorem left_of_readLog (records : List CStr) :
    ∀ i ∈ readLog records, i.left < (content records).length := by
  induction records using readLog.induct with
  | case1 =>
    intro i hi
    cases hi
  | case2 r =>
    intro i hi
    rw [readLog] at hi
    rw [left_of_placed hi]
    exact length_content_lt r []
  | case3 r r' rs ih ih' =>
    intro i hi
    have hlt := length_content_lt r (r' :: rs)
    have hlt' := length_content_lt r' rs
    rw [readLog] at hi
    rcases List.mem_append.1 hi with hi | hi
    · rw [left_of_placed hi]
      exact hlt
    · split at hi
      · have := ih i hi
        omega
      · have := ih' i hi
        omega

/-- What is inserted for a record and for those behind it can be told apart. -/
theorem placed_append_inj {R : List UInt8} {a b : Option (CStr × CStr)} {L M : List Inserted}
    (hL : ∀ i ∈ L, i.left < R.length) (hM : ∀ i ∈ M, i.left < R.length) :
    placed R a ++ L = placed R b ++ M ↔ a = b ∧ L = M := by
  -- an entry at the front of the rest would have been inserted too early
  have hfront : ∀ (x : CStr × CStr) {L M : List Inserted}, (∀ i ∈ M, i.left < R.length) →
      ⟨R.length, x.1, x.2⟩ :: L ≠ M := by
    rintro x L M hM rfl
    exact Nat.lt_irrefl _ (hM _ (List.mem_cons_self ..))
  cases a with
  | none =>
    cases b with
    | none => simp [placed]
    | some y => exact iff_of_false (fun h => hfront y hL h.symm) (fun h => by cases h.1)
  | some x =>
    cases b with
    | none => exact iff_of_false (fun h => hfront x hM h) (fun h => by cases h.1)
    | some y => simp [placed, Prod.ext_iff]

/-- **The log is the expected one** exactly if the file is read right. -/
theorem readLog_eq_iff (records : List CStr) :
    readLog records = expectedLog records ↔ Intact records := by
  induction records using readLog.induct with
  | case1 => exact iff_of_true rfl trivial
  | case2 r =>
    have hone := placed_append_inj (R := []) (a := ownEntry r) (b := entryOf r)
      (L := []) (M := []) (by simp) (by simp)
    rw [List.append_nil] at hone
    rw [readLog, Intact, ← ownEntry_eq_iff]
    exact hone.trans (and_iff_left rfl)
  | case3 r r' rs ih ih' =>
    have hlt := length_content_lt r' rs
    have hexpected := left_of_expectedLog (r' :: rs)
    rw [readLog, expectedLog, Intact, ← ownEntry_eq_iff]
    by_cases hskip : SkipsNext r
    · have hrest : ∀ i ∈ readLog rs, i.left < (content (r' :: rs)).length :=
        fun i hi => Nat.lt_trans (left_of_readLog rs i hi) hlt
      have hnext := placed_append_inj (a := none) (b := entryOf r') (left_of_readLog rs)
        (left_of_expectedLog rs)
      rw [if_pos hskip, if_pos hskip, placed_append_inj hrest hexpected, ← ih, expectedLog]
      refine and_congr_right (fun _ => hnext.trans ?_)
      rw [eq_comm]
    · rw [if_neg hskip, if_neg hskip, placed_append_inj (left_of_readLog _) hexpected, ih']

/-! ## Ordinary files -/

/-- A record of a key and a value, with parts that fit the buffers. -/
def Plain (r : CStr) : Prop :=
  ∃ m k v, r = m ++ 46 :: (k ++ 61 :: v) ∧ m ≠ [] ∧ 46 ∉ m ∧ 61 ∉ k ∧ m.length < PATH_MAX ∧
    k.length < PATH_MAX ∧ v.length < PATH_MAX

theorem Plain.reading_eq {r : CStr} (h : Plain r) : ∃ inserted, reading r = .done inserted := by
  obtain ⟨m, k, v, rfl, hne, hm, hk, hmlen, hklen, hvlen⟩ := h
  unfold reading
  rw [cut_found hm (Nat.le_of_lt hmlen)]
  dsimp only
  rw [if_neg hne, readingKey, cut_found hk (Nat.le_of_lt hklen)]
  dsimp only
  split
  · exact ⟨none, rfl⟩
  · rw [readingValue, if_neg (by omega)]
    split
    · exact ⟨none, rfl⟩
    · exact ⟨_, rfl⟩

theorem Plain.not_fillsBuffer {r : CStr} (h : Plain r) : ¬ FillsBuffer r := by
  obtain ⟨m, k, v, rfl, -, hm, hk, hmlen, -, hvlen⟩ := h
  rintro ⟨m', v', heq, hm', hlen⟩
  obtain ⟨rfl, hrest⟩ := delimiter_inj hm hm' heq
  obtain ⟨-, rfl⟩ := delimiter_inj hk (by decide) hrest
  omega

theorem Plain.not_misread {r : CStr} (h : Plain r) : ¬ Misread r := by
  obtain ⟨inserted, hread⟩ := h.reading_eq
  have hself : lastRead r = r := lastRead_eq_self (fun rest hr => by rw [hread] at hr; cases hr)
  rintro ⟨hne | hfills, -⟩
  · exact hne hself
  · exact h.not_fillsBuffer hfills

theorem Plain.not_skipsNext {r : CStr} (h : Plain r) : ¬ SkipsNext r := by
  obtain ⟨inserted, hread⟩ := h.reading_eq
  have hself : lastRead r = r := lastRead_eq_self (fun rest hr => by rw [hread] at hr; cases hr)
  intro hskip
  rw [SkipsNext, hself, ← reading_skipNext_iff, hread] at hskip
  cases hskip

/-- A file of records with a key and a value each is read right. -/
theorem intact_of_plain (records : List CStr) (h : ∀ r ∈ records, Plain r) : Intact records := by
  induction records with
  | nil => trivial
  | cons r rs ih =>
    have hr := h r (List.mem_cons_self ..)
    have hrs := ih (fun x hx => h x (List.mem_cons_of_mem r hx))
    cases rs with
    | nil => exact hr.not_misread
    | cons r' rs =>
      rw [Intact, if_neg hr.not_skipsNext]
      exact ⟨hr.not_misread, hrs⟩

/-! ## The result -/

/--
The loop comes to an end; it inserts one entry for each record with an entry, when the
record has just been read, and nothing else.
-/
def InsertsEntries (records : List CStr) : Prop :=
  ∃ bound, ∀ fuel ≥ bound, aliasLoop fuel ⟨content records, false⟩ = .ok (expectedLog records)

/--
**When builtin aliases are read right.** For every file that is a sequence of records, the
entries that `output_builtin_alias_bin` inserts are those of the records, each inserted for
its own record, if and only if no record is misread and none with an entry is skipped.
-/
theorem outputBuiltinAlias_iff (records : List CStr) (h0 : ∀ r ∈ records, 0 ∉ r) :
    InsertsEntries records ↔ Intact records := by
  obtain ⟨bound, hlog⟩ := aliasLoop_content records h0
  rw [← readLog_eq_iff]
  constructor
  · rintro ⟨bound', h⟩
    have hsame := (hlog (bound + bound') (by omega)).symm.trans (h (bound + bound') (by omega))
    exact Except.ok.inj hsame
  · intro h
    exact ⟨bound, fun fuel hfuel => h ▸ hlog fuel hfuel⟩

/-- Two records of one module. -/
def fooRecords : List CStr := [cstr "foo.license=GPL", cstr "foo.alias=fs-foo"]

theorem outputBuiltinAlias_foo : InsertsEntries fooRecords :=
  (outputBuiltinAlias_iff fooRecords (by decide)).2 (intact_of_plain fooRecords (by
    intro r hr
    rcases List.mem_cons.1 hr with rfl | hr
    · exact ⟨cstr "foo", cstr "license", cstr "GPL", by decide⟩
    · rw [List.mem_singleton.1 hr]
      exact ⟨cstr "foo", cstr "alias", cstr "fs-foo", by decide⟩))

/-- A record without `=`, and the record of an alias. -/
def keyOnlyRecords : List CStr := [cstr "foo.license", cstr "bar.alias=fs-bar"]

/-- The alias of `bar` is lost. -/
theorem outputBuiltinAlias_lost : ¬ InsertsEntries keyOnlyRecords := by
  have hread : reading (cstr "foo.license") = .skipNext := by decide
  have hself : lastRead (cstr "foo.license") = cstr "foo.license" :=
    lastRead_eq_self (fun rest h => by rw [hread] at h; cases h)
  have hskip : SkipsNext (cstr "foo.license") := by
    rw [SkipsNext, hself]
    exact reading_skipNext_iff.1 hread
  have hentry : entryOf (cstr "bar.alias=fs-bar") = some (cstr "fs_bar", cstr "bar") := by decide
  obtain ⟨bound, hlog⟩ := aliasLoop_content keyOnlyRecords (by decide)
  rintro ⟨bound', h⟩
  have hsame := (hlog (bound + bound') (by omega)).symm.trans (h (bound + bound') (by omega))
  have hintact := (readLog_eq_iff keyOnlyRecords).1 (Except.ok.inj hsame)
  rw [keyOnlyRecords, Intact, if_pos hskip, hentry] at hintact
  cases hintact.2.1

/-! ## The file that is written -/

theorem clean_of_entryOf {r a m : CStr} (hr : Clean r) (h : entryOf r = some (a, m)) :
    Clean a ∧ Clean m := by
  obtain ⟨v, rfl, -, -, -, -, -, ha⟩ := entryOf_eq_some_iff.1 h
  refine ⟨fun c hc => ?_, fun c hc => hr c (List.mem_append_left _ hc)⟩
  rcases mem_of_mem_aliasNormalizeLoop _ ha c hc with rfl | hmem
  · decide
  · exact hr c (by simp [aliasRecord, hmem])

theorem clean_expectedLog (records : List CStr) (h : ∀ r ∈ records, Clean r) :
    ∀ e ∈ (expectedLog records).map Inserted.entry, e.Clean := by
  induction records with
  | nil =>
    intro e he
    cases he
  | cons r rs ih =>
    intro e he
    rw [expectedLog, List.map_append] at he
    rcases List.mem_append.1 he with he | he
    · obtain ⟨i, hi, rfl⟩ := List.mem_map.1 he
      rw [placed, Option.mem_toList] at hi
      obtain ⟨entry, hentry, rfl⟩ := Option.map_eq_some_iff.1 hi
      exact clean_of_entryOf (h r (List.mem_cons_self ..)) hentry
    · exact ih (fun x hx => h x (List.mem_cons_of_mem r hx)) e he

/-- **A file that is read right** leaves the index with the entries of its records. -/
theorem outputBuiltinAliasBin_intact (records : List CStr) (hclean : ∀ r ∈ records, Clean r)
    (h : Intact records) :
    ∃ root bound, Contains root ((expectedLog records).map Inserted.entry) ∧ ∀ fuel ≥ bound,
      outputBuiltinAliasBin fuel false (some (content records)) true false
        = .ok (0, some (indexWrite root)) := by
  obtain ⟨bound, hlog⟩ := aliasLoop_content records (fun r hr h0 => (hclean r hr 0 h0).1 rfl)
  obtain ⟨root, hinsert, hcontains⟩ := insertEntries_contains (clean_expectedLog records hclean)
  refine ⟨root, bound, hcontains, fun fuel hfuel => ?_⟩
  rw [(readLog_eq_iff records).2 h] at hlog
  unfold outputBuiltinAliasBin
  rw [if_neg Bool.false_ne_true]
  dsimp only
  rw [Bool.not_true, if_neg Bool.false_ne_true, hlog fuel hfuel, ok_bind, hinsert]
  rfl

end Kmod.BuiltinAlias
