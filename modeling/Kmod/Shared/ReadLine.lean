import Kmod.Base
import Kmod.Lib.Memory
import Kmod.Lib.Bytes

/-!
# Logical lines

`freadline_wrapped` reads the next logical line of a configuration file. A backslash takes
the meaning from the character behind it: of a newline, which then does not end the line and
is not part of it either, and of a backslash.

`marks` says what the bytes of a file mean, one after the other, and the logical lines are
what stands between the newlines that still end a line (`logicalLines`). The invariant of
the loop is the text so far at the start of a buffer that is larger than the text, so there
is always room for one character, or for the NUL at the end (`freadLoop_spec`).
-/

namespace Kmod

open Memory Bytes

/-! ## The model -/

/-- `buf[i++] = ch`, and then a larger buffer if this one is full; the sizes are `size_t`. -/
def storeByte (heap : Allocator) (buf : List UInt8) (i size : Nat) (ch : UInt8) :
    Except Fault (Option (Nat × List UInt8)) := do
  let buf ← inBlock (putRange buf i [ch])
  if i + 1 = size then
    let size := size * 2 % 2 ^ 64
    .ok ((heap.realloc buf size).map (fun buf => (size, buf)))
  else .ok (some (size, buf))

/-- A call returns a line or `NULL`, `*linenum`, and leaves what it has not read. -/
abbrev ReadResult := Except Fault (Option CStr × Option UInt32 × List UInt8)

/-- The end of a line. -/
def endLine (linenum : Option UInt32) (rest : List UInt8) (i : Nat) (n : UInt32)
    (buf : List UInt8) : ReadResult := do
  let ret ← inBlock (putRange buf i [0])
  let line ← inBlock ((takeCstr ret).map (·.1))
  .ok (some line, linenum.map (· + (n + 1)), rest)

/-- The end of the file. -/
def endFile (linenum : Option UInt32) (i : Nat) (n : UInt32) (buf : List UInt8) : ReadResult :=
  if i = 0 then .ok (none, linenum, []) else endLine linenum [] i n buf

/-- The loop of `freadline_wrapped`, over the bytes that are still to be read. -/
def freadLoop (heap : Allocator) (linenum : Option UInt32) :
    List UInt8 → Nat → Nat → UInt32 → List UInt8 → ReadResult
  | [], i, _, n, buf => endFile linenum i n buf
  | ch :: rest, i, size, n, buf =>
    if ch = 10 then endLine linenum rest i n buf
    else if ch = 92 then
      match rest with
      -- `continue`, and the end of the file is read again
      | [] => endFile linenum i n buf
      | ch :: rest =>
        if ch = 10 then freadLoop heap linenum rest i size (n + 1) buf
        else do
          match ← storeByte heap buf i size ch with
          | none => .ok (none, linenum, rest)
          | some (size, buf) => freadLoop heap linenum rest (i + 1) size n buf
    else do
      match ← storeByte heap buf i size ch with
      | none => .ok (none, linenum, rest)
      | some (size, buf) => freadLoop heap linenum rest (i + 1) size n buf

/-- `freadline_wrapped` -/
def freadlineWrapped (heap : Allocator) (linenum : Option UInt32) (fp : List UInt8) : ReadResult :=
  match heap.malloc 256 with
  | none => .ok (none, linenum, fp)
  | some buf => freadLoop heap linenum fp 0 256 0 buf

/-- Reading until `NULL`: the lines, each with `*linenum` when it is returned. -/
def readLines (heap : Allocator) :
    Nat → Option UInt32 → List UInt8 → Except Fault (List (CStr × Option UInt32))
  | 0, _, _ => .error .outOfFuel
  | fuel + 1, linenum, fp => do
    match ← freadlineWrapped heap linenum fp with
    | (none, _, _) => .ok []
    | (some line, linenum, fp) => do
      let lines ← readLines heap fuel linenum fp
      .ok ((line, linenum) :: lines)

/-! ## What the bytes mean -/

inductive Mark where
  | char (c : UInt8)
  /-- A newline that does not end its line. -/
  | joined
  | newline
  deriving DecidableEq

/-- The marks of a file; a backslash at its end is none. -/
def marks : List UInt8 → List Mark
  | [] => []
  | c :: rest =>
    if c = 10 then .newline :: marks rest
    else if c = 92 then
      match rest with
      | [] => []
      | d :: rest => (if d = 10 then .joined else .char d) :: marks rest
    else .char c :: marks rest

def Mark.char? : Mark → Option UInt8
  | .char c => some c
  | _ => none

/-- The text of a line. -/
def lineText (line : List Mark) : CStr := line.filterMap Mark.char?

/-- Its newlines, with the one that ends it or the end of the file. -/
def lineCount (line : List Mark) : Nat := line.count .joined + 1

/-- What stands between newlines; behind the last one there is a line only if it has a text. -/
def linesOf (ms : List Mark) : List (List Mark) :=
  (ms.splitOn .newline).dropLast
    ++ ((ms.splitOn .newline).getLast?.filter (fun last => lineText last ≠ [])).toList

/-- The logical lines of a file, as marks. -/
def logicalLines (content : List UInt8) : List (List Mark) := linesOf (marks content)

example : (logicalLines (cstr "a\\\nb\n\nc\\\\\\")).map (fun l => (lineText l, lineCount l))
    = [(cstr "ab", 2), ([], 1), (cstr "c\\", 1)] := by decide +kernel

/-- The texts, and the line number after each of them. -/
def numbered (linenum : Option UInt32) : List (List Mark) → List (CStr × Option UInt32)
  | [] => []
  | line :: lines =>
    let linenum := linenum.map (· + UInt32.ofNat (lineCount line))
    (lineText line, linenum) :: numbered linenum lines

/-! ## The buffer -/

/-- The sizes that the buffer can have: 256, doubled, as far as the allocator goes. -/
def BufSize (size : Nat) : Prop := (∃ k, size = 256 * 2 ^ k) ∧ size ≤ PTRDIFF_MAX

/-- Every request is granted that a line of this length makes. -/
def Allocator.Grants (heap : Allocator) (len : Nat) : Prop :=
  ∀ k, 256 * 2 ^ k ≤ len → heap.grants (256 * 2 ^ (k + 1)) = true

theorem junk_pos {text junk : List UInt8} {size : Nat} (hbuf : (text ++ junk).length = size)
    (hlt : text.length < size) : 0 < junk.length := by
  rw [List.length_append] at hbuf
  omega

/-- **There is always room**: behind a text that fits, one character more. -/
theorem storeByte_spec {heap : Allocator} (hheap : heap.Bounded)
    {text junk : List UInt8} {size : Nat}
    (hsize : BufSize size) (hbuf : (text ++ junk).length = size) (hlt : text.length < size)
    {len : Nat} (hlen : text.length < len) (hgrants : heap.Grants len) (ch : UInt8) :
    ∃ size' junk', BufSize size' ∧ ((text ++ [ch]) ++ junk').length = size' ∧
      (text ++ [ch]).length < size' ∧
      storeByte heap (text ++ junk) text.length size ch
        = .ok (some (size', (text ++ [ch]) ++ junk')) := by
  have hroom : 1 ≤ junk.length := junk_pos hbuf hlt
  have hput : putRange (text ++ junk) text.length [ch] = some ((text ++ [ch]) ++ junk.drop 1) := by
    rw [putRange_append text junk [ch] hroom, List.append_assoc]
    rfl
  have hlenBuf : ((text ++ [ch]) ++ junk.drop 1).length = size := by
    rw [← hbuf]
    simp only [List.length_append, List.length_drop, List.length_singleton]
    omega
  unfold storeByte
  rw [hput, inBlock_some, ok_bind]
  by_cases hfull : text.length + 1 = size
  · obtain ⟨⟨k, hk⟩, -⟩ := hsize
    have hgranted : heap.grants (size * 2) = true := by
      rw [hk, Nat.mul_assoc, ← Nat.pow_succ]
      exact hgrants k (by omega)
    have hmax := hheap _ hgranted
    have hmax' : PTRDIFF_MAX < 2 ^ 64 := by decide
    refine ⟨size * 2, junk.drop 1 ++ (List.range size).map heap.junk,
      ⟨⟨k + 1, by rw [hk]; omega⟩, hmax⟩, ?_, ?_, ?_⟩
    · rw [← List.append_assoc, List.length_append, hlenBuf, List.length_map, List.length_range]
      omega
    · rw [List.length_append, List.length_singleton]
      omega
    · rw [if_pos hfull]
      dsimp only
      rw [Nat.mod_eq_of_lt (by omega), Allocator.realloc, if_pos hgranted, hlenBuf,
        List.take_of_length_le (by omega), Option.map_some, ← List.append_assoc]
      congr 6
      omega
  · refine ⟨size, junk.drop 1, hsize, hlenBuf, ?_, if_neg hfull⟩
    rw [List.length_append, List.length_singleton]
    omega

/-- There is room for the NUL, and the line is the text. -/
theorem endLine_eq {text junk : List UInt8} (hroom : 0 < junk.length) (hnul : 0 ∉ text)
    (linenum : Option UInt32) (rest : List UInt8) (n : UInt32) :
    endLine linenum rest text.length n (text ++ junk)
      = .ok (some text, linenum.map (· + (n + 1)), rest) := by
  have hput : putRange (text ++ junk) text.length [0] = some (text ++ 0 :: junk.drop 1) :=
    putRange_append text junk [0] hroom
  unfold endLine
  rw [hput, inBlock_some, ok_bind, takeCstr_append hnul, Option.map_some, inBlock_some, ok_bind]

/-! ## One call -/

/-- The marks up to the next newline. -/
def piece (rest : List UInt8) : List Mark := (marks rest).takeWhile (· ≠ .newline)

/-- The marks from the next newline on. -/
def after (rest : List UInt8) : List Mark := (marks rest).dropWhile (· ≠ .newline)

/-- Before the bytes `more` there stands a mark that does not end the line. -/
structure Begins (rest : List UInt8) (m : Mark) (more : List UInt8) : Prop where
  marks_eq : marks rest = m :: marks more
  inside : m ≠ .newline
  suffix : more <:+ rest
  shorter : more.length < rest.length

theorem Begins.piece_eq {rest more : List UInt8} {m : Mark} (h : Begins rest m more) :
    piece rest = m :: piece more := by
  unfold piece
  rw [h.marks_eq, List.takeWhile_cons_of_pos (by simpa using h.inside)]

theorem Begins.after_eq {rest more : List UInt8} {m : Mark} (h : Begins rest m more) :
    after rest = after more := by
  unfold after
  rw [h.marks_eq, List.dropWhile_cons_of_pos (by simpa using h.inside)]

theorem begins_joined (rest : List UInt8) : Begins (92 :: 10 :: rest) .joined rest :=
  ⟨rfl, by decide, ⟨[92, 10], rfl⟩, Nat.lt_add_of_pos_right (by decide : 0 < 2)⟩

theorem begins_escaped {d : UInt8} (hd : d ≠ 10) (rest : List UInt8) :
    Begins (92 :: d :: rest) (.char d) rest := by
  refine ⟨?_, fun h => (by cases h), ⟨[92, d], rfl⟩, Nat.lt_add_of_pos_right (by decide : 0 < 2)⟩
  simp [marks, hd]

theorem begins_char {c : UInt8} (hc : c ≠ 10) (hc' : c ≠ 92) (rest : List UInt8) :
    Begins (c :: rest) (.char c) rest := by
  refine ⟨?_, fun h => (by cases h), ⟨[c], rfl⟩, Nat.lt_succ_self _⟩
  rw [marks.eq_def]
  dsimp only
  rw [if_neg hc, if_neg hc']

/-- What a call gives, when it has read `text` and `n` newlines and `rest` is still to be read. -/
def Reads (rest : List UInt8) (text : CStr) (linenum : Option UInt32) (n : UInt32)
    (res : ReadResult) : Prop :=
  (after rest = [] ∧ text ++ lineText (piece rest) = [] ∧ res = .ok (none, linenum, [])) ∨
  (¬ (after rest = [] ∧ text ++ lineText (piece rest) = []) ∧
    ∃ rest', rest' <:+ rest ∧ (rest ≠ [] → rest'.length < rest.length) ∧
      marks rest' = (after rest).tail ∧
      res = .ok (some (text ++ lineText (piece rest)),
        linenum.map (· + (n + UInt32.ofNat (lineCount (piece rest)))), rest'))

theorem Begins.reads {rest more : List UInt8} {m : Mark} (h : Begins rest m more)
    {text text' : CStr}
    {linenum : Option UInt32} {n n' : UInt32} {res : ReadResult}
    (htext : text ++ lineText (m :: piece more) = text' ++ lineText (piece more))
    (hn : n + UInt32.ofNat (lineCount (m :: piece more)) = n' + UInt32.ofNat (lineCount (piece more)))
    (hres : Reads more text' linenum n' res) : Reads rest text linenum n res := by
  unfold Reads at hres ⊢
  rw [h.piece_eq, h.after_eq, htext, hn]
  rcases hres with hnone | ⟨hsome, rest', hsuffix, -, hmarks, hres⟩
  · exact Or.inl hnone
  · have hle := hsuffix.length_le
    have hlt := h.shorter
    exact Or.inr ⟨hsome, rest', hsuffix.trans h.suffix, fun _ => by omega, hmarks, hres⟩

theorem lineText_char (c : UInt8) (line : List Mark) :
    lineText (.char c :: line) = c :: lineText line := rfl

theorem lineCount_char (c : UInt8) (line : List Mark) :
    lineCount (.char c :: line) = lineCount line := by
  unfold lineCount
  rw [List.count_cons_of_ne (by simp)]

theorem lineCount_joined (line : List Mark) : lineCount (.joined :: line) = lineCount line + 1 := by
  unfold lineCount
  rw [List.count_cons_self]

variable {heap : Allocator}

/-- At the end of the file. -/
theorem reads_endFile {rest : List UInt8} (hrest : marks rest = []) {text junk : List UInt8}
    (hroom : 0 < junk.length) (hnul : 0 ∉ text) (linenum : Option UInt32) (n : UInt32) :
    Reads rest text linenum n (endFile linenum text.length n (text ++ junk)) := by
  have hpiece : piece rest = [] := by rw [piece, hrest]; rfl
  have hafter : after rest = [] := by rw [after, hrest]; rfl
  unfold Reads endFile
  rw [hpiece, hafter]
  by_cases htext : text = []
  · subst htext
    exact Or.inl ⟨rfl, rfl, rfl⟩
  · refine Or.inr ⟨fun h => htext (List.append_eq_nil_iff.1 h.2).1, [], List.nil_suffix,
      fun hne => ?_, rfl, ?_⟩
    · exact List.length_pos_iff.2 hne
    · rw [if_neg (by simpa using htext), endLine_eq hroom hnul]
      exact congrArg (fun t => Except.ok (some t, _, [])) (List.append_nil text).symm

/-- At a newline. -/
theorem reads_endLine (rest : List UInt8) {text junk : List UInt8} (hroom : 0 < junk.length)
    (hnul : 0 ∉ text) (linenum : Option UInt32) (n : UInt32) :
    Reads (10 :: rest) text linenum n (endLine linenum rest text.length n (text ++ junk)) := by
  have hmarks : marks (10 :: rest) = .newline :: marks rest := by
    rw [marks.eq_def]
    exact if_pos rfl
  have hpiece : piece (10 :: rest) = [] := by
    rw [piece, hmarks]
    rfl
  have hafter : after (10 :: rest) = .newline :: marks rest := by
    rw [after, hmarks]
    rfl
  unfold Reads
  rw [hpiece, hafter, endLine_eq hroom hnul]
  refine Or.inr ⟨fun h => (by cases h.1), rest, ⟨[10], rfl⟩, fun _ => Nat.lt_succ_self _, rfl, ?_⟩
  exact congrArg (fun t => Except.ok (some t, _, rest)) (List.append_nil text).symm

/-- At a byte that is stored. -/
theorem reads_store (hheap : heap.Bounded) {linenum : Option UInt32} {rest more : List UInt8}
    {c : UInt8} (hbegins : Begins rest (.char c) more) {n : UInt32}
    (ih : ∀ {text junk : List UInt8} {size : Nat}, BufSize size → (text ++ junk).length = size →
      text.length < size → heap.Grants (text ++ lineText (piece more)).length → 0 ∉ text →
      Reads more text linenum n (freadLoop heap linenum more text.length size n (text ++ junk)))
    {text junk : List UInt8} {size : Nat} (hsize : BufSize size)
    (hbuf : (text ++ junk).length = size)
    (hlt : text.length < size) (hgrants : heap.Grants (text ++ lineText (piece rest)).length)
    (hnul : 0 ∉ text) (hc : 0 ≠ c) :
    Reads rest text linenum n (do
      match ← storeByte heap (text ++ junk) text.length size c with
      | none => .ok (none, linenum, more)
      | some (size, buf) => freadLoop heap linenum more (text.length + 1) size n buf) := by
  rw [hbegins.piece_eq] at hgrants
  have htext : text ++ lineText (.char c :: piece more) =
      (text ++ [c]) ++ lineText (piece more) := by
    rw [lineText_char, List.append_assoc]
    rfl
  have hlen : text.length < (text ++ lineText (.char c :: piece more)).length := by
    rw [List.length_append, lineText_char, List.length_cons]
    omega
  obtain ⟨size', junk', hsize', hbuf', hlt', hput⟩ :=
    storeByte_spec hheap hsize hbuf hlt hlen hgrants c
  rw [htext] at hgrants
  have hrest := ih hsize' hbuf' hlt' hgrants (by simp [hnul, hc])
  rw [List.length_append, List.length_singleton] at hrest
  rw [hput, ok_bind]
  exact hbegins.reads htext (by rw [lineCount_char]) hrest

/-- **The loop.** -/
theorem freadLoop_spec (hheap : heap.Bounded) (linenum : Option UInt32) (rest : List UInt8) :
    ∀ {text junk : List UInt8} {size : Nat} (n : UInt32), BufSize size →
      (text ++ junk).length = size → text.length < size →
      heap.Grants (text ++ lineText (piece rest)).length → 0 ∉ text → 0 ∉ rest →
      Reads rest text linenum n (freadLoop heap linenum rest text.length size n (text ++ junk)) := by
  induction rest using marks.induct with
  | case1 =>
    intro text junk size n _ hbuf hlt _ hnul _
    exact reads_endFile rfl (junk_pos hbuf hlt) hnul linenum n
  | case2 rest ih =>
    intro text junk size n _ hbuf hlt _ hnul _
    rw [freadLoop.eq_def]
    exact reads_endLine rest (junk_pos hbuf hlt) hnul linenum n
  | case3 _ =>
    intro text junk size n _ hbuf hlt _ hnul _
    exact reads_endFile rfl (junk_pos hbuf hlt) hnul linenum n
  | case4 d rest _ ih =>
    intro text junk size n hsize hbuf hlt hgrants hnul hrest
    simp only [List.mem_cons, not_or] at hrest
    by_cases hd : d = 10
    · subst hd
      have hbegins := begins_joined rest
      rw [hbegins.piece_eq] at hgrants
      refine hbegins.reads rfl ?_ (ih (n + 1) hsize hbuf hlt hgrants hnul hrest.2.2)
      rw [lineCount_joined, UInt32.ofNat_add, UInt32.add_comm (UInt32.ofNat _), ← UInt32.add_assoc]
      rfl
    · have hloop : freadLoop heap linenum (92 :: d :: rest) text.length size n (text ++ junk) = _ :=
        if_neg hd
      rw [hloop]
      exact reads_store hheap (begins_escaped hd rest)
        (fun hsize hbuf hlt hgrants hnul => ih n hsize hbuf hlt hgrants hnul hrest.2.2)
        hsize hbuf hlt hgrants hnul hrest.2.1
  | case5 c rest hc hc' ih =>
    intro text junk size n hsize hbuf hlt hgrants hnul hrest
    rw [List.mem_cons, not_or] at hrest
    have hloop := reads_store hheap (begins_char hc hc' rest)
      (fun hsize hbuf hlt hgrants hnul => ih n hsize hbuf hlt hgrants hnul hrest.2)
      hsize hbuf hlt hgrants hnul hrest.1
    rw [freadLoop.eq_def]
    dsimp only
    rw [if_neg hc, if_neg hc']
    exact hloop

/-! ## All calls -/

theorem marks_eq (content : List UInt8) : marks content = piece content ++ after content :=
  List.takeWhile_append_dropWhile.symm

theorem newline_notMem_piece (content : List UInt8) : .newline ∉ piece content := by
  intro h
  simpa using List.mem_takeWhile_imp h

/-- The marks behind a piece start with a newline, or there are none. -/
theorem after_cases (content : List UInt8) :
    after content = [] ∨ after content = .newline :: (after content).tail := by
  cases h : after content with
  | nil => exact Or.inl rfl
  | cons m more =>
    have hhead := List.head?_dropWhile_not (fun m => decide (m ≠ Mark.newline)) (marks content)
    rw [show (marks content).dropWhile (fun m => decide (m ≠ Mark.newline)) = m :: more from h] at hhead
    have hm : m = .newline := by simpa using hhead
    rw [hm]
    exact Or.inr rfl

/-- Without a newline there is one line at most. -/
theorem logicalLines_of_after {content : List UInt8} (h : after content = []) :
    logicalLines content = if lineText (piece content) = [] then [] else [piece content] := by
  have hsplit : (marks content).splitOn .newline = [piece content] := by
    rw [marks_eq, h, List.append_nil]
    exact List.splitOn_eq_singleton (newline_notMem_piece content)
  unfold logicalLines linesOf
  rw [hsplit]
  by_cases htext : lineText (piece content) = []
  · simp [htext]
  · simp [htext]

/-- The first line, and the others. -/
theorem logicalLines_some {content : List UInt8}
    (h : ¬ (after content = [] ∧ lineText (piece content) = [])) :
    logicalLines content = piece content :: linesOf (after content).tail := by
  rcases after_cases content with hafter | hafter
  · rw [logicalLines_of_after hafter, if_neg (fun htext => h ⟨hafter, htext⟩), hafter]
    rfl
  · generalize (after content).tail = more at hafter ⊢
    have hsplit : (marks content).splitOn .newline = piece content :: more.splitOn .newline := by
      rw [marks_eq, hafter]
      exact List.splitOn_append_cons_self_of_not_mem (newline_notMem_piece content) more
    have hne : more.splitOn .newline ≠ [] := List.splitOn_ne_nil _ _
    unfold logicalLines linesOf
    rw [hsplit, List.dropLast_cons_of_ne_nil hne, List.getLast?_cons_of_ne_nil hne]
    rfl

/--
**Reading a file** gives its logical lines, with their numbers, if the allocator grants what
the lines need; the buffer is never overrun.
-/
theorem freadlineWrapped_lines {heap : Allocator} (hheap : heap.Bounded) {content : List UInt8}
    (hnul : 0 ∉ content) (hfirst : heap.grants 256 = true)
    (hgrants : ∀ line ∈ logicalLines content, heap.Grants (lineText line).length)
    (linenum : Option UInt32) {fuel : Nat} (hfuel : content.length < fuel) :
    readLines heap fuel linenum content = .ok (numbered linenum (logicalLines content)) := by
  induction fuel generalizing content linenum with
  | zero => omega
  | succ fuel ih =>
    obtain ⟨junk, hjunk⟩ : ∃ junk, junk = (List.range 256).map heap.junk := ⟨_, rfl⟩
    have hlen : junk.length = 256 := by
      rw [hjunk, List.length_map, List.length_range]
    have hcall : freadlineWrapped heap linenum content
        = freadLoop heap linenum content 0 256 0 junk := by
      unfold freadlineWrapped Allocator.malloc
      rw [if_pos hfirst, ← hjunk]
    have hpiece : heap.Grants (lineText (piece content)).length := by
      by_cases hnone : after content = [] ∧ lineText (piece content) = []
      · intro k hk
        rw [hnone.2, List.length_nil] at hk
        have hpow := Nat.two_pow_pos k
        omega
      · rw [logicalLines_some hnone] at hgrants
        exact hgrants _ List.mem_cons_self
    have hsize : BufSize 256 := ⟨⟨0, rfl⟩, by decide⟩
    have hreads : Reads content [] linenum 0 (freadLoop heap linenum content 0 256 0 junk) :=
      freadLoop_spec hheap linenum content 0 hsize hlen (by decide) hpiece List.not_mem_nil hnul
    unfold Reads at hreads
    rw [List.nil_append] at hreads
    unfold readLines
    rw [hcall]
    rcases hreads with ⟨hafter, htext, hres⟩ | ⟨hsome, rest, hsuffix, hshort, hmarks, hres⟩
    · rw [logicalLines_of_after hafter, if_pos htext, hres]
      rfl
    · have hlines := logicalLines_some hsome
      rw [← hmarks] at hlines
      rw [hlines] at hgrants ⊢
      have hne : content ≠ [] := by
        rintro rfl
        exact hsome ⟨rfl, rfl⟩
      have hlt := hshort hne
      have hrest := ih (fun h => hnul (hsuffix.subset h))
        (fun line hline => hgrants line (List.mem_cons_of_mem _ hline))
        (linenum.map (· + UInt32.ofNat (lineCount (piece content)))) (by omega)
      rw [hres, ok_bind]
      dsimp only
      rw [UInt32.zero_add, hrest]
      rfl

theorem freadlineWrapped_lines_joined :
    readLines largeAllocator 8 (some 0) (cstr "a\\\nb\nc\\")
      = .ok [(cstr "ab", some 2), (cstr "c", some 3)] := by
  have hlines : logicalLines (cstr "a\\\nb\nc\\") =
      [[.char 97, .joined, .char 98], [.char 99]] := by
    decide +kernel
  have hall := freadlineWrapped_lines largeAllocator_bounded
    (by decide : 0 ∉ cstr "a\\\nb\nc\\") (by decide) (by
      rw [hlines]
      intro line hline k hk
      have hpow := Nat.two_pow_pos k
      have hshort : (lineText line).length ≤ 2 := by
        rcases List.mem_cons.1 hline with rfl | hline
        · decide
        · rw [List.mem_singleton.1 hline]
          decide
      omega) (some 0) (by decide : (cstr "a\\\nb\nc\\").length < 8)
  rw [hlines] at hall
  exact hall

end Kmod
