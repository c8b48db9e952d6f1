import Kmod.Shared.Strbuf
import Kmod.Lib.Memory

/-!
# Any use of a string buffer

The functions of `struct strbuf` on memory: the storage is a block of bytes, `size` and `used`
are numbers that are kept beside it, and every reallocation may fail. Reading or writing
outside of the block is a fault, and so is a computation of a size that would wrap.

A buffer stands for the bytes in use (`Holds`), and there is always room for a NUL behind
them, which `strbuf_str` relies on. Each call does to the bytes what its name says or, if it
is a push that failed, nothing (`exec_holds`); so a sequence of calls does what it would do to
a string (`strbufOps_refine`).

Where the storage was at first shows only in which pushes fail: on the stack there is room
that need not be allocated. If no allocation fails it does not show at all. The sizes that
two buffers come to are not the same, but all that matters of a size is whether it is the
largest there can be, and the pushes decide that (`Ideal`).
-/

namespace Kmod.StrbufOps

open Memory

/-! ## The model -/

/-- A `struct strbuf`; `bytes` is the block the pointer of this name points to. -/
structure StrbufMem where
  bytes : List UInt8
  size : Nat
  used : Nat
  heap : Bool

/-- The result of a computation of a size. -/
def sizeT (n : Nat) : Except Fault Nat := if n ≤ SIZE_MAX then .ok n else .error .overflow

/-- `strbuf_init` and `DECLARE_STRBUF`. -/
def strbufInit : StrbufMem := ⟨[], 0, 0, true⟩

/-- `DECLARE_STRBUF_WITH_STACK`; the storage is not initialized. -/
def declareStrbufWithStack (storage : List UInt8) : StrbufMem :=
  ⟨storage, storage.length, 0, false⟩

/-- `buf_realloc` -/
def bufRealloc (heap : Allocator) (buf : StrbufMem) (sz : Nat) :
    Except Fault (Bool × StrbufMem) :=
  match heap.realloc (if buf.heap then buf.bytes else []) sz with
  | none => .ok (if sz > 0 then (false, buf) else (true, ⟨[], sz, buf.used, true⟩))
  | some tmp => do
    let tmp ← if sz > 0 ∧ !buf.heap then do
        let old ← inBlock (getRange buf.bytes 0 (min buf.size sz))
        inBlock (putRange tmp 0 old)
      else .ok tmp
    .ok (true, ⟨tmp, sz, buf.used, true⟩)

/-- `strbuf_reserve_extra` -/
def strbufReserveExtra (heap : Allocator) (buf : StrbufMem) (n : Nat) :
    Except Fault (Bool × StrbufMem) :=
  if buf.size < buf.used then .error .overflow
  else if n < buf.size - buf.used then .ok (true, buf)
  -- `uaddsz_overflow(buf->used, n, &n)`
  else if buf.used + n > SIZE_MAX ∨ buf.used + n ≥ SIZE_MAX - BUF_STEP then .ok (false, buf)
  else do
    let n ← sizeT (buf.used + n + 1)
    if n % BUF_STEP ≠ 0 then do
      let steps ← sizeT (n / BUF_STEP + 1)
      let n ← sizeT (steps * BUF_STEP)
      bufRealloc heap buf n
    else bufRealloc heap buf n

/-- `strbuf_str`: what is in memory where it points to, and the buffer. -/
def strbufStr (buf : StrbufMem) : Except Fault (List UInt8 × StrbufMem) :=
  if buf.used = 0 then .ok ([0], buf)
  else do
    let last ← inBlock buf.bytes[buf.used - 1]?
    let bytes ← if last ≠ 0 then inBlock (putRange buf.bytes buf.used [0]) else .ok buf.bytes
    .ok (bytes, { buf with bytes := bytes })

/-- `strbuf_pushchar` -/
def strbufPushchar (heap : Allocator) (buf : StrbufMem) (ch : UInt8) :
    Except Fault (Bool × StrbufMem) := do
  let (ok, buf) ← strbufReserveExtra heap buf 1
  if !ok then .ok (false, buf)
  else do
    let bytes ← inBlock (putRange buf.bytes buf.used [ch])
    let used ← sizeT (buf.used + 1)
    .ok (true, { buf with bytes := bytes, used := used })

/-- `strbuf_pushmem`; `src` is what is in memory from a pointer on. -/
def strbufPushmem (heap : Allocator) (buf : StrbufMem) (src : Option (Nat → UInt8)) (sz : Nat) :
    Except Fault (Nat × StrbufMem) :=
  match src with
  | none => .error .assertFailed
  | some src =>
    if sz = 0 then .ok (0, buf)
    else do
      let (ok, buf) ← strbufReserveExtra heap buf sz
      if !ok then .ok (0, buf)
      else do
        let bytes ← inBlock (putRange buf.bytes buf.used ((List.range sz).map src))
        let used ← sizeT (buf.used + sz)
        .ok (sz, { buf with bytes := bytes, used := used })

/-- `strbuf_popchar` -/
def strbufPopchar (buf : StrbufMem) : Except Fault StrbufMem :=
  if buf.used > 0 then .ok { buf with used := buf.used - 1 } else .error .assertFailed

/-- `strbuf_popchars` -/
def strbufPopchars (buf : StrbufMem) (n : Nat) : Except Fault StrbufMem :=
  if buf.used ≥ n then .ok { buf with used := buf.used - n } else .error .assertFailed

/-- `strbuf_shrink_to` -/
def strbufShrinkTo (buf : StrbufMem) (sz : Nat) : Except Fault StrbufMem :=
  if buf.used ≥ sz then .ok { buf with used := sz } else .error .assertFailed

/-- `strbuf_clear` -/
def strbufClear (buf : StrbufMem) : StrbufMem := { buf with used := 0 }

/-! ## Sequences of calls -/

/-- A buffer that has just been declared. -/
inductive Start where
  | heap
  | stack (storage : List UInt8) (hsize : storage.length ≤ PTRDIFF_MAX)

def Start.init : Start → StrbufMem
  | .heap => strbufInit
  | .stack storage _ => declareStrbufWithStack storage

inductive Op where
  | pushchar (ch : UInt8)
  | pushmem (src : Option (Nat → UInt8)) (sz : Nat) (hsz : sz ≤ SIZE_MAX)
  | popchar
  | popchars (n : Nat)
  | shrinkTo (sz : Nat)
  | clear
  | str

/-- What a call returns; of a string that is returned, what its caller may read. -/
inductive Result where
  | pushed (ok : Bool)
  | size (sz : Nat)
  | text (s : List UInt8)
  | void
  deriving DecidableEq

/-- The characters of a string that is returned, to the NUL that ends them. -/
def readText (mem : List UInt8) (used : Nat) : Except Fault (List UInt8) := do
  let text ← inBlock (getRange mem 0 used)
  if text.getLast? = some 0 then .ok text
  else do
    let c ← inBlock mem[used]?
    .ok (text ++ [c])

/-- A call, with what the allocator does in it. -/
def exec (heap : Allocator) (buf : StrbufMem) : Op → Except Fault (Result × StrbufMem)
  | .pushchar ch => do
    let (ok, buf) ← strbufPushchar heap buf ch
    .ok (.pushed ok, buf)
  | .pushmem src sz _ => do
    let (sz, buf) ← strbufPushmem heap buf src sz
    .ok (.size sz, buf)
  | .popchar => do .ok (.void, ← strbufPopchar buf)
  | .popchars n => do .ok (.void, ← strbufPopchars buf n)
  | .shrinkTo sz => do .ok (.void, ← strbufShrinkTo buf sz)
  | .clear => .ok (.void, strbufClear buf)
  | .str => do
    let (mem, buf) ← strbufStr buf
    .ok (.text (← readText mem buf.used), buf)

/-- Calls one after the other: what they return, and the buffer. -/
def run (buf : StrbufMem) : List (Allocator × Op) → Except Fault (List Result × StrbufMem)
  | [] => .ok ([], buf)
  | (heap, op) :: calls => do
    let (r, buf) ← exec heap buf op
    let (rs, buf) ← run buf calls
    .ok (r :: rs, buf)

/-! ## Strings -/

/-- The assertion of a call, for a buffer that holds `xs`. -/
def Op.Asserts (xs : List UInt8) : Op → Prop
  | .pushmem src _ _ => src ≠ none
  | .popchar => 0 < xs.length
  | .popchars n => n ≤ xs.length
  | .shrinkTo sz => sz ≤ xs.length
  | _ => True

/-- A string with a NUL at its end. -/
def terminated (xs : List UInt8) : List UInt8 := if xs.getLast? = some 0 then xs else xs ++ [0]

/-- What a call may return, and what it makes of a string. -/
def Op.Gives (xs : List UInt8) (r : Result) (xs' : List UInt8) : Op → Prop
  | .pushchar ch => r = .pushed true ∧ xs' = xs ++ [ch] ∨ r = .pushed false ∧ xs' = xs
  | .pushmem src sz _ =>
    r = .size sz ∧ xs' = xs ++ (List.range sz).map (src.getD (fun _ => 0)) ∨
      r = .size 0 ∧ xs' = xs
  | .popchar => r = .void ∧ xs' = xs.take (xs.length - 1)
  | .popchars n => r = .void ∧ xs' = xs.take (xs.length - n)
  | .shrinkTo sz => r = .void ∧ xs' = xs.take sz
  | .clear => r = .void ∧ xs' = []
  | .str => r = .text (terminated xs) ∧ xs' = xs

/-- A sequence of calls whose assertions hold, from one string to another. -/
inductive Allowed : List UInt8 → List Op → List Result → List UInt8 → Prop where
  | nil (xs) : Allowed xs [] [] xs
  | cons {xs xs' xs'' op ops r rs} (hassert : op.Asserts xs) (hgives : op.Gives xs r xs')
      (hrest : Allowed xs' ops rs xs'') : Allowed xs (op :: ops) (r :: rs) xs''

/-- A buffer holds a string; there is room for a NUL behind it. -/
structure Holds (buf : StrbufMem) (xs : List UInt8) : Prop where
  size : buf.bytes.length = buf.size
  le : buf.size ≤ SIZE_MAX
  used : buf.used = xs.length
  room : 0 < buf.used → buf.used < buf.size
  contents : buf.bytes.take buf.used = xs

theorem Start.holds (start : Start) : Holds start.init [] := by
  cases start with
  | heap => exact ⟨rfl, Nat.zero_le _, rfl, fun h => absurd h (Nat.lt_irrefl 0), rfl⟩
  | stack storage hsize =>
    have hle : PTRDIFF_MAX ≤ SIZE_MAX := by decide
    exact ⟨rfl, Nat.le_trans hsize hle, rfl, fun h => absurd h (Nat.lt_irrefl 0), List.take_zero⟩

/-! ## Making room -/

section Room

variable {buf : StrbufMem} {xs : List UInt8}

theorem Holds.le_size (h : Holds buf xs) : buf.used ≤ buf.size := by
  rcases Nat.eq_zero_or_pos buf.used with h0 | h0
  · omega
  · exact Nat.le_of_lt (h.room h0)

/-- A buffer in another storage that begins with the same bytes. -/
theorem Holds.moved (h : Holds buf xs) {tmp : List UInt8} {sz : Nat} (hlen : tmp.length = sz)
    (hroom : buf.used < sz) (hle : sz ≤ SIZE_MAX)
    (htake : tmp.take buf.used = buf.bytes.take buf.used) :
    Holds ⟨tmp, sz, buf.used, true⟩ xs :=
  ⟨hlen, hle, h.used, fun _ => hroom, htake.trans h.contents⟩

/-- `buf_realloc` copies more or less than what is in use, but what is in use it keeps. -/
theorem bufRealloc_holds (h : Holds buf xs) (heap : Allocator) {sz : Nat} (hroom : buf.used < sz)
    (hle : sz ≤ SIZE_MAX) :
    (heap.grants sz = false ∧ bufRealloc heap buf sz = .ok (false, buf)) ∨
      heap.grants sz = true ∧ ∃ buf', bufRealloc heap buf sz = .ok (true, buf') ∧
        Holds buf' xs ∧ buf'.size = sz := by
  have hpos : sz > 0 := Nat.lt_of_le_of_lt (Nat.zero_le _) hroom
  unfold bufRealloc Allocator.realloc
  cases hgrants : heap.grants sz with
  | false =>
    refine .inl ⟨rfl, ?_⟩
    dsimp only
    rw [if_neg (by simp), if_pos hpos]
  | true =>
    refine .inr ⟨rfl, ?_⟩
    have hjunk : ∀ n, ((List.range n).map heap.junk).length = n := by simp
    have hused := h.le_size
    have hsize := h.size
    dsimp only
    rw [if_pos rfl]
    dsimp only
    cases hheap : buf.heap with
    | true =>
      rw [if_neg (by simp)]
      refine ⟨_, rfl, h.moved ?_ hroom hle ?_, rfl⟩
      · rw [if_pos rfl, List.length_append, List.length_take, hjunk]
        omega
      · rw [if_pos rfl, List.take_append_of_le_length (by rw [List.length_take]; omega),
          List.take_take, Nat.min_eq_left (Nat.le_of_lt hroom)]
    | false =>
      -- what is on the stack is copied by hand
      have hold : getRange buf.bytes 0 (min buf.size sz) =
          some (buf.bytes.take (min buf.size sz)) := by
        unfold getRange
        rw [if_pos (by omega), List.drop_zero]
      have hlen : (buf.bytes.take (min buf.size sz)).length = min buf.size sz := by
        rw [List.length_take]
        omega
      have hput := putRange_append [] ((List.range sz).map heap.junk)
        (buf.bytes.take (min buf.size sz)) (by rw [hlen, hjunk]; omega)
      simp only [List.nil_append, List.length_nil, hlen] at hput
      rw [if_pos ⟨hpos, rfl⟩]
      simp only [Bool.false_eq_true, if_false, List.take_nil, List.nil_append, List.length_nil,
        Nat.sub_zero]
      rw [hold, inBlock_some, ok_bind, hput, inBlock_some, ok_bind]
      refine ⟨_, rfl, h.moved ?_ hroom hle ?_, rfl⟩
      · rw [List.length_append, hlen, List.length_drop, hjunk]
        omega
      · rw [List.take_append_of_le_length (by omega), List.take_take]
        congr 1
        omega

/-- The size that is asked for does not wrap. -/
theorem roundedSize_le {n : Nat} (h : n ≤ SIZE_MAX - BUF_STEP) :
    n / BUF_STEP + 1 ≤ SIZE_MAX ∧ (n / BUF_STEP + 1) * BUF_STEP ≤ SIZE_MAX := by
  unfold SIZE_MAX BUF_STEP at *
  omega

/-- `strbuf_reserve_extra`, without the checks that always succeed. -/
theorem strbufReserveExtra_eq (h : Holds buf xs) (heap : Allocator) (n : Nat) :
    strbufReserveExtra heap buf n =
      if n < buf.size - buf.used then .ok (true, buf)
      else if buf.used + n ≥ SIZE_MAX - BUF_STEP then .ok (false, buf)
      else bufRealloc heap buf (roundedSize (buf.used + n + 1)) := by
  unfold strbufReserveExtra
  rw [if_neg (Nat.not_lt.mpr h.le_size)]
  split
  · rfl
  · by_cases hlarge : buf.used + n ≥ SIZE_MAX - BUF_STEP
    · rw [if_pos (.inr hlarge), if_pos hlarge]
    · have hle : buf.used + n + 1 ≤ SIZE_MAX - BUF_STEP := by omega
      have hsmall : ¬ (buf.used + n > SIZE_MAX ∨ buf.used + n ≥ SIZE_MAX - BUF_STEP) := by omega
      obtain ⟨hsteps, hround⟩ := roundedSize_le hle
      rw [if_neg hsmall, if_neg hlarge, sizeT, if_pos (Nat.le_trans hle (Nat.sub_le _ _)), ok_bind]
      unfold roundedSize
      split
      · rw [sizeT, if_pos hsteps, ok_bind, sizeT, if_pos hround, ok_bind]
      · rfl

theorem roundedSize_le_max {n : Nat} (h : n ≤ SIZE_MAX - BUF_STEP) : roundedSize n ≤ SIZE_MAX := by
  unfold roundedSize
  split
  · exact (roundedSize_le h).2
  · exact Nat.le_trans h (Nat.sub_le _ _)

/-- There is room for `n` more bytes and a NUL, or nothing has changed. -/
theorem strbufReserveExtra_holds (h : Holds buf xs) (heap : Allocator) (n : Nat) :
    strbufReserveExtra heap buf n = .ok (false, buf) ∨
      ∃ buf', strbufReserveExtra heap buf n = .ok (true, buf') ∧ Holds buf' xs ∧
        xs.length + n < buf'.size := by
  rw [strbufReserveExtra_eq h]
  have hused := h.used
  split
  · exact .inr ⟨buf, rfl, h, by omega⟩
  · split
    · exact .inl rfl
    · have hround := le_roundedSize (buf.used + n + 1)
      rcases bufRealloc_holds h heap (show buf.used < roundedSize (buf.used + n + 1) by omega)
        (roundedSize_le_max (by omega)) with ⟨_, hr⟩ | ⟨_, buf', hr, hholds, hsize⟩
      · exact .inl hr
      · exact .inr ⟨buf', hr, hholds, by omega⟩

/-- Bytes are written where there is room for them. -/
theorem Holds.write (h : Holds buf xs) (src : List UInt8)
    (hroom : xs.length + src.length < buf.size) :
    ∃ bytes, putRange buf.bytes buf.used src = some bytes ∧
      sizeT (buf.used + src.length) = .ok (buf.used + src.length) ∧
      Holds { buf with bytes := bytes, used := buf.used + src.length } (xs ++ src) := by
  have hused := h.used
  have hle := h.le
  have hsize := h.size
  have hlen : (buf.bytes.take buf.used).length = buf.used := by
    rw [List.length_take]
    omega
  have hput := putRange_append (buf.bytes.take buf.used) (buf.bytes.drop buf.used) src
    (by rw [List.length_drop]; omega)
  rw [List.take_append_drop, hlen] at hput
  refine ⟨_, hput, if_pos (by omega), ⟨?_, hle, ?_, fun _ => by dsimp only; omega, ?_⟩⟩
  · rw [length_putRange hput]
    exact hsize
  · rw [List.length_append, hused]
  · dsimp only
    rw [h.contents, ← List.append_assoc]
    exact List.take_left' (by rw [List.length_append, hused])

end Room

/-! ## One call -/

section Calls

variable {buf : StrbufMem} {xs : List UInt8}

/-- A buffer that is cut off. -/
theorem Holds.shrink (h : Holds buf xs) {n : Nat} (hn : n ≤ xs.length) :
    Holds { buf with used := n } (xs.take n) := by
  have hused := h.used
  have hle := h.le_size
  refine ⟨h.size, h.le, ?_, fun hpos => ?_, ?_⟩
  · rw [List.length_take]
    exact (Nat.min_eq_left hn).symm
  · have hroom := h.room (Nat.lt_of_lt_of_le hpos (hused ▸ hn))
    dsimp only
    omega
  · rw [← h.contents, List.take_take, Nat.min_eq_left (hused ▸ hn)]

/-- `strbuf_str` writes a NUL behind the contents, if they do not end with one. -/
theorem strbufStr_holds (h : Holds buf xs) :
    ∃ mem buf', strbufStr buf = .ok (mem, buf') ∧ Holds buf' xs ∧ buf'.used = buf.used ∧
      buf'.size = buf.size ∧ readText mem buf.used = .ok (terminated xs) ∧
      (xs ≠ [] → mem = buf'.bytes ∧ (terminated xs).length ≤ buf'.size) := by
  have hused := h.used
  have hsize := h.size
  unfold strbufStr
  by_cases h0 : buf.used = 0
  · obtain rfl : xs = [] := List.eq_nil_of_length_eq_zero (by omega)
    rw [if_pos h0]
    exact ⟨[0], buf, rfl, h, rfl, rfl, by rw [h0]; rfl, fun hne => absurd rfl hne⟩
  · have hroom := h.room (Nat.pos_of_ne_zero h0)
    have hlast : buf.bytes[buf.used - 1]? = xs.getLast? := by
      rw [List.getLast?_eq_getElem?, ← hused, ← h.contents, List.getElem?_take_of_lt (by omega)]
    obtain ⟨last, hgetLast⟩ : ∃ last, xs.getLast? = some last := by
      cases xs with
      | nil => exact absurd hused h0
      | cons x xs => exact ⟨_, List.getLast?_cons⟩
    rw [if_neg h0, hlast, hgetLast, inBlock_some, ok_bind]
    have hread : ∀ mem : List UInt8, mem.length = buf.size → mem.take buf.used = xs →
        getRange mem 0 buf.used = some xs := by
      intro mem hlen htake
      unfold getRange
      rw [if_pos (by omega), List.drop_zero, htake]
    by_cases hnul : last = 0
    · rw [if_neg (by simpa using hnul), ok_bind]
      have hterm : terminated xs = xs := if_pos (hnul ▸ hgetLast)
      refine ⟨buf.bytes, buf, rfl, h, rfl, rfl, ?_, fun _ => ⟨rfl, ?_⟩⟩
      · unfold readText
        rw [hread _ hsize h.contents, inBlock_some, ok_bind, if_pos (hnul ▸ hgetLast), hterm]
      · rw [hterm]
        omega
    · have hnot : ¬ xs.getLast? = some 0 := by
        rw [hgetLast]
        exact fun heq => hnul (Option.some.inj heq)
      have hterm : terminated xs = xs ++ [0] := if_neg hnot
      have hlen : (buf.bytes.take buf.used).length = buf.used := by
        rw [List.length_take]
        omega
      have hput := putRange_append (buf.bytes.take buf.used) (buf.bytes.drop buf.used) [0]
        (by rw [List.length_drop, List.length_singleton]; omega)
      rw [List.take_append_drop, hlen, h.contents] at hput
      have hbytes := (length_putRange hput).trans hsize
      have htake :
          (xs ++ ([0] ++ (buf.bytes.drop buf.used).drop [(0 : UInt8)].length)).take buf.used = xs :=
        List.take_left' hused.symm
      rw [if_pos hnul, hput, inBlock_some, ok_bind]
      refine ⟨_, _, rfl, ⟨hbytes, h.le, hused, h.room, htake⟩, rfl, rfl, ?_, fun _ => ⟨rfl, ?_⟩⟩
      · unfold readText
        rw [hread _ hbytes htake, inBlock_some, ok_bind, if_neg hnot, hused,
          List.getElem?_append_right (Nat.le_refl _), Nat.sub_self, hterm]
        rfl
      · rw [hterm, List.length_append, List.length_singleton]
        dsimp only
        omega

/-- A push that gets no room changes nothing. -/
theorem strbufPushchar_failed {heap : Allocator} (ch : UInt8)
    (hr : strbufReserveExtra heap buf 1 = .ok (false, buf)) :
    strbufPushchar heap buf ch = .ok (false, buf) := by
  simp only [strbufPushchar, hr, ok_bind, Bool.not_false, if_true]

/-- A push that gets room writes to it. -/
theorem strbufPushchar_written {heap : Allocator} {buf' : StrbufMem} {bytes : List UInt8}
    {ch : UInt8}
    (hr : strbufReserveExtra heap buf 1 = .ok (true, buf'))
    (hput : putRange buf'.bytes buf'.used [ch] = some bytes)
    (hsize : sizeT (buf'.used + 1) = .ok (buf'.used + 1)) :
    strbufPushchar heap buf ch =
      .ok (true, { buf' with bytes := bytes, used := buf'.used + 1 }) := by
  simp only [strbufPushchar, hr, ok_bind, Bool.not_true, Bool.false_eq_true, if_false, hput,
    inBlock_some, hsize]

theorem strbufPushmem_failed {heap : Allocator} (src : Nat → UInt8) {sz : Nat}
    (hr : strbufReserveExtra heap buf sz = .ok (false, buf)) :
    strbufPushmem heap buf (some src) sz = .ok (0, buf) := by
  unfold strbufPushmem
  dsimp only
  split
  · rfl
  · rw [hr, ok_bind]
    rfl

theorem strbufPushmem_written {heap : Allocator} {buf' : StrbufMem} {bytes : List UInt8}
    {src : Nat → UInt8} {sz : Nat} (h0 : sz ≠ 0)
    (hr : strbufReserveExtra heap buf sz = .ok (true, buf'))
    (hput : putRange buf'.bytes buf'.used ((List.range sz).map src) = some bytes)
    (hsize : sizeT (buf'.used + sz) = .ok (buf'.used + sz)) :
    strbufPushmem heap buf (some src) sz =
      .ok (sz, { buf' with bytes := bytes, used := buf'.used + sz }) := by
  simp only [strbufPushmem, if_neg h0, hr, ok_bind, Bool.not_true, Bool.false_eq_true, if_false,
    hput, inBlock_some, hsize]

/-- The calls that drop bytes, as long as there are so many. -/
theorem exec_popchar (heap : Allocator) (hused : buf.used = xs.length) :
    exec heap buf .popchar = if 0 < xs.length then
      .ok (.void, { buf with used := xs.length - 1 }) else .error .assertFailed := by
  rw [exec, strbufPopchar, hused]
  by_cases h : 0 < xs.length
  · rw [if_pos h, if_pos h, ok_bind]
  · rw [if_neg h, if_neg h, error_bind]

theorem exec_popchars (heap : Allocator) (hused : buf.used = xs.length) (n : Nat) :
    exec heap buf (.popchars n) = if n ≤ xs.length then
      .ok (.void, { buf with used := xs.length - n }) else .error .assertFailed := by
  rw [exec, strbufPopchars, hused]
  by_cases h : n ≤ xs.length
  · rw [if_pos h, if_pos h, ok_bind]
  · rw [if_neg h, if_neg h, error_bind]

theorem exec_shrinkTo (heap : Allocator) (hused : buf.used = xs.length) (sz : Nat) :
    exec heap buf (.shrinkTo sz) = if sz ≤ xs.length then
      .ok (.void, { buf with used := sz }) else .error .assertFailed := by
  rw [exec, strbufShrinkTo, hused]
  by_cases h : sz ≤ xs.length
  · rw [if_pos h, if_pos h, ok_bind]
  · rw [if_neg h, if_neg h, error_bind]

/-- **One call** does what it may do, unless its assertion fails. -/
theorem exec_holds (h : Holds buf xs) (heap : Allocator) (op : Op) :
    (op.Asserts xs ∧ ∃ r buf' xs', exec heap buf op = .ok (r, buf') ∧ op.Gives xs r xs' ∧
        Holds buf' xs') ∨
      ¬ op.Asserts xs ∧ exec heap buf op = .error .assertFailed := by
  have hused := h.used
  cases op with
  | pushchar ch =>
    refine .inl ⟨trivial, ?_⟩
    rcases strbufReserveExtra_holds h heap 1 with hr | ⟨buf₁, hr, h₁, hroom⟩
    · refine ⟨_, _, _, ?_, .inr ⟨rfl, rfl⟩, h⟩
      rw [exec, strbufPushchar_failed ch hr, ok_bind]
    · obtain ⟨bytes, hput, hsize, hholds⟩ := h₁.write [ch] hroom
      refine ⟨_, _, _, ?_, .inl ⟨rfl, rfl⟩, hholds⟩
      rw [exec, strbufPushchar_written hr hput hsize, ok_bind]
      rfl
  | pushmem src sz hsz =>
    cases src with
    | none => exact .inr ⟨fun hne => hne rfl, rfl⟩
    | some src =>
      refine .inl ⟨by simp [Op.Asserts], ?_⟩
      by_cases h0 : sz = 0
      · refine ⟨_, _, _, ?_, .inr ⟨rfl, rfl⟩, h⟩
        simp only [exec, strbufPushmem, if_pos h0, ok_bind]
      · rcases strbufReserveExtra_holds h heap sz with hr | ⟨buf₁, hr, h₁, hroom⟩
        · refine ⟨_, _, _, ?_, .inr ⟨rfl, rfl⟩, h⟩
          rw [exec, strbufPushmem_failed src hr, ok_bind]
        · have hlen : ((List.range sz).map src).length = sz := by simp
          obtain ⟨bytes, hput, hsize, hholds⟩ := h₁.write ((List.range sz).map src)
            (by rw [hlen]; exact hroom)
          rw [hlen] at hsize hholds
          refine ⟨_, _, _, ?_, .inl ⟨rfl, rfl⟩, hholds⟩
          rw [exec, strbufPushmem_written h0 hr hput hsize, ok_bind]
  | popchar =>
    rw [exec_popchar heap hused]
    by_cases hpos : 0 < xs.length
    · exact .inl ⟨hpos, .void, _, _, if_pos hpos, ⟨rfl, rfl⟩, h.shrink (Nat.sub_le _ 1)⟩
    · exact .inr ⟨hpos, if_neg hpos⟩
  | popchars n =>
    rw [exec_popchars heap hused]
    by_cases hn : n ≤ xs.length
    · exact .inl ⟨hn, .void, _, _, if_pos hn, ⟨rfl, rfl⟩, h.shrink (Nat.sub_le _ n)⟩
    · exact .inr ⟨hn, if_neg hn⟩
  | shrinkTo sz =>
    rw [exec_shrinkTo heap hused]
    by_cases hn : sz ≤ xs.length
    · exact .inl ⟨hn, .void, _, _, if_pos hn, ⟨rfl, rfl⟩, h.shrink hn⟩
    · exact .inr ⟨hn, if_neg hn⟩
  | clear => exact .inl ⟨trivial, .void, _, _, rfl, ⟨rfl, rfl⟩, h.shrink (Nat.zero_le _)⟩
  | str =>
    obtain ⟨mem, buf', hstr, hholds, hsame, _, hread, _⟩ := strbufStr_holds h
    refine .inl ⟨trivial, _, _, _, ?_, ⟨rfl, rfl⟩, hholds⟩
    simp only [exec, hstr, ok_bind, hsame, hread]

end Calls

/-! ## Any sequence of calls -/

/-- **A run** does what a run on a string may do, up to an assertion that fails. -/
theorem run_holds (calls : List (Allocator × Op)) :
    ∀ {buf : StrbufMem} {xs : List UInt8}, Holds buf xs →
      (∃ rs buf' xs', run buf calls = .ok (rs, buf') ∧ Allowed xs (calls.map Prod.snd) rs xs' ∧
        Holds buf' xs') ∨
      run buf calls = .error .assertFailed ∧ ∃ before op after rs xs',
        calls.map Prod.snd = before ++ op :: after ∧ Allowed xs before rs xs' ∧
        ¬ op.Asserts xs' := by
  induction calls with
  | nil => exact fun h => .inl ⟨_, _, _, rfl, .nil _, h⟩
  | cons call calls ih =>
    intro buf xs h
    obtain ⟨heap, op⟩ := call
    rcases exec_holds h heap op with ⟨hassert, r, buf₁, xs₁, hexec, hgives, h₁⟩ | ⟨hnot, hexec⟩
    · rcases ih h₁ with ⟨rs, buf', xs', hrun, hallowed, h'⟩ |
        ⟨hrun, before, op', after, rs, xs', hsplit, hallowed, hnot⟩
      · refine .inl ⟨r :: rs, buf', xs', ?_, .cons hassert hgives hallowed, h'⟩
        simp only [run, hexec, ok_bind, hrun]
      · refine .inr ⟨?_, op :: before, op', after, r :: rs, xs', ?_,
          .cons hassert hgives hallowed, hnot⟩
        · simp only [run, hexec, ok_bind, hrun]
          rfl
        · rw [List.map_cons, hsplit, List.cons_append]
    · refine .inr ⟨?_, [], op, calls.map Prod.snd, [], xs, rfl, .nil _, hnot⟩
      simp only [run, hexec]
      rfl

/-- Whether a push has succeeded; the other calls always do. -/
def Result.succeeded : Result → Bool
  | .pushed ok => ok
  | .size sz => sz ≠ 0
  | _ => true

theorem Op.Gives.unique {op : Op} {xs xs₁ xs₂ : List UInt8} {r₁ r₂ : Result}
    (h₁ : op.Gives xs r₁ xs₁) (h₂ : op.Gives xs r₂ xs₂) (h : r₁.succeeded = r₂.succeeded) :
    r₁ = r₂ ∧ xs₁ = xs₂ := by
  cases op with
  | pushchar ch =>
    rcases h₁ with ⟨rfl, rfl⟩ | ⟨rfl, rfl⟩ <;> rcases h₂ with ⟨rfl, rfl⟩ | ⟨rfl, rfl⟩
    · exact ⟨rfl, rfl⟩
    · exact absurd h (by decide)
    · exact absurd h (by decide)
    · exact ⟨rfl, rfl⟩
  | pushmem src sz hsz =>
    -- a push of no bytes is the same, whether it is said to have failed or not
    by_cases h0 : sz = 0
    · subst h0
      have hnone : ∀ {r xs'}, (Op.pushmem src 0 hsz).Gives xs r xs' → r = .size 0 ∧ xs' = xs := by
        intro r xs' hg
        rcases hg with ⟨rfl, rfl⟩ | hg
        · exact ⟨rfl, List.append_nil xs⟩
        · exact hg
      obtain ⟨rfl, rfl⟩ := hnone h₁
      obtain ⟨rfl, rfl⟩ := hnone h₂
      exact ⟨rfl, rfl⟩
    · rcases h₁ with ⟨rfl, rfl⟩ | ⟨rfl, rfl⟩ <;> rcases h₂ with ⟨rfl, rfl⟩ | ⟨rfl, rfl⟩
      · exact ⟨rfl, rfl⟩
      · exact absurd h (by simp [Result.succeeded, h0])
      · exact absurd h (by simp [Result.succeeded, h0])
      · exact ⟨rfl, rfl⟩
  | _ => exact ⟨h₁.1.trans h₂.1.symm, h₁.2.trans h₂.2.symm⟩

/-- What a sequence of calls does is determined by which of the pushes succeed. -/
theorem Allowed.unique {xs xs₁ xs₂ : List UInt8} {ops : List Op} {rs₁ rs₂ : List Result}
    (h₁ : Allowed xs ops rs₁ xs₁) (h₂ : Allowed xs ops rs₂ xs₂)
    (h : rs₁.map Result.succeeded = rs₂.map Result.succeeded) : rs₁ = rs₂ ∧ xs₁ = xs₂ := by
  induction h₁ generalizing rs₂ with
  | nil =>
    cases h₂
    exact ⟨rfl, rfl⟩
  | cons _ hgives _ ih =>
    cases h₂ with
    | cons _ hgives' hrest' =>
      rw [List.map_cons, List.map_cons, List.cons.injEq] at h
      obtain ⟨rfl, rfl⟩ := hgives.unique hgives' h.1
      obtain ⟨rfl, rfl⟩ := ih hrest' h.2
      exact ⟨rfl, rfl⟩

/-! ## When no allocation fails -/

/-- The largest size of a buffer on the heap. -/
def LARGEST : Nat := SIZE_MAX + 1 - BUF_STEP

/-- A size on the heap, or one that an array on the stack can have. -/
def SizeOk (size : Nat) : Prop := size = LARGEST ∨ size + BUF_STEP ≤ LARGEST

theorem roundedSize_ok {n : Nat} (h : n ≤ SIZE_MAX - BUF_STEP) :
    SizeOk (roundedSize n) ∧ (roundedSize n = LARGEST ↔ LARGEST < n + BUF_STEP) := by
  unfold SizeOk roundedSize LARGEST SIZE_MAX BUF_STEP at *
  split <;> omega

/-- A string, and whether the buffer for it is as large as it can be. -/
structure Ideal where
  text : List UInt8
  largest : Bool

/-- The largest buffer can be filled further than one that would first have to grow. -/
def Ideal.limit (t : Ideal) : Nat := if t.largest then LARGEST else LARGEST - 1

/-- A push, which succeeds unless it goes beyond the limit. -/
def Ideal.push (t : Ideal) (src : List UInt8) : Option Ideal :=
  if t.text.length + src.length < t.limit then
    some ⟨t.text ++ src,
      t.largest || decide (LARGEST ≤ t.text.length + src.length + BUF_STEP)⟩
  else none

/-- A call, where no allocation fails; nothing if its assertion does. -/
def Op.ideal (t : Ideal) : Op → Option (Result × Ideal)
  | .pushchar ch =>
    some (((t.push [ch]).map (fun t' => (.pushed true, t'))).getD (.pushed false, t))
  | .pushmem src sz _ => src.map (fun src =>
    if sz = 0 then (.size 0, t)
    else ((t.push ((List.range sz).map src)).map (fun t' => (.size sz, t'))).getD (.size 0, t))
  | .popchar =>
    if 0 < t.text.length then
      some (.void, { t with text := t.text.take (t.text.length - 1) })
    else none
  | .popchars n =>
    if n ≤ t.text.length then
      some (.void, { t with text := t.text.take (t.text.length - n) })
    else none
  | .shrinkTo sz =>
    if sz ≤ t.text.length then some (.void, { t with text := t.text.take sz }) else none
  | .clear => some (.void, { t with text := [] })
  | .str => some (.text (terminated t.text), t)

def idealRun (t : Ideal) : List Op → Option (List Result)
  | [] => some []
  | op :: ops => (op.ideal t).bind (fun r => (idealRun r.2 ops).map (r.1 :: ·))

/-- A buffer holds the string, and its size is what is said of it. -/
structure Matches (buf : StrbufMem) (t : Ideal) : Prop where
  holds : Holds buf t.text
  ok : SizeOk buf.size
  largest : buf.size = LARGEST ↔ t.largest = true

theorem Start.matches (start : Start) : Matches start.init ⟨[], false⟩ := by
  refine ⟨start.holds, ?_, ?_⟩
  · cases start with
    | heap => exact .inr (by decide)
    | stack storage hsize =>
      refine .inr ?_
      show storage.length + BUF_STEP ≤ LARGEST
      unfold LARGEST SIZE_MAX BUF_STEP PTRDIFF_MAX at *
      omega
  · cases start with
    | heap => decide
    | stack storage hsize =>
      refine iff_of_false ?_ (by decide)
      show storage.length ≠ LARGEST
      unfold LARGEST SIZE_MAX BUF_STEP PTRDIFF_MAX at *
      omega

section Granted

variable {buf : StrbufMem} {t : Ideal} {heap : Allocator}

/-- Room is made up to the limit. -/
theorem Matches.reserve (h : Matches buf t) (hgrants : ∀ sz, heap.grants sz = true) (n : Nat) :
    if t.text.length + n < t.limit then
      ∃ buf', strbufReserveExtra heap buf n = .ok (true, buf') ∧ Holds buf' t.text ∧
        t.text.length + n < buf'.size ∧ SizeOk buf'.size ∧
        (buf'.size = LARGEST ↔
          (t.largest || decide (LARGEST ≤ t.text.length + n + BUF_STEP)) = true)
    else strbufReserveExtra heap buf n = .ok (false, buf) := by
  have hused := h.holds.used
  have hle := h.holds.le_size
  have hok := h.ok
  have hlarge := h.largest
  have hmax : SIZE_MAX - BUF_STEP = LARGEST - 1 := rfl
  have hpos : BUF_STEP < LARGEST := by decide
  have hstep : 0 < BUF_STEP := by decide
  rw [strbufReserveExtra_eq h.holds, hused, hmax]
  unfold SizeOk at hok
  -- the buffer is so large that it can only be filled, or it may grow
  cases hl : t.largest with
  | true =>
    have hfull : buf.size = LARGEST := hlarge.mpr hl
    rw [show t.limit = LARGEST by simp only [Ideal.limit, hl, if_true]]
    by_cases hroom : t.text.length + n < LARGEST
    · rw [if_pos hroom, if_pos (by omega)]
      exact ⟨buf, rfl, h.holds, by omega, h.ok, by simp [hfull]⟩
    · rw [if_neg hroom, if_neg (by omega), if_pos (by omega)]
  | false =>
    have hsmall : buf.size ≠ LARGEST := fun heq => by simp [hl] at hlarge; exact hlarge heq
    rw [show t.limit = LARGEST - 1 by simp only [Ideal.limit, hl, Bool.false_eq_true, if_false]]
    rw [Bool.false_or, decide_eq_true_eq]
    by_cases hroom : n < buf.size - t.text.length
    · rw [if_pos (by omega), if_pos hroom]
      refine ⟨buf, rfl, h.holds, by omega, h.ok, ?_⟩
      omega
    · by_cases hlimit : t.text.length + n < LARGEST - 1
      · have hround := le_roundedSize (t.text.length + n + 1)
        obtain ⟨hok', hiff⟩ := roundedSize_ok
          (show t.text.length + n + 1 ≤ SIZE_MAX - BUF_STEP by omega)
        rw [if_pos hlimit, if_neg hroom, if_neg (by omega)]
        rcases bufRealloc_holds h.holds heap
          (show buf.used < roundedSize (t.text.length + n + 1) by omega)
          (roundedSize_le_max (by omega)) with ⟨hno, _⟩ | ⟨_, buf', hr, hholds, hsize⟩
        · exact absurd (hgrants _) (by rw [hno]; decide)
        · refine ⟨buf', hr, hholds, by omega, hsize ▸ hok', ?_⟩
          rw [hsize, hiff]
          omega
      · rw [if_neg hlimit, if_neg hroom, if_pos (by omega)]

theorem Matches.push (h : Matches buf t) (hgrants : ∀ sz, heap.grants sz = true)
    (src : List UInt8) :
    (∃ t' buf' bytes, t.push src = some t' ∧
        strbufReserveExtra heap buf src.length = .ok (true, buf') ∧
        putRange buf'.bytes buf'.used src = some bytes ∧
        sizeT (buf'.used + src.length) = .ok (buf'.used + src.length) ∧
        Matches { buf' with bytes := bytes, used := buf'.used + src.length } t') ∨
      t.push src = none ∧ strbufReserveExtra heap buf src.length = .ok (false, buf) := by
  have hreserve := h.reserve hgrants src.length
  unfold Ideal.push
  split at hreserve
  · next hlimit =>
    obtain ⟨buf', hr, hholds, hroom, hok, hlarge⟩ := hreserve
    obtain ⟨bytes, hput, hsize, hwritten⟩ := hholds.write src hroom
    rw [if_pos hlimit]
    exact .inl ⟨_, buf', bytes, rfl, hr, hput, hsize, hwritten, hok, hlarge⟩
  · next hlimit =>
    rw [if_neg hlimit]
    exact .inr ⟨rfl, hreserve⟩

theorem Matches.shrink (h : Matches buf t) {n : Nat} (hn : n ≤ t.text.length) :
    Matches { buf with used := n } { t with text := t.text.take n } :=
  ⟨h.holds.shrink hn, h.ok, h.largest⟩

/-- Where no allocation fails, a call is determined by the string and by `largest`. -/
theorem Matches.exec (h : Matches buf t) (hgrants : ∀ sz, heap.grants sz = true) (op : Op) :
    (∃ r t' buf', op.ideal t = some (r, t') ∧ exec heap buf op = .ok (r, buf') ∧
        Matches buf' t') ∨
      op.ideal t = none ∧ exec heap buf op = .error .assertFailed := by
  have hused := h.holds.used
  cases op with
  | pushchar ch =>
    refine .inl ?_
    rcases h.push hgrants [ch] with ⟨t', buf', bytes, hpush, hr, hput, hsize, h'⟩ | ⟨hpush, hr⟩
    · refine ⟨.pushed true, t', _, ?_, ?_, h'⟩
      · simp only [Op.ideal, hpush, Option.map_some, Option.getD_some]
      · rw [StrbufOps.exec, strbufPushchar_written hr hput hsize, ok_bind]
        rfl
    · refine ⟨.pushed false, t, buf, ?_, ?_, h⟩
      · simp only [Op.ideal, hpush, Option.map_none, Option.getD_none]
      · rw [StrbufOps.exec, strbufPushchar_failed ch hr, ok_bind]
  | pushmem src sz hsz =>
    cases src with
    | none => exact .inr ⟨rfl, rfl⟩
    | some src =>
      refine .inl ?_
      by_cases h0 : sz = 0
      · refine ⟨.size 0, t, buf, ?_, ?_, h⟩
        · simp only [Op.ideal, Option.map_some, if_pos h0]
        · simp only [StrbufOps.exec, strbufPushmem, if_pos h0, ok_bind]
      · have hlen : ((List.range sz).map src).length = sz := by simp
        rcases h.push hgrants ((List.range sz).map src) with
          ⟨t', buf', bytes, hpush, hr, hput, hsize, h'⟩ | ⟨hpush, hr⟩ <;> rw [hlen] at hr
        · rw [hlen] at hsize h'
          refine ⟨.size sz, t', _, ?_, ?_, h'⟩
          · simp only [Op.ideal, Option.map_some, if_neg h0, hpush, Option.getD_some]
          · rw [StrbufOps.exec, strbufPushmem_written h0 hr hput hsize, ok_bind]
        · refine ⟨.size 0, t, buf, ?_, ?_, h⟩
          · simp only [Op.ideal, Option.map_some, if_neg h0, hpush, Option.map_none,
              Option.getD_none]
          · rw [StrbufOps.exec, strbufPushmem_failed src hr, ok_bind]
  | popchar =>
    rw [exec_popchar heap hused]
    by_cases hpos : 0 < t.text.length
    · exact .inl ⟨.void, _, _, if_pos hpos, if_pos hpos, h.shrink (Nat.sub_le _ 1)⟩
    · exact .inr ⟨if_neg hpos, if_neg hpos⟩
  | popchars n =>
    rw [exec_popchars heap hused]
    by_cases hn : n ≤ t.text.length
    · exact .inl ⟨.void, _, _, if_pos hn, if_pos hn, h.shrink (Nat.sub_le _ n)⟩
    · exact .inr ⟨if_neg hn, if_neg hn⟩
  | shrinkTo sz =>
    rw [exec_shrinkTo heap hused]
    by_cases hn : sz ≤ t.text.length
    · exact .inl ⟨.void, _, _, if_pos hn, if_pos hn, h.shrink hn⟩
    · exact .inr ⟨if_neg hn, if_neg hn⟩
  | clear => exact .inl ⟨.void, _, _, rfl, rfl, h.shrink (Nat.zero_le _)⟩
  | str =>
    obtain ⟨mem, buf', hstr, hholds, hsame, hsize, hread, _⟩ := strbufStr_holds h.holds
    refine .inl ⟨_, t, buf', rfl, ?_, hholds, hsize ▸ h.ok, hsize ▸ h.largest⟩
    simp only [StrbufOps.exec, hstr, ok_bind, hsame, hread]

/-- So is a run. -/
theorem Matches.run (calls : List (Allocator × Op))
    (hgrants : ∀ call ∈ calls, ∀ sz, call.1.grants sz = true) :
    ∀ {buf t}, Matches buf t → (run buf calls).map Prod.fst =
      (idealRun t (calls.map Prod.snd)).elim (.error .assertFailed) .ok := by
  induction calls with
  | nil => exact fun _ => rfl
  | cons call calls ih =>
    intro buf t h
    obtain ⟨heap, op⟩ := call
    rcases h.exec (hgrants _ List.mem_cons_self) op with ⟨r, t', buf', hideal, hexec, h'⟩ |
      ⟨hideal, hexec⟩
    · have hrest := ih (fun c hc => hgrants c (List.mem_cons_of_mem _ hc)) h'
      simp only [StrbufOps.run, hexec, ok_bind, List.map_cons, idealRun, hideal, Option.bind_some]
      cases hi : idealRun t' (calls.map Prod.snd) with
      | none =>
        rw [hi] at hrest
        cases hrun : StrbufOps.run buf' calls with
        | error e =>
          rw [hrun] at hrest
          exact hrest
        | ok rs => rw [hrun] at hrest; cases hrest
      | some rs =>
        rw [hi] at hrest
        cases hrun : StrbufOps.run buf' calls with
        | error e => rw [hrun] at hrest; cases hrest
        | ok out =>
          rw [hrun] at hrest
          obtain rfl : out.1 = rs := Except.ok.inj hrest
          rfl
    · simp only [StrbufOps.run, hexec, List.map_cons, idealRun, hideal, Option.bind_none]
      rfl

end Granted

/-! ## Buffers whose allocations succeed

Where no allocation fails, `Strbuf` is the same buffer, but for the bytes that are not in use.
-/

/-- A buffer in memory, and one of which only the length of the storage matters. -/
structure SameBuffer (buf : StrbufMem) (b : Strbuf) : Prop where
  holds : Holds buf b.contents
  size : b.bytes.length = buf.size

section Same

variable {buf : StrbufMem} {b : Strbuf} {heap : Allocator}

theorem SameBuffer.used (h : SameBuffer buf b) : buf.used = b.used :=
  h.holds.used.trans b.length_contents

theorem SameBuffer.reserve (h : SameBuffer buf b) (hgrants : ∀ sz, heap.grants sz = true)
    (n : Nat) :
    (∃ buf' b', strbufReserveExtra heap buf n = .ok (true, buf') ∧
        Kmod.strbufReserveExtra b n = some b' ∧ SameBuffer buf' b' ∧
        b'.contents.length + n < buf'.size) ∨
      strbufReserveExtra heap buf n = .ok (false, buf) ∧ Kmod.strbufReserveExtra b n = none := by
  have hused := h.used
  have hle := h.holds.le_size
  have hsize := h.size
  rw [strbufReserveExtra_eq h.holds]
  unfold Kmod.strbufReserveExtra
  rw [h.size, hused]
  by_cases hroom : n < buf.size - b.used
  · rw [if_pos hroom, if_pos hroom]
    refine .inl ⟨buf, b, rfl, rfl, h, ?_⟩
    rw [b.length_contents]
    omega
  · rw [if_neg hroom, if_neg hroom]
    by_cases hlarge : b.used + n ≥ SIZE_MAX - BUF_STEP
    · rw [if_pos hlarge, if_pos (.inr hlarge)]
      exact .inr ⟨rfl, rfl⟩
    · have hsmall : ¬ (b.used + n > SIZE_MAX ∨ b.used + n ≥ SIZE_MAX - BUF_STEP) := by omega
      have hround := le_roundedSize (b.used + n + 1)
      rw [if_neg hlarge, if_neg hsmall]
      rcases bufRealloc_holds h.holds heap (show buf.used < roundedSize (b.used + n + 1) by omega)
        (roundedSize_le_max (by omega)) with ⟨hno, _⟩ | ⟨_, buf', hr, hholds, hsize'⟩
      · exact absurd (hgrants _) (by rw [hno]; decide)
      · refine .inl ⟨buf', _, hr, rfl, ⟨?_, ?_⟩, ?_⟩
        · rw [contents_bufRealloc]
          exact hholds
        · rw [length_bufRealloc, hsize']
        · rw [contents_bufRealloc, b.length_contents]
          omega

theorem SameBuffer.write {b' : Strbuf} {buf' : StrbufMem} (h : SameBuffer buf' b')
    (src : List UInt8) (hroom : b'.contents.length + src.length < buf'.size) :
    ∃ bytes, putRange buf'.bytes buf'.used src = some bytes ∧
      sizeT (buf'.used + src.length) = .ok (buf'.used + src.length) ∧
      SameBuffer { buf' with bytes := bytes, used := buf'.used + src.length } (b'.write src) := by
  obtain ⟨bytes, hput, hsize, hwritten⟩ := h.holds.write src hroom
  have hlen := b'.length_write src
    (by rw [h.size, ← b'.length_contents]; exact Nat.le_of_lt hroom)
  refine ⟨bytes, hput, hsize, ?_, hlen.trans h.size⟩
  rw [Strbuf.contents_write]
  exact hwritten

theorem SameBuffer.pushchar (h : SameBuffer buf b) (hgrants : ∀ sz, heap.grants sz = true)
    (ch : UInt8) :
    ∃ buf', strbufPushchar heap buf ch = .ok ((Kmod.strbufPushchar b ch).1, buf') ∧
      SameBuffer buf' (Kmod.strbufPushchar b ch).2 := by
  unfold Kmod.strbufPushchar
  rcases h.reserve hgrants 1 with ⟨buf', b', hr, hr', h', hroom⟩ | ⟨hr, hr'⟩
  · obtain ⟨bytes, hput, hsize, hwritten⟩ := h'.write [ch] hroom
    rw [strbufPushchar_written hr hput hsize, hr']
    exact ⟨_, rfl, hwritten⟩
  · rw [strbufPushchar_failed ch hr, hr']
    exact ⟨buf, rfl, h⟩

theorem SameBuffer.pushmem (h : SameBuffer buf b) (hgrants : ∀ sz, heap.grants sz = true)
    (src : Nat → UInt8) (sz : Nat) :
    ∃ buf', strbufPushmem heap buf (some src) sz =
        .ok ((Kmod.strbufPushmem b ((List.range sz).map src)).1, buf') ∧
      SameBuffer buf' (Kmod.strbufPushmem b ((List.range sz).map src)).2 := by
  have hlen : ((List.range sz).map src).length = sz := by simp
  unfold Kmod.strbufPushmem
  rw [hlen]
  by_cases h0 : sz = 0
  · subst h0
    exact ⟨buf, rfl, h⟩
  · rw [if_neg h0]
    rcases h.reserve hgrants sz with ⟨buf', b', hr, hr', h', hroom⟩ | ⟨hr, hr'⟩
    · obtain ⟨bytes, hput, hsize, hwritten⟩ := h'.write ((List.range sz).map src)
        (by rw [hlen]; exact hroom)
      rw [hlen] at hsize hwritten
      rw [strbufPushmem_written h0 hr hput hsize, hr']
      exact ⟨_, rfl, hwritten⟩
    · rw [strbufPushmem_failed src hr, hr']
      exact ⟨buf, rfl, h⟩

theorem SameBuffer.popchars (h : SameBuffer buf b) (n : Nat) :
    (∃ buf' b', strbufPopchars buf n = .ok buf' ∧ Kmod.strbufPopchars b n = .ok b' ∧
        SameBuffer buf' b') ∨
      strbufPopchars buf n = .error .assertFailed ∧
        Kmod.strbufPopchars b n = .error .assertFailed := by
  unfold strbufPopchars Kmod.strbufPopchars
  rw [h.used]
  by_cases hn : n ≤ b.used
  · have hn' : b.used ≥ n := hn
    rw [if_pos hn, if_pos hn']
    have hshrunk := h.holds.shrink (show b.used - n ≤ b.contents.length by
      rw [b.length_contents]; exact Nat.sub_le _ _)
    refine .inl ⟨{ buf with used := b.used - n }, _, rfl, rfl, ⟨?_, h.size⟩⟩
    unfold Strbuf.contents at hshrunk ⊢
    rw [List.take_take, Nat.min_eq_left (Nat.sub_le _ _)] at hshrunk
    exact hshrunk
  · have hn' : ¬ b.used ≥ n := hn
    rw [if_neg hn, if_neg hn']
    exact .inr ⟨rfl, rfl⟩

theorem SameBuffer.popchar (h : SameBuffer buf b) :
    (∃ buf' b', strbufPopchar buf = .ok buf' ∧ Kmod.strbufPopchar b = .ok b' ∧
        SameBuffer buf' b') ∨
      strbufPopchar buf = .error .assertFailed ∧
        Kmod.strbufPopchar b = .error .assertFailed :=
  h.popchars 1

end Same

/-! ## The main result -/

/-- **A string buffer is a string.** A sequence of calls, whatever the storage is at first and
whichever allocations fail, does to the bytes in use what it would do to a string, and the bytes
are in the storage with room for a NUL; where it stops, an assertion does not hold of the
string. What is returned, and the contents, are those of any other storage where the same
pushes succeed, which is the case if memory of every size is granted. -/
theorem strbufOps_refine (start : Start) (calls : List (Allocator × Op)) :
    ((∃ rs buf xs, run start.init calls = .ok (rs, buf) ∧
        Allowed [] (calls.map Prod.snd) rs xs ∧ Holds buf xs ∧
        ∃ mem buf', strbufStr buf = .ok (mem, buf') ∧ Holds buf' xs ∧
          readText mem buf.used = .ok (terminated xs) ∧
          (xs ≠ [] → mem = buf'.bytes ∧ (terminated xs).length ≤ buf'.size)) ∨
      run start.init calls = .error .assertFailed ∧ ∃ before op after rs xs,
        calls.map Prod.snd = before ++ op :: after ∧ Allowed [] before rs xs ∧ ¬ op.Asserts xs) ∧
    ∀ (start' : Start) (calls' : List (Allocator × Op)),
      calls'.map Prod.snd = calls.map Prod.snd →
      (∀ rs buf rs' buf', run start.init calls = .ok (rs, buf) →
          run start'.init calls' = .ok (rs', buf') →
          rs.map Result.succeeded = rs'.map Result.succeeded →
          rs = rs' ∧ buf.bytes.take buf.used = buf'.bytes.take buf'.used) ∧
        ((∀ call ∈ calls ++ calls', ∀ sz, call.1.grants sz = true) →
          (run start.init calls).map Prod.fst = (run start'.init calls').map Prod.fst) := by
  refine ⟨?_, fun start' calls' hops => ⟨?_, fun hgrants => ?_⟩⟩
  · rcases run_holds calls start.holds with ⟨rs, buf, xs, hrun, hallowed, h⟩ | hfailed
    · obtain ⟨mem, buf', hstr, hholds, _, _, hread, hinside⟩ := strbufStr_holds h
      exact .inl ⟨rs, buf, xs, hrun, hallowed, h, mem, buf', hstr, hholds, hread, hinside⟩
    · exact .inr hfailed
  · intro rs buf rs' buf' hrun hrun' hsame
    rcases run_holds calls start.holds with ⟨_, _, xs, hrun₁, hallowed, h⟩ | ⟨hrun₁, _⟩
    · rcases run_holds calls' start'.holds with ⟨_, _, xs', hrun₂, hallowed', h'⟩ | ⟨hrun₂, _⟩
      · cases hrun.symm.trans hrun₁
        cases hrun'.symm.trans hrun₂
        rw [hops] at hallowed'
        obtain ⟨hrs, hxs⟩ := hallowed.unique hallowed' hsame
        exact ⟨hrs, h.contents.trans (hxs.trans h'.contents.symm)⟩
      · cases hrun'.symm.trans hrun₂
    · cases hrun.symm.trans hrun₁
  · have hrun := start.matches.run calls (fun c hc => hgrants c (List.mem_append_left _ hc))
    have hrun' := start'.matches.run calls' (fun c hc => hgrants c (List.mem_append_right _ hc))
    rw [hrun, hrun', hops]

/-- The first byte needs an allocation unless there is storage on the stack, and the string
that is returned for an empty buffer is not in the buffer. -/
theorem strbufOps_start_shows :
    (run Start.heap.init [(⟨fun _ => false, fun _ => 0⟩, .pushchar 97)]).map Prod.fst =
        .ok [.pushed false] ∧
      (run (Start.stack [0, 0, 0, 0] (by decide)).init
          [(⟨fun _ => false, fun _ => 0⟩, .pushchar 97)]).map Prod.fst = .ok [.pushed true] ∧
      strbufStr strbufInit = .ok ([0], strbufInit) ∧ strbufInit.size = 0 :=
  ⟨rfl, rfl, rfl, rfl⟩

end Kmod.StrbufOps
