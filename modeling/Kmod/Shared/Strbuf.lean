import Kmod.Base
import Mathlib.Data.List.Basic

/-!
# String buffers

A `struct strbuf` is a stack of characters: `used` bytes of a storage that begins
on the stack and moves to the heap when it has to grow. Pushing never loses what
is there and popping uncovers it again, so a caller that pops what it pushed
leaves the buffer with the contents it found. That is all the callers rely on;
which storage the buffer ends up with does not matter to them.

Allocations succeed. The bytes of a fresh storage are indeterminate in C and zero
here; nothing reads them.
-/

namespace Kmod

def BUF_STEP : Nat := 128

/-- A `struct strbuf`; `size` is the length of the storage. -/
structure Strbuf where
  bytes : List UInt8
  used : Nat
  heap : Bool
  fits : used ≤ bytes.length

namespace Strbuf

/-- The bytes in use. -/
def contents (buf : Strbuf) : List UInt8 := buf.bytes.take buf.used

@[simp] theorem length_contents (buf : Strbuf) : buf.contents.length = buf.used := by
  unfold contents
  rw [List.length_take]
  exact Nat.min_eq_left buf.fits

end Strbuf

/-- `DECLARE_STRBUF_WITH_STACK`. -/
def declareStrbufWithStack (size : Nat) : Strbuf := ⟨List.replicate size 0, 0, false, Nat.zero_le _⟩

@[simp] theorem contents_declareStrbufWithStack (size : Nat) :
    (declareStrbufWithStack size).contents = [] := rfl

/-- `DECLARE_STRBUF`: no storage yet. -/
def declareStrbuf : Strbuf := ⟨[], 0, true, Nat.le_refl _⟩

@[simp] theorem contents_declareStrbuf : declareStrbuf.contents = [] := rfl

/-- `buf_realloc`, to a size that holds what is in use. -/
def bufRealloc (buf : Strbuf) (size : Nat) (h : buf.used ≤ size) : Strbuf :=
  ⟨buf.bytes.take size ++ List.replicate (size - buf.bytes.length) 0, buf.used, true, by
    have := buf.fits
    rw [List.length_append, List.length_take, List.length_replicate]
    omega⟩

theorem contents_bufRealloc (buf : Strbuf) {size : Nat} (h : buf.used ≤ size) :
    (bufRealloc buf size h).contents = buf.contents := by
  have hfits := buf.fits
  show (buf.bytes.take size ++ List.replicate (size - buf.bytes.length) 0).take buf.used = _
  rw [List.take_append_of_le_length (by rw [List.length_take]; omega), List.take_take,
    Nat.min_eq_left h]
  rfl

theorem length_bufRealloc (buf : Strbuf) {size : Nat} (h : buf.used ≤ size) :
    (bufRealloc buf size h).bytes.length = size := by
  show (buf.bytes.take size ++ List.replicate (size - buf.bytes.length) 0).length = size
  rw [List.length_append, List.length_take, List.length_replicate]
  omega

/-- The size to which `strbuf_reserve_extra` rounds up. -/
def roundedSize (n : Nat) : Nat := if n % BUF_STEP ≠ 0 then (n / BUF_STEP + 1) * BUF_STEP else n

theorem le_roundedSize (n : Nat) : n ≤ roundedSize n := by
  unfold roundedSize
  split
  · have := Nat.div_add_mod n BUF_STEP
    have := Nat.mod_lt n (show 0 < BUF_STEP by decide)
    rw [Nat.add_mul, Nat.mul_comm]
    omega
  · exact Nat.le_refl n

/-- `strbuf_reserve_extra`: the buffer, if there can be room for `n` more bytes and a NUL. -/
def strbufReserveExtra (buf : Strbuf) (n : Nat) : Option Strbuf :=
  if n < buf.bytes.length - buf.used then some buf
  else if buf.used + n > SIZE_MAX ∨ buf.used + n ≥ SIZE_MAX - BUF_STEP then none
  else some (bufRealloc buf (roundedSize (buf.used + n + 1))
    (Nat.le_trans (by omega) (le_roundedSize _)))

/-- Put bytes behind those in use. -/
def Strbuf.write (buf : Strbuf) (src : List UInt8) : Strbuf :=
  ⟨buf.bytes.take buf.used ++ src ++ buf.bytes.drop (buf.used + src.length),
    buf.used + src.length, buf.heap, by
    have := buf.fits
    simp only [List.length_append, List.length_take]
    omega⟩

theorem Strbuf.length_write (buf : Strbuf) (src : List UInt8)
    (h : buf.used + src.length ≤ buf.bytes.length) :
    (buf.write src).bytes.length = buf.bytes.length := by
  unfold Strbuf.write
  simp only [List.length_append, List.length_take, List.length_drop]
  omega

/-- `strbuf_pushchar`. -/
def strbufPushchar (buf : Strbuf) (ch : UInt8) : Bool × Strbuf :=
  match strbufReserveExtra buf 1 with
  | none => (false, buf)
  | some buf => (true, buf.write [ch])

/-- `strbuf_pushmem`: the number of bytes pushed, and the buffer. -/
def strbufPushmem (buf : Strbuf) (src : List UInt8) : Nat × Strbuf :=
  if src.length = 0 then (0, buf)
  else
    match strbufReserveExtra buf src.length with
    | none => (0, buf)
    | some buf => (src.length, buf.write src)

/-- `strbuf_pushchars`. -/
def strbufPushchars (buf : Strbuf) (str : CStr) : Nat × Strbuf := strbufPushmem buf str

/-- `strbuf_popchars`. -/
def strbufPopchars (buf : Strbuf) (n : Nat) : Except Fault Strbuf :=
  if n ≤ buf.used then .ok ⟨buf.bytes, buf.used - n, buf.heap,
    Nat.le_trans (Nat.sub_le ..) buf.fits⟩
  else .error .assertFailed

/-- `strbuf_popchar`. -/
def strbufPopchar (buf : Strbuf) : Except Fault Strbuf := strbufPopchars buf 1

/-! ## What pushing and popping do -/

/-- **Room is made, and nothing is lost**, as long as sizes are far from `SIZE_MAX`. -/
theorem strbufReserveExtra_room {buf : Strbuf} {n : Nat} (h : buf.used + n < SIZE_MAX - BUF_STEP) :
    ∃ buf', strbufReserveExtra buf n = some buf' ∧ buf'.contents = buf.contents ∧
      n < buf'.bytes.length - buf'.used := by
  unfold strbufReserveExtra
  split
  · next hroom => exact ⟨buf, rfl, rfl, hroom⟩
  · have hsize : ¬ (buf.used + n > SIZE_MAX ∨ buf.used + n ≥ SIZE_MAX - BUF_STEP) := by omega
    rw [if_neg hsize]
    have hround := le_roundedSize (buf.used + n + 1)
    refine ⟨_, rfl, contents_bufRealloc buf _, ?_⟩
    rw [length_bufRealloc]
    show n < roundedSize (buf.used + n + 1) - buf.used
    omega

@[simp] theorem Strbuf.contents_write (buf : Strbuf) (src : List UInt8) :
    (buf.write src).contents = buf.contents ++ src := by
  unfold Strbuf.contents Strbuf.write
  refine List.take_left' ?_
  rw [List.length_append, List.length_take, Nat.min_eq_left buf.fits]

theorem strbufPushchar_ok (buf : Strbuf) (ch : UInt8) (h : buf.used + 1 < SIZE_MAX - BUF_STEP) :
    ∃ buf', strbufPushchar buf ch = (true, buf') ∧ buf'.contents = buf.contents ++ [ch] := by
  obtain ⟨buf', hreserve, hcontents, _⟩ := strbufReserveExtra_room h
  refine ⟨buf'.write [ch], ?_, ?_⟩
  · unfold strbufPushchar
    rw [hreserve]
  · rw [Strbuf.contents_write, hcontents]

theorem strbufPushchars_ok (buf : Strbuf) (str : CStr)
    (h : buf.used + str.length < SIZE_MAX - BUF_STEP) :
    ∃ buf', strbufPushchars buf str = (str.length, buf') ∧ buf'.contents = buf.contents ++ str := by
  unfold strbufPushchars strbufPushmem
  split
  · next hnil =>
    rw [List.length_eq_zero_iff] at hnil
    subst hnil
    exact ⟨buf, rfl, (List.append_nil _).symm⟩
  · obtain ⟨buf', hreserve, hcontents, _⟩ := strbufReserveExtra_room h
    refine ⟨buf'.write str, ?_, ?_⟩
    · rw [hreserve]
    · rw [Strbuf.contents_write, hcontents]

/-- Storage on the heap stays there. -/
theorem heap_strbufReserveExtra {buf buf' : Strbuf} {n : Nat}
    (h : strbufReserveExtra buf n = some buf')
    (hheap : buf.heap = true) : buf'.heap = true := by
  unfold strbufReserveExtra at h
  split at h
  · cases h
    exact hheap
  · split at h
    · cases h
    · cases h
      rfl

theorem heap_strbufPushchar {buf : Strbuf} (ch : UInt8) (hheap : buf.heap = true) :
    (strbufPushchar buf ch).2.heap = true := by
  unfold strbufPushchar
  split
  · exact hheap
  · next hreserve =>
    have := heap_strbufReserveExtra hreserve hheap
    exact this

theorem heap_strbufPushchars {buf : Strbuf} (str : CStr) (hheap : buf.heap = true) :
    (strbufPushchars buf str).2.heap = true := by
  unfold strbufPushchars strbufPushmem
  split
  · exact hheap
  · split
    · exact hheap
    · next hreserve =>
      have := heap_strbufReserveExtra hreserve hheap
      exact this

/-- Popping as many bytes as were pushed uncovers what was there. -/
theorem strbufPopchars_ok {buf : Strbuf} {below str : List UInt8}
    (h : buf.contents = below ++ str) :
    ∃ buf', strbufPopchars buf str.length = .ok buf' ∧ buf'.contents = below := by
  have hused : buf.used = below.length + str.length := by
    rw [← buf.length_contents, h, List.length_append]
  unfold strbufPopchars
  rw [if_pos (by omega)]
  refine ⟨_, rfl, ?_⟩
  have htake : buf.bytes.take (buf.used - str.length) = buf.contents.take below.length := by
    unfold Strbuf.contents
    rw [List.take_take]
    congr 1
    omega
  show buf.bytes.take (buf.used - str.length) = below
  rw [htake, h, List.take_left]

theorem strbufPopchar_ok {buf : Strbuf} {below : List UInt8} {ch : UInt8}
    (h : buf.contents = below ++ [ch]) :
    ∃ buf', strbufPopchar buf = .ok buf' ∧ buf'.contents = below :=
  strbufPopchars_ok h

end Kmod
