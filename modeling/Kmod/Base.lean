import Mathlib.Data.Set.Basic
import Mathlib.Logic.Relation
import Kmod.Lib.Bytes

/-!
# Strings, codes and limits of the C program

The vocabulary the modules share: byte strings, the error numbers that travel as
negative return values, the limits of the fixed-size buffers, and the ways an
execution can leave the defined part of the language.
-/

namespace Kmod

/-- A C string: the bytes before its terminating NUL. -/
abbrev CStr := List UInt8

/-- A C string constant. -/
def cstr (s : String) : CStr := s.toList.map (fun c => UInt8.ofNat c.toNat)

/-- The characters of a string are looked at one by one, rather than all bytes there are. -/
instance (priority := 2000) decidableForallChar (s : CStr) (p : UInt8 → Prop) [DecidablePred p] :
    Decidable (∀ c ∈ s, p c) :=
  List.decidableBAll p s

/-- `PATH_MAX`, the size of the path buffers. -/
def PATH_MAX : Nat := 4096

/-- `UINT16_MAX`. -/
def UINT16_MAX : Nat := 65535

/-- `INT32_MAX`. -/
def INT32_MAX : Int := 2147483647

/-- `INT_MAX`. -/
def INT_MAX : Nat := 2147483647

/-- `SIZE_MAX`. -/
def SIZE_MAX : Nat := 18446744073709551615

/-- `PTRDIFF_MAX`: `malloc` refuses larger sizes. -/
def PTRDIFF_MAX : Nat := 9223372036854775807

/-- `UINT32_MAX`. -/
def UINT32_MAX : Nat := 4294967295

def ENOENT : Int := 2
def ENOEXEC : Int := 8
def EAGAIN : Int := 11
def ENOMEM : Int := 12
def EBUSY : Int := 16
def EEXIST : Int := 17
def EINVAL : Int := 22
def ENAMETOOLONG : Int := 36
def ENOSYS : Int := 38
def ENODATA : Int := 61

/-- How an execution can fail to produce a result. -/
inductive Fault where
  /-- An `assert` does not hold. -/
  | assertFailed
  /-- An access outside an array, a mapping or a buffer. -/
  | outOfBounds
  /-- `CRIT` logs its message and exits the process. -/
  | exited
  /-- A signed number leaves its range. -/
  | overflow
  /-- The model was given too few steps. -/
  | outOfFuel
  deriving DecidableEq, Repr

/-- An access outside a block is a fault. -/
def inBlock {α : Type} (x : Option α) : Except Fault α := x.elim (.error .outOfBounds) .ok

@[simp] theorem inBlock_some {α : Type} (x : α) : inBlock (some x) = .ok x := rfl

/-- The string a pointer points to, which has to end in the block. -/
def stringAt (buf : List UInt8) (p : Nat) : Except Fault CStr :=
  inBlock ((Bytes.takeCstr (buf.drop p)).map Prod.fst)

theorem stringAt_append (a rest : List UInt8) {w : CStr} (hw : 0 ∉ w) :
    stringAt (a ++ (w ++ 0 :: rest)) a.length = .ok w := by
  unfold stringAt
  rw [List.drop_left, Bytes.takeCstr_append hw]
  rfl

/-- The string at an offset, where the block is what comes before it, the string and the rest. -/
theorem stringAt_of_eq {buf : List UInt8} {w : CStr} {p : Nat} (a rest : List UInt8)
    (hbuf : buf = a ++ (w ++ 0 :: rest)) (hp : p = a.length) (hw : 0 ∉ w) :
      stringAt buf p = .ok w := by
  rw [hbuf, hp]
  exact stringAt_append a rest hw

theorem ok_bind {ε α β : Type} (x : α) (f : α → Except ε β) : (Except.ok x >>= f) = f x := rfl

theorem error_bind {ε α β : Type} (e : ε) (f : α → Except ε β) :
    (Except.error e >>= f) = .error e := rfl

/-- A computation that succeeds has succeeded in its first part. -/
theorem ok_of_bind {ε α β : Type} {x : Except ε α} {f : α → Except ε β} {r : β}
    (h : (x >>= f) = .ok r) : ∃ a, x = .ok a ∧ f a = .ok r := by
  cases x with
  | error e => cases h
  | ok a => exact ⟨a, rfl, h⟩

/-- A pass over a list succeeds if every step does. -/
theorem mapM_ok {ε α β : Type} {f : α → Except ε β} {g : α → β} {l : List α}
    (h : ∀ a ∈ l, f a = .ok (g a)) : l.mapM f = .ok (l.map g) := by
  induction l with
  | nil => rfl
  | cons a l ih =>
    rw [List.mapM_cons, h a (List.mem_cons_self ..), ok_bind,
      ih (fun b hb => h b (List.mem_cons_of_mem _ hb))]
    rfl

/-- `malloc` and `realloc`: which sizes they can give, and what is in new memory. -/
structure Allocator where
  grants : Nat → Bool
  junk : Nat → UInt8

def Allocator.malloc (heap : Allocator) (size : Nat) : Option (List UInt8) :=
  if heap.grants size then some ((List.range size).map heap.junk) else none

def Allocator.realloc (heap : Allocator) (buf : List UInt8) (size : Nat) : Option (List UInt8) :=
  if heap.grants size then
    some (buf.take size ++ (List.range (size - buf.length)).map heap.junk)
  else none

/-- `malloc` does not give more than a pointer difference can be. -/
def Allocator.Bounded (heap : Allocator) : Prop :=
  ∀ size, heap.grants size = true → size ≤ PTRDIFF_MAX

/-- An allocator that gives all that `malloc` can give. -/
def largeAllocator : Allocator :=
  { grants := fun size => decide (size ≤ PTRDIFF_MAX), junk := fun _ => 1 }

theorem largeAllocator_bounded : largeAllocator.Bounded := fun _ h => of_decide_eq_true h

end Kmod
