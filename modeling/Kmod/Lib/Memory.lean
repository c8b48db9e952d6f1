import Mathlib.Data.List.Basic

/-!
# Memory with bounds

A block of memory is a list of cells and a pointer into it is an offset. Reading and
writing a range gives nothing if a cell of the range is not in the block, so what a
program does with a block is defined only where the block is large enough.

The lemmas are about blocks that are written as a concatenation, with the range in
the middle.
-/

namespace Kmod.Memory

variable {α : Type*}

/-- The `n` cells from an offset on. -/
def getRange (mem : List α) (off n : Nat) : Option (List α) :=
  if off + n ≤ mem.length then some ((mem.drop off).take n) else none

/-- The block with the cells from an offset on overwritten. -/
def putRange (mem : List α) (off : Nat) (cells : List α) : Option (List α) :=
  if off + cells.length ≤ mem.length then
    some (mem.take off ++ (cells ++ mem.drop (off + cells.length)))
  else none

theorem getRange_append (a b c : List α) : getRange (a ++ (b ++ c)) a.length b.length = some b := by
  unfold getRange
  rw [if_pos (by simp), List.drop_left, List.take_left]

theorem putRange_append (a b cells : List α) (h : cells.length ≤ b.length) :
    putRange (a ++ b) a.length cells = some (a ++ (cells ++ b.drop cells.length)) := by
  unfold putRange
  rw [if_pos (by simp; omega), List.take_left, List.drop_append, List.drop_of_length_le (by omega)]
  simp

/-- Writing to the front of a part of the block. -/
theorem putRange_front (a b c cells : List α) (h : cells.length ≤ b.length) :
    putRange (a ++ (b ++ c)) a.length cells = some (a ++ (cells ++ (b.drop cells.length ++ c))) := by
  rw [putRange_append a (b ++ c) cells (Nat.le_trans h (by simp)),
    List.drop_append_of_le_length h]

/-- Writing where a first part of the block ends; what is behind is not looked at. -/
theorem exists_putRange_append (a b cells : List α) (h : cells.length ≤ b.length) :
    ∃ rest, putRange (a ++ b) a.length cells = some ((a ++ cells) ++ rest) ∧
      rest.length = b.length - cells.length :=
  ⟨b.drop cells.length, by rw [putRange_append a b cells h, List.append_assoc], List.length_drop⟩

theorem getElem?_putRange {mem cells mem' : List α} {off : Nat}
    (h : putRange mem off cells = some mem') (p : Nat) :
    mem'[p]? = if off ≤ p ∧ p < off + cells.length then cells[p - off]? else mem[p]? := by
  unfold putRange at h
  split at h
  · next hle =>
    cases h
    have hoff : (mem.take off).length = off := by
      rw [List.length_take]
      omega
    rcases Nat.lt_or_ge p off with hlt | hge
    · rw [if_neg (by omega), List.getElem?_append_left (by omega), List.getElem?_take_of_lt hlt]
    · rw [List.getElem?_append_right (by omega), hoff]
      split
      · rw [List.getElem?_append_left (by omega)]
      · rw [List.getElem?_append_right (by omega), List.getElem?_drop]
        congr 1
        omega
  · cases h

theorem length_putRange {mem cells mem' : List α} {off : Nat}
    (h : putRange mem off cells = some mem') : mem'.length = mem.length := by
  unfold putRange at h
  split at h
  · cases h
    simp
    omega
  · cases h

theorem exists_putRange {mem cells : List α} {off : Nat} :
    (∃ mem', putRange mem off cells = some mem') ↔ off + cells.length ≤ mem.length := by
  unfold putRange
  split
  · next h => exact iff_of_true ⟨_, rfl⟩ h
  · next h => exact iff_of_false (fun ⟨_, h⟩ => by cases h) h

/-- Replacing the cells of a range one after the other, with `f`. -/
def mapRange (f : α → α) : List α → Nat → Nat → Option (List α)
  | mem, _, 0 => some mem
  | mem, p, n + 1 => do
    let c ← mem[p]?
    let mem ← putRange mem p [f c]
    mapRange f mem (p + 1) n

theorem mapRange_append (f : α → α) (b : List α) :
    ∀ a c : List α, mapRange f (a ++ (b ++ c)) a.length b.length = some (a ++ (b.map f ++ c)) := by
  induction b with
  | nil => intro a c; rfl
  | cons x b ih =>
    intro a c
    have hget : (a ++ (x :: b ++ c))[a.length]? = some x := by simp
    have hput : putRange (a ++ (x :: b ++ c)) a.length [f x] = some (a ++ ([f x] ++ (b ++ c))) :=
      putRange_append a (x :: b ++ c) [f x] (by simp)
    have hrest := ih (a ++ [f x]) c
    rw [List.length_append, List.append_assoc] at hrest
    rw [List.length_cons, mapRange, hget, Option.bind_eq_bind, Option.bind_some, hput,
      Option.bind_eq_bind, Option.bind_some]
    exact hrest.trans (by simp)

/-- Moving the cells of a range down by `k`, one after the other. -/
def moveDown (k : Nat) : List α → Nat → Nat → Option (List α)
  | mem, _, 0 => some mem
  | mem, p, n + 1 => do
    let c ← mem[p + k]?
    let mem ← putRange mem p [c]
    moveDown k mem (p + 1) n

/-- What has been moved down; the last `k` cells keep what they held. -/
theorem moveDown_append (k n : Nat) :
    ∀ a b c : List α, b.length = n + k →
      moveDown k (a ++ (b ++ c)) a.length n = some (a ++ (b.drop k ++ (b.drop n ++ c))) := by
  induction n with
  | zero =>
    intro a b c hb
    rw [List.drop_of_length_le (by omega), moveDown, List.nil_append, List.drop_zero]
  | succ n ih =>
    intro a b c hb
    cases b with
    | nil =>
      rw [List.length_nil] at hb
      omega
    | cons x b =>
      rw [List.length_cons] at hb
      have hk : k < (x :: b).length := by
        rw [List.length_cons]
        omega
      have hget : (a ++ (x :: b ++ c))[a.length + k]? = some (x :: b)[k] := by
        rw [List.getElem?_append_right (Nat.le_add_right _ _), Nat.add_sub_cancel_left,
          List.getElem?_append_left hk, List.getElem?_eq_getElem hk]
      have hput : putRange (a ++ (x :: b ++ c)) a.length [(x :: b)[k]]
          = some (a ++ ([(x :: b)[k]] ++ (b ++ c))) :=
        putRange_append a (x :: b ++ c) _ (by simp)
      have hrest := ih (a ++ [(x :: b)[k]]) b c (by omega)
      rw [List.length_append, List.append_assoc] at hrest
      rw [moveDown, hget, Option.bind_eq_bind, Option.bind_some, hput, Option.bind_eq_bind,
        Option.bind_some]
      refine hrest.trans ?_
      rw [List.append_assoc, List.drop_succ_cons, List.drop_eq_getElem_cons hk, List.drop_succ_cons]
      rfl

end Kmod.Memory
