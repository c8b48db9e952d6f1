import Kmod.Base
import Kmod.Lib.Memory

/-!
# The array of pointers

`struct array` grows and shrinks in steps. It is what depmod keeps modules, dependencies and
values in.

Whatever `realloc` does, the cells up to `count` are a sequence (`Holds`) and each function does to
the sequence what its name says, or leaves it as it is and returns an error (`exec_gives`); no
access leaves the block. If no memory is refused there are never more than `step` cells to spare
(`Snug`): an array grows when one cell is left, and is trimmed when more than `step` are.
-/

namespace Kmod.PtrArrays

open Kmod Kmod.Memory

variable {α : Type}

/-! ## The model -/

/-- A `struct array`; `array` is the block, which has `total` cells. -/
structure PtrArray (α : Type) where
  array : List α
  count : Nat
  total : Nat
  step : Nat

/-- What `realloc` does in a call: which sizes it gives, and what is in cells that are new. -/
structure Reallocator (α : Type) where
  grants : Nat → Bool
  junk : Nat → α

/-- `array_init` -/
def arrayInit (step : Nat) : Except Fault (PtrArray α) :=
  if 0 < step then .ok ⟨[], 0, 0, step⟩ else .error .assertFailed

/-- `array_realloc`: whether it succeeds. -/
def arrayRealloc (heap : Reallocator α) (array : PtrArray α) (newTotal : Nat) :
    Bool × PtrArray α :=
  -- `umulsz_overflow(sizeof(void *), new_total, &total_size)`
  if 8 * newTotal > SIZE_MAX then (false, array)
  else if heap.grants (8 * newTotal) then
    (true, { array with
      array := array.array.take newTotal ++
        (List.range (newTotal - array.array.length)).map heap.junk
      total := newTotal })
  else (false, array)

/-- `array_trim` -/
def arrayTrim (heap : Reallocator α) (array : PtrArray α) : PtrArray α :=
  if (array.count + array.step) % (SIZE_MAX + 1) < array.total then
    (arrayRealloc heap array (array.total - array.step)).2
  else array

/-- A `size_t` that is returned as an `int`. -/
def asInt (idx : Nat) : Int := (BitVec.ofNat 32 idx).toInt

/-- The end of `array_append`: there is room. -/
def arrayPut (array : PtrArray α) (element : α) : Except Fault (Int × PtrArray α) := do
  let cells ← inBlock (putRange array.array array.count [element])
  .ok (asInt array.count, { array with array := cells, count := array.count + 1 })

/-- `array_append` -/
def arrayAppend (heap : Reallocator α) (array : PtrArray α) (element : α) :
    Except Fault (Int × PtrArray α) :=
  if array.count + 1 ≥ array.total then
    -- `uaddsz_overflow(array->total, array->step, &new_size)`
    if array.total + array.step > SIZE_MAX then .ok (-ENOMEM, array)
    else
      match arrayRealloc heap array (array.total + array.step) with
      | (false, array) => .ok (-ENOMEM, array)
      | (true, array) => arrayPut array element
  else arrayPut array element

/-- `array_append_unique` -/
def arrayAppendUnique [DecidableEq α] (heap : Reallocator α) (array : PtrArray α) (element : α) :
    Except Fault (Int × PtrArray α) := do
  let cells ← inBlock (getRange array.array 0 array.count)
  if element ∈ cells then .ok (-EEXIST, array) else arrayAppend heap array element

/-- `array_pop` -/
def arrayPop (heap : Reallocator α) (array : PtrArray α) : PtrArray α :=
  if array.count = 0 then array else arrayTrim heap { array with count := array.count - 1 }

/-- `array_free_array` -/
def arrayFreeArray (array : PtrArray α) : PtrArray α :=
  { array with array := [], count := 0, total := 0 }

/-- `array_sort`; `qsort` may put elements that compare equal in any order. -/
def arraySort (qsort : List α → List α) (array : PtrArray α) : Except Fault (PtrArray α) := do
  let cells ← inBlock (getRange array.array 0 array.count)
  let block ← inBlock (putRange array.array 0 (qsort cells))
  .ok { array with array := block }

/-- The `memmove` of `array_remove_at`, if anything is behind the element. -/
def arrayMove (block : List α) (count pos : Nat) : Except Fault (List α) :=
  if pos < count then do
    let cells ← inBlock (getRange block (pos + 1) (count - pos))
    inBlock (putRange block pos cells)
  else .ok block

/-- `array_remove_at` -/
def arrayRemoveAt (heap : Reallocator α) (array : PtrArray α) (pos : Nat) :
    Except Fault (Int × PtrArray α) :=
  if array.count ≤ pos then .ok (-ENOENT, array)
  else do
    let block ← arrayMove array.array (array.count - 1) pos
    .ok (0, arrayTrim heap { array with array := block, count := array.count - 1 })

/-- A call. -/
inductive Op (α : Type) where
  | append (element : α)
  | appendUnique (element : α)
  | pop
  | sort (qsort : List α → List α) (hperm : ∀ xs, (qsort xs).Perm xs)
  | removeAt (pos : Nat)
  | freeArray

/-- A call, with what `realloc` does in it: what it returns, or 0. -/
def exec [DecidableEq α] (heap : Reallocator α) (array : PtrArray α) :
    Op α → Except Fault (Int × PtrArray α)
  | .append element => arrayAppend heap array element
  | .appendUnique element => arrayAppendUnique heap array element
  | .pop => .ok (0, arrayPop heap array)
  | .sort qsort _ => (arraySort qsort array).map (fun array => (0, array))
  | .removeAt pos => arrayRemoveAt heap array pos
  | .freeArray => .ok (0, arrayFreeArray array)

/-- Calls one after the other. -/
def run [DecidableEq α] (array : PtrArray α) :
    List (Reallocator α × Op α) → Except Fault (List Int × PtrArray α)
  | [] => .ok ([], array)
  | (heap, op) :: calls => do
    let (ret, array) ← exec heap array op
    let (rets, array) ← run array calls
    .ok (ret :: rets, array)

/-! ## The sequence -/

/-- What a call does to the sequence, and returns; appending may fail. -/
inductive Gives (full : Prop) : List α → Op α → Int → List α → Prop where
  | append {xs : List α} {x : α} : Gives full xs (.append x) (asInt xs.length) (xs ++ [x])
  | refused {xs : List α} {x : α} : full → Gives full xs (.append x) (-ENOMEM) xs
  | unique {xs : List α} {x : α} : x ∉ xs →
      Gives full xs (.appendUnique x) (asInt xs.length) (xs ++ [x])
  | uniqueRefused {xs : List α} {x : α} : full → x ∉ xs →
      Gives full xs (.appendUnique x) (-ENOMEM) xs
  | exists_ {xs : List α} {x : α} : x ∈ xs → Gives full xs (.appendUnique x) (-EEXIST) xs
  | pop {xs : List α} : Gives full xs .pop 0 xs.dropLast
  | sort {xs : List α} {qsort : List α → List α} {h : ∀ xs, (qsort xs).Perm xs} :
      Gives full xs (.sort qsort h) 0 (qsort xs)
  | removeAt {xs : List α} {pos : Nat} : pos < xs.length →
      Gives full xs (.removeAt pos) 0 (xs.eraseIdx pos)
  | removeNone {xs : List α} {pos : Nat} : xs.length ≤ pos →
      Gives full xs (.removeAt pos) (-ENOENT) xs
  | freeArray {xs : List α} : Gives full xs .freeArray 0 []

/-- A run of calls on the sequence; `full` says when memory is refused. -/
inductive Runs (full : Reallocator α → List α → Prop) :
    List (Reallocator α × Op α) → List α → List Int → List α → Prop where
  | nil {xs : List α} : Runs full [] xs [] xs
  | cons {heap : Reallocator α} {op : Op α} {calls : List (Reallocator α × Op α)}
      {xs ys zs : List α} {ret : Int} {rets : List Int} : Gives (full heap xs) xs op ret ys →
      Runs full calls ys rets zs → Runs full ((heap, op) :: calls) xs (ret :: rets) zs

/-- A block for the sequence, one more element and a step to spare can be too large. -/
def NoRoom (step : Nat) (heap : Reallocator α) (xs : List α) : Prop :=
  ∃ n ≤ xs.length + 1 + step, 8 * n > SIZE_MAX ∨ heap.grants (8 * n) = false

/-- **The invariant**: the first cells are the sequence. -/
structure Holds (array : PtrArray α) (xs : List α) : Prop where
  cells : ∃ rest, array.array = xs ++ rest
  count : array.count = xs.length
  total : array.total = array.array.length
  steps : ∃ k, array.total = k * array.step
  step : 0 < array.step
  step_le : array.step ≤ SIZE_MAX
  size : 8 * array.total ≤ SIZE_MAX

/-- There is at most one step of cells to spare. -/
def Snug (array : PtrArray α) : Prop := array.total ≤ array.count + array.step

theorem arrayMove_eq {block xs rest : List α} {pos : Nat} (hblock : block = xs ++ rest)
    (hpos : pos < xs.length) :
    ∃ rest', arrayMove block (xs.length - 1) pos = .ok (xs.eraseIdx pos ++ rest') ∧
      (xs.eraseIdx pos ++ rest').length = block.length := by
  have hlen : (xs.take pos).length = pos := by
    rw [List.length_take]
    omega
  have hsplit : xs = xs.take pos ++ ([xs[pos]] ++ xs.drop (pos + 1)) := by
    rw [List.singleton_append, List.getElem_cons_drop, List.take_append_drop]
  have herase : xs.eraseIdx pos = xs.take pos ++ xs.drop (pos + 1) :=
    List.eraseIdx_eq_take_drop_succ ..
  have hlast : (xs.drop (pos + 1)).length = xs.length - 1 - pos := by
    rw [List.length_drop]
    omega
  unfold arrayMove
  rw [hblock, herase]
  generalize xs.take pos = front at *
  generalize xs.drop (pos + 1) = back at *
  generalize xs[pos] = x at *
  subst hsplit hlen
  split
  · have hget := getRange_append (front ++ [x]) back rest
    rw [List.length_append, List.length_singleton, hlast, List.append_assoc] at hget
    obtain ⟨rest', hput, hrest⟩ := exists_putRange_append front ([x] ++ back ++ rest) back
      (by simp; omega)
    refine ⟨rest', ?_, ?_⟩
    · simp only [List.append_assoc] at hget hput ⊢
      rw [hget, inBlock_some, ok_bind, hput, inBlock_some]
    · simp only [List.length_append, List.length_singleton] at hrest ⊢
      omega
  · next hge =>
    have hback : back = [] := List.eq_nil_of_length_eq_zero (by omega)
    refine ⟨x :: rest, ?_, ?_⟩
    · rw [hback]
      simp
    · rw [hback]
      simp

section Steps

variable {array : PtrArray α} {xs : List α} (h : Holds array xs) (heap : Reallocator α)
include h

theorem Holds.count_le : array.count ≤ array.total := by
  obtain ⟨rest, hcells⟩ := h.cells
  rw [h.count, h.total, hcells, List.length_append]
  exact Nat.le_add_right ..

theorem Holds.get : getRange array.array 0 array.count = some xs := by
  obtain ⟨rest, hcells⟩ := h.cells
  rw [hcells, h.count]
  exact getRange_append [] xs rest

/-- A block of another size has the same sequence if there is room for it. -/
theorem Holds.realloc {newTotal : Nat} (hroom : xs.length ≤ newTotal)
    (hsteps : ∃ k, newTotal = k * array.step) :
    (arrayRealloc heap array newTotal = (false, array) ∧
      (8 * newTotal > SIZE_MAX ∨ heap.grants (8 * newTotal) = false)) ∨
    ∃ array', arrayRealloc heap array newTotal = (true, array') ∧ Holds array' xs ∧
      array'.count = array.count ∧ array'.total = newTotal ∧ array'.step = array.step := by
  unfold arrayRealloc
  by_cases hbig : 8 * newTotal > SIZE_MAX
  · exact .inl ⟨if_pos hbig, .inl hbig⟩
  · rw [if_neg hbig]
    cases hgrants : heap.grants (8 * newTotal) with
    | false => exact .inl ⟨if_neg (by simp), .inr rfl⟩
    | true =>
      obtain ⟨rest, hcells⟩ := h.cells
      refine .inr ⟨_, if_pos rfl, ⟨⟨rest.take (newTotal - xs.length) ++
        (List.range (newTotal - array.array.length)).map heap.junk, ?_⟩, h.count, ?_, hsteps,
        h.step, h.step_le, Nat.not_lt.mp hbig⟩, rfl, rfl, rfl⟩
      · dsimp only
        rw [hcells, List.take_append, List.take_of_length_le hroom, List.append_assoc]
      · dsimp only
        rw [List.length_append, List.length_take, List.length_map, List.length_range]
        omega

/-- Trimming keeps the sequence, and makes the block snug again if memory is given. -/
theorem Holds.trim : Holds (arrayTrim heap array) xs ∧
    (arrayTrim heap array).step = array.step ∧
    (array.total ≤ array.count + 1 + array.step →
      (∀ n ≤ array.total, heap.grants (8 * n) = true) → Snug (arrayTrim heap array)) := by
  have hcount := h.count_le
  have hsize := h.size
  have hstep := h.step
  have hstepLe := h.step_le
  obtain ⟨k, hk⟩ := h.steps
  have hmod : (array.count + array.step) % (SIZE_MAX + 1) = array.count + array.step := by
    refine Nat.mod_eq_of_lt ?_
    rcases Nat.eq_zero_or_pos k with rfl | hpos
    · omega
    · have hle : array.step ≤ array.total := hk ▸ Nat.le_mul_of_pos_left _ hpos
      omega
  unfold arrayTrim
  rw [hmod]
  split
  · next hlt =>
    have hroom : xs.length ≤ array.total - array.step := by
      rw [← h.count]
      omega
    have hsteps : array.total - array.step = (k - 1) * array.step := by
      rw [hk, Nat.sub_mul, Nat.one_mul]
    rcases h.realloc heap hroom ⟨_, hsteps⟩ with ⟨hrun, hrefused⟩ | ⟨array', hrun, hholds, hcount',
      htotal', hstep'⟩
    · rw [hrun]
      refine ⟨h, rfl, fun _ hgrants => ?_⟩
      rcases hrefused with hbig | hno
      · omega
      · rw [hgrants _ (Nat.sub_le ..)] at hno
        exact absurd hno (by simp)
    · rw [hrun]
      refine ⟨hholds, hstep', fun hle _ => ?_⟩
      show array'.total ≤ array'.count + array'.step
      omega
  · next hge => exact ⟨h, rfl, fun _ _ => Nat.not_lt.mp hge⟩

/-- Writing behind the sequence, if there is a cell. -/
theorem Holds.put (x : α) (hroom : array.count < array.total) :
    ∃ array', arrayPut array x = .ok (asInt xs.length, array') ∧ Holds array' (xs ++ [x]) ∧
      array'.count = array.count + 1 ∧ array'.total = array.total ∧ array'.step = array.step := by
  obtain ⟨rest, hcells⟩ := h.cells
  have hlen : [x].length ≤ rest.length := by
    have htotal := h.total
    rw [hcells, List.length_append] at htotal
    rw [h.count] at hroom
    show 1 ≤ rest.length
    omega
  have hput := putRange_append xs rest [x] hlen
  unfold arrayPut
  rw [hcells, h.count, hput, inBlock_some, ok_bind]
  refine ⟨_, rfl, ⟨⟨rest.drop 1, by simp⟩, by simp, ?_, h.steps, h.step, h.step_le, h.size⟩, rfl,
    rfl, rfl⟩
  have htotal := h.total
  rw [hcells] at htotal
  dsimp only
  rw [htotal]
  simp only [List.length_append, List.length_drop] at hlen ⊢
  omega

/-- **Appending** grows the block when one cell is left, or gives up. -/
theorem Holds.append (x : α) : ∃ ret array', arrayAppend heap array x = .ok (ret, array') ∧
    array'.step = array.step ∧ (Snug array → Snug array') ∧
    ((ret = asInt xs.length ∧ Holds array' (xs ++ [x])) ∨
      (ret = -ENOMEM ∧ array' = array ∧ NoRoom array.step heap xs)) := by
  have hcount := h.count_le
  have hlen := h.count
  have hstep := h.step
  unfold arrayAppend
  split
  · next hfull =>
    have hle : array.total + array.step ≤ xs.length + 1 + array.step := by omega
    split
    · next hbig => exact ⟨_, _, rfl, rfl, id, .inr ⟨rfl, rfl, _, hle, .inl (by omega)⟩⟩
    · have hsteps : ∃ k, array.total + array.step = k * array.step := by
        obtain ⟨k, hk⟩ := h.steps
        exact ⟨k + 1, by rw [hk, Nat.add_mul, Nat.one_mul]⟩
      rcases h.realloc heap (show xs.length ≤ array.total + array.step by omega) hsteps with
        ⟨hrun, hrefused⟩ | ⟨array', hrun, hholds, hcount', htotal', hstep'⟩
      · rw [hrun]
        exact ⟨_, _, rfl, rfl, id, .inr ⟨rfl, rfl, _, hle, hrefused⟩⟩
      · rw [hrun]
        obtain ⟨array'', hput, hholds', hcount'', htotal'', hstep''⟩ := hholds.put x (by omega)
        refine ⟨_, _, hput, hstep''.trans hstep', fun hsnug => ?_, .inl ⟨rfl, hholds'⟩⟩
        unfold Snug at *
        omega
  · next hroom =>
    obtain ⟨array', hput, hholds, hcount', htotal', hstep'⟩ := h.put x (by omega)
    refine ⟨_, _, hput, hstep', fun hsnug => ?_, .inl ⟨rfl, hholds⟩⟩
    unfold Snug at *
    omega

/-- The block with one element less, before it is trimmed. -/
theorem Holds.shrunk {ys block : List α} {rest : List α} (hblock : block = ys ++ rest)
    (hlen : block.length = array.array.length) (hys : ys.length + 1 = xs.length) :
    Holds { array with array := block, count := array.count - 1 } ys := by
  refine ⟨⟨rest, hblock⟩, ?_, h.total.trans hlen.symm, h.steps, h.step, h.step_le, h.size⟩
  show array.count - 1 = ys.length
  rw [h.count]
  omega

/-- Trimming after an element has been taken out. -/
theorem Holds.trim_shrunk {ys block : List α} {rest : List α} (hblock : block = ys ++ rest)
    (hlen : block.length = array.array.length) (hys : ys.length + 1 = xs.length) :
    ∃ array', arrayTrim heap { array with array := block, count := array.count - 1 } = array' ∧
      Holds array' ys ∧ array'.step = array.step ∧
      (Snug array → (∀ n ≤ array.total, heap.grants (8 * n) = true) → Snug array') := by
  obtain ⟨hholds, hstep, hsnug⟩ := (h.shrunk hblock hlen hys).trim heap
  refine ⟨_, rfl, hholds, hstep, fun hle hgrants => hsnug ?_ hgrants⟩
  have hcount := h.count
  unfold Snug at hle
  show array.total ≤ array.count - 1 + 1 + array.step
  omega

/-- **A call** does to the sequence what it should, and stays inside the block. -/
theorem exec_gives [DecidableEq α] (op : Op α) :
    ∃ ret array' ys, exec heap array op = .ok (ret, array') ∧
      Gives (NoRoom array.step heap xs) xs op ret ys ∧ Holds array' ys ∧
      array'.step = array.step ∧
      (Snug array → (∀ n ≤ array.total, heap.grants (8 * n) = true) → Snug array') := by
  have htotal := h.total
  cases op with
  | append x =>
    obtain ⟨ret, array', hrun, hstep, hsnug, hcase⟩ := h.append heap x
    rcases hcase with ⟨rfl, hholds⟩ | ⟨rfl, rfl, hfull⟩
    · exact ⟨_, array', _, hrun, .append, hholds, hstep, fun hs _ => hsnug hs⟩
    · exact ⟨_, _, xs, hrun, .refused hfull, h, hstep, fun hs _ => hsnug hs⟩
  | appendUnique x =>
    have hget : exec heap array (.appendUnique x) = if x ∈ xs then .ok (-EEXIST, array)
        else arrayAppend heap array x := by
      show arrayAppendUnique heap array x = _
      unfold arrayAppendUnique
      rw [h.get, inBlock_some, ok_bind]
    rw [hget]
    by_cases hmem : x ∈ xs
    · rw [if_pos hmem]
      exact ⟨_, _, xs, rfl, .exists_ hmem, h, rfl, fun hs _ => hs⟩
    · rw [if_neg hmem]
      obtain ⟨ret, array', hrun, hstep, hsnug, hcase⟩ := h.append heap x
      rcases hcase with ⟨rfl, hholds⟩ | ⟨rfl, rfl, hfull⟩
      · exact ⟨_, array', _, hrun, .unique hmem, hholds, hstep, fun hs _ => hsnug hs⟩
      · exact ⟨_, _, xs, hrun, .uniqueRefused hfull hmem, h, hstep, fun hs _ => hsnug hs⟩
  | pop =>
    rcases List.eq_nil_or_concat xs with rfl | ⟨ys, y, rfl⟩
    · have hzero : array.count = 0 := h.count
      refine ⟨0, array, _, ?_, .pop, h, rfl, fun hs _ => hs⟩
      show Except.ok (0, arrayPop heap array) = _
      rw [arrayPop, if_pos hzero]
    · rw [List.concat_eq_append] at *
      obtain ⟨rest, hcells⟩ := h.cells
      have hpos : array.count ≠ 0 := by
        rw [h.count]
        simp
      have hblock : array.array = ys ++ ([y] ++ rest) :=
        hcells.trans (List.append_assoc ys [y] rest)
      obtain ⟨array', hrun, hholds, hstep, hsnug⟩ := h.trim_shrunk heap hblock rfl (by simp)
      refine ⟨0, array', _, ?_, .pop, by rwa [List.dropLast_concat], hstep, hsnug⟩
      show Except.ok (0, arrayPop heap array) = _
      rw [arrayPop, if_neg hpos, ← hrun]
  | sort qsort hperm =>
    obtain ⟨rest, hcells⟩ := h.cells
    have hlen := (hperm xs).length_eq
    have hput : putRange array.array 0 (qsort xs) = some (qsort xs ++ rest) := by
      have := putRange_append [] (xs ++ rest) (qsort xs) (by simp [hlen])
      rw [List.nil_append, List.length_nil, List.nil_append, hlen, List.drop_left] at this
      rw [hcells]
      exact this
    refine ⟨0, { array with array := qsort xs ++ rest }, qsort xs, ?_, .sort,
      ⟨⟨rest, rfl⟩, h.count.trans hlen.symm, ?_, h.steps, h.step, h.step_le, h.size⟩, rfl,
      fun hs _ => hs⟩
    · show (arraySort qsort array).map _ = _
      unfold arraySort
      rw [h.get, inBlock_some, ok_bind, hput, inBlock_some]
      rfl
    · rw [htotal, hcells]
      simp [hlen]
  | removeAt pos =>
    have hcount := h.count
    by_cases hpos : array.count ≤ pos
    · exact ⟨_, _, xs, if_pos hpos, .removeNone (hcount ▸ hpos), h, rfl, fun hs _ => hs⟩
    · obtain ⟨rest, hcells⟩ := h.cells
      have hlt : pos < xs.length := by omega
      obtain ⟨rest', hblock, hlen⟩ := arrayMove_eq hcells hlt
      obtain ⟨array', hrun, hholds, hstep, hsnug⟩ := h.trim_shrunk heap rfl hlen
        (by rw [List.length_eraseIdx_of_lt hlt]; omega)
      refine ⟨0, array', _, ?_, .removeAt hlt, hholds, hstep, hsnug⟩
      show arrayRemoveAt heap array pos = _
      unfold arrayRemoveAt
      rw [if_neg hpos, hcount, hblock, ok_bind, ← hrun, hcount]
  | freeArray =>
    refine ⟨0, _, [], rfl, .freeArray, ⟨⟨[], rfl⟩, rfl, rfl, ⟨0, (Nat.zero_mul _).symm⟩, h.step,
      h.step_le, Nat.zero_le _⟩, rfl, fun _ _ => Nat.zero_le _⟩

end Steps

/-! ## Runs -/

theorem Gives.length_le {full : Prop} {xs ys : List α} {op : Op α} {ret : Int}
    (h : Gives full xs op ret ys) : ys.length ≤ xs.length + 1 := by
  cases h with
  | append => simp
  | refused _ => exact Nat.le_succ _
  | unique _ => simp
  | uniqueRefused _ _ => exact Nat.le_succ _
  | exists_ _ => exact Nat.le_succ _
  | pop =>
    rw [List.length_dropLast]
    omega
  | sort =>
    next hperm => exact (hperm xs).length_eq.le.trans (Nat.le_succ _)
  | removeAt _ => exact (List.length_eraseIdx_le ..).trans (Nat.le_succ _)
  | removeNone _ => exact Nat.le_succ _
  | freeArray => exact Nat.zero_le _

/-- Calls on an array that holds a sequence. -/
theorem run_gives [DecidableEq α] {bound : Nat} (calls : List (Reallocator α × Op α)) :
    ∀ {array : PtrArray α} {xs : List α}, Holds array xs → xs.length + calls.length ≤ bound →
      ∃ rets array' ys, run array calls = .ok (rets, array') ∧
        Runs (NoRoom array.step) calls xs rets ys ∧ Holds array' ys ∧
        array'.step = array.step ∧
        (Snug array → (∀ call ∈ calls, ∀ n ≤ bound + array.step, call.1.grants (8 * n) = true) →
          Snug array') := by
  induction calls with
  | nil => exact fun h _ => ⟨[], _, _, rfl, .nil, h, rfl, fun hs _ => hs⟩
  | cons call calls ih =>
    intro array xs h hbound
    obtain ⟨heap, op⟩ := call
    obtain ⟨ret, array₁, ys, hrun, hgives, hholds, hstep, hsnug⟩ := exec_gives h heap op
    have hle := hgives.length_le
    rw [List.length_cons] at hbound
    obtain ⟨rets, array', zs, hrest, hruns, hholds', hstep', hsnug'⟩ := ih hholds (by omega)
    rw [hstep] at hruns hstep' hsnug'
    refine ⟨ret :: rets, array', zs, ?_, .cons hgives hruns, hholds', hstep', fun hs hgrants => ?_⟩
    · rw [run, hrun, ok_bind]
      dsimp only
      rw [hrest]
      rfl
    · have hcount := h.count
      refine hsnug' (hsnug hs (fun n hn => ?_)) (fun call hcall =>
        hgrants call (List.mem_cons_of_mem _ hcall))
      refine hgrants _ (List.mem_cons_self ..) n ?_
      unfold Snug at hs
      omega

/--
**The array is a sequence.** Whatever calls are made, and whatever `realloc` does in each of them,
no access leaves the block, and what the calls return and what is in the array at the end are what
the sequence gives; an element is only refused if the block for the sequence, the element and a
step would be too large or `realloc` does not give it. If `realloc` gives what could be needed,
there is never more than a step to spare.
-/
theorem array_refines [DecidableEq α] {step : Nat} (hstep : 0 < step) (hle : step ≤ SIZE_MAX)
    (calls : List (Reallocator α × Op α)) :
    ∃ array₀ rets array xs, arrayInit step = .ok array₀ ∧
      run array₀ calls = .ok (rets, array) ∧ Runs (NoRoom step) calls [] rets xs ∧
      getRange array.array 0 array.count = some xs ∧
      ((∀ call ∈ calls, ∀ n ≤ calls.length + step, call.1.grants (8 * n) = true) →
        array.total ≤ xs.length + step) := by
  have hinit : Holds (⟨[], 0, 0, step⟩ : PtrArray α) [] :=
    ⟨⟨[], rfl⟩, rfl, rfl, ⟨0, (Nat.zero_mul _).symm⟩, hstep, hle, Nat.zero_le _⟩
  obtain ⟨rets, array, xs, hrun, hruns, hholds, hstep', hsnug⟩ :=
    run_gives calls hinit (Nat.le_of_eq (Nat.zero_add calls.length))
  refine ⟨_, rets, array, xs, if_pos hstep, hrun, hruns, hholds.get, fun hgrants => ?_⟩
  have hspare : array.total ≤ array.count + array.step := hsnug (Nat.zero_le _) hgrants
  rw [hholds.count, hstep'] at hspare
  exact hspare

/-- An allocator that refuses 32 bytes and more. -/
def smallAllocator : Reallocator Nat := ⟨fun size => decide (size < 32), fun _ => 0⟩

/-- Five calls. -/
def fiveCalls : List (Reallocator Nat × Op Nat) :=
  [(smallAllocator, .append 7), (smallAllocator, .append 8), (smallAllocator, .appendUnique 7),
    (smallAllocator, .removeAt 0), (smallAllocator, .appendUnique 7)]

/-- The second element is refused; there is a place again after one has been removed. -/
theorem array_refines_refused : ∃ array₀ array : PtrArray Nat,
    arrayInit 2 = .ok array₀ ∧
    run array₀ fiveCalls = .ok ([0, -ENOMEM, -EEXIST, 0, 0], array) ∧
    Runs (NoRoom 2) fiveCalls [] [0, -ENOMEM, -EEXIST, 0, 0] [7] := by
  obtain ⟨array₀, rets, array, xs, hinit, hrun, hruns, hget, -⟩ :=
    array_refines (show 0 < 2 by decide) (by decide) fiveCalls
  obtain rfl := Except.ok.inj hinit
  have hrets : (run ⟨[], 0, 0, 2⟩ fiveCalls).map Prod.fst = .ok [0, -ENOMEM, -EEXIST, 0, 0] := by
    decide +kernel
  have hcells : (run ⟨[], 0, 0, 2⟩ fiveCalls).map
      (fun p => getRange p.2.array 0 p.2.count) = .ok (some [7]) := by
    decide +kernel
  rw [hrun] at hrets hcells
  obtain rfl : rets = _ := Except.ok.inj hrets
  obtain rfl : xs = [7] := Option.some.inj (hget.symm.trans (Except.ok.inj hcells))
  exact ⟨_, array, rfl, hrun, hruns⟩

end Kmod.PtrArrays
