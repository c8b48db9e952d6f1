import Mathlib.Data.List.Sort

/-!
# Insertion into sorted lists, class by class

Sorting by a total preorder `r` can only choose the order within its classes, the
sets of elements that are equivalent under `r`. Inserting an element before the
first one that is not smaller puts it in front of its class and leaves every
other class as it is; a sorted list is determined by its classes.
-/

namespace Kmod.Sorting

variable {α : Type*} (r : α → α → Prop) [DecidableRel r]

/-- The elements of `l` equivalent to `a`, in order. -/
def classOf (a : α) (l : List α) : List α := l.filter (fun b => r a b ∧ r b a)

/-- Insert the elements of `xs` one after the other. -/
def insertAll (l xs : List α) : List α := xs.foldl (fun l x => l.orderedInsert r x) l

section Classes

variable {r}

theorem mem_classOf {a b : α} {l : List α} : b ∈ classOf r a l ↔ b ∈ l ∧ r a b ∧ r b a := by
  simp [classOf]

theorem classOf_cons_of_equiv {a b : α} {l : List α} (h : r a b ∧ r b a) :
    classOf r a (b :: l) = b :: classOf r a l := by simp [classOf, h]

theorem classOf_cons_of_not {a b : α} {l : List α} (h : ¬ (r a b ∧ r b a)) :
    classOf r a (b :: l) = classOf r a l := by
  rw [classOf, List.filter_cons_of_neg (by simpa using h)]
  rfl

/-- An inserted element comes first in its class. -/
theorem classOf_orderedInsert_of_equiv [IsTrans α r] {a x : α} (h : r a x ∧ r x a) (l : List α) :
    classOf r a (l.orderedInsert r x) = x :: classOf r a l := by
  induction l with
  | nil => simp [classOf, h]
  | cons b l ih =>
    rw [List.orderedInsert_cons]
    by_cases hxb : r x b
    · rw [if_pos hxb, classOf_cons_of_equiv h]
    · have hab : ¬ (r a b ∧ r b a) := fun hab => hxb (IsTrans.trans _ _ _ h.2 hab.1)
      rw [if_neg hxb, classOf_cons_of_not hab, classOf_cons_of_not hab, ih]

theorem classOf_orderedInsert_of_not {a x : α} (h : ¬ (r a x ∧ r x a)) (l : List α) :
    classOf r a (l.orderedInsert r x) = classOf r a l := by
  induction l with
  | nil => exact classOf_cons_of_not h
  | cons b l ih =>
    rw [List.orderedInsert_cons]
    by_cases hxb : r x b
    · rw [if_pos hxb, classOf_cons_of_not h]
    · rw [if_neg hxb]
      by_cases hab : r a b ∧ r b a
      · rw [classOf_cons_of_equiv hab, classOf_cons_of_equiv hab, ih]
      · rw [classOf_cons_of_not hab, classOf_cons_of_not hab, ih]

/-- Inserting one after the other reverses each class. -/
theorem classOf_insertAll [IsTrans α r] (a : α) (l xs : List α) :
    classOf r a (insertAll r l xs) = (classOf r a xs).reverse ++ classOf r a l := by
  induction xs generalizing l with
  | nil => simp [insertAll, classOf]
  | cons x xs ih =>
    have hstep : insertAll r l (x :: xs) = insertAll r (l.orderedInsert r x) xs := rfl
    rw [hstep, ih]
    by_cases h : r a x ∧ r x a
    · rw [classOf_orderedInsert_of_equiv h, classOf_cons_of_equiv h]
      simp
    · rw [classOf_orderedInsert_of_not h, classOf_cons_of_not h]

theorem insertAll_perm (l xs : List α) : (insertAll r l xs).Perm (xs ++ l) := by
  induction xs generalizing l with
  | nil => exact List.Perm.refl _
  | cons x xs ih =>
    have hmid : (xs ++ x :: l).Perm (x :: xs ++ l) := List.perm_middle
    exact (ih (l.orderedInsert r x)).trans
      (((List.perm_orderedInsert r x l).append_left xs).trans hmid)

theorem insertAll_sorted [Std.Total r] [IsTrans α r] {l : List α} (h : l.Pairwise r) (xs : List α) :
    (insertAll r l xs).Pairwise r := by
  induction xs generalizing l with
  | nil => exact h
  | cons x xs ih => exact ih (h.orderedInsert x l)

/-- **A sorted list is determined by its classes.** -/
theorem eq_of_classOf_eq [Std.Refl r] :
    ∀ {l l' : List α}, l.Pairwise r → l'.Pairwise r → (∀ a, classOf r a l = classOf r a l') →
      l = l' := by
  intro l
  induction l with
  | nil =>
    intro l' _ _ h
    cases l' with
    | nil => rfl
    | cons b l' =>
      have hb : r b b := Std.Refl.refl b
      have := h b
      rw [classOf_cons_of_equiv ⟨hb, hb⟩] at this
      exact absurd this (by simp [classOf])
  | cons b l ih =>
    intro l' hl hl' h
    have hb : r b b := Std.Refl.refl b
    cases l' with
    | nil =>
      have := h b
      rw [classOf_cons_of_equiv ⟨hb, hb⟩] at this
      exact absurd this (by simp [classOf])
    | cons c l' =>
      -- the two heads are least elements of the same list, so they begin the same class
      have hc : r c c := Std.Refl.refl c
      have hbc : r b c := by
        have hmem : c ∈ classOf r c (b :: l) := by
          rw [h c, classOf_cons_of_equiv ⟨hc, hc⟩]
          exact List.mem_cons_self ..
        rcases List.mem_cons.mp (mem_classOf.mp hmem).1 with rfl | hin
        · exact hc
        · exact List.rel_of_pairwise_cons hl hin
      have hcb : r c b := by
        have hmem : b ∈ classOf r b (c :: l') := by
          rw [← h b, classOf_cons_of_equiv ⟨hb, hb⟩]
          exact List.mem_cons_self ..
        rcases List.mem_cons.mp (mem_classOf.mp hmem).1 with rfl | hin
        · exact hb
        · exact List.rel_of_pairwise_cons hl' hin
      have heq := h b
      rw [classOf_cons_of_equiv ⟨hb, hb⟩, classOf_cons_of_equiv ⟨hbc, hcb⟩] at heq
      obtain ⟨rfl, _⟩ := List.cons.inj heq
      refine congrArg (b :: ·) (ih hl.of_cons hl'.of_cons (fun a => ?_))
      have ha := h a
      by_cases hab : r a b ∧ r b a
      · rw [classOf_cons_of_equiv hab, classOf_cons_of_equiv hab] at ha
        exact (List.cons.inj ha).2
      · rw [classOf_cons_of_not hab, classOf_cons_of_not hab] at ha
        exact ha

/-- Inserting a sorted list into the empty one changes it, unless its classes are palindromes. -/
theorem insertAll_insertAll_eq_iff [Std.Refl r] [Std.Total r] [IsTrans α r] (xs : List α) :
    insertAll r [] (insertAll r [] xs) = insertAll r [] xs ↔
      ∀ a, (classOf r a xs).reverse = classOf r a xs := by
  have hclass : ∀ a xs, classOf r a (insertAll r [] xs) = (classOf r a xs).reverse := by
    intro a xs
    rw [classOf_insertAll]
    exact List.append_nil _
  refine ⟨?_, ?_⟩
  · intro h a
    have ha := congrArg (classOf r a) h
    rw [hclass, hclass, List.reverse_reverse] at ha
    exact ha.symm
  · intro h
    refine eq_of_classOf_eq (insertAll_sorted List.Pairwise.nil _)
      (insertAll_sorted List.Pairwise.nil _) (fun a => ?_)
    rw [hclass, hclass, h, h]

end Classes

end Kmod.Sorting
