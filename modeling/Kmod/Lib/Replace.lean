import Mathlib.Data.List.Infix

/-!
# Replacing a word

A text is searched for a word; each occurrence is replaced, either all of them in one
pass from the left to the right (`replaceAll`), or the first one, and then the first one of
the text that comes out, for as long as there is one (`rescan`).

The second way looks at what it has inserted, the first does not. They have the same
result exactly if the result of the first does not contain the word
(`rescan_eq_iff`). The word is assumed to be such that two occurrences of it cannot
overlap: its first letter occurs in it only once.
-/

namespace Kmod.Replace

variable {α : Type} [DecidableEq α]

/-- Where a word occurs first in a text. -/
def findWord (word : List α) : List α → Option Nat
  | [] => if word = [] then some 0 else none
  | a :: text =>
    if word.isPrefixOf (a :: text) then some 0 else (findWord word text).map (· + 1)

/-- `replaceAll`, for a text in which the first `skip` letters belong to a replaced word. -/
def replaceFrom (word new : List α) : Nat → List α → List α
  | _, [] => []
  | skip + 1, _ :: text => replaceFrom word new skip text
  | 0, a :: text =>
    if word.isPrefixOf (a :: text) then new ++ replaceFrom word new (word.length - 1) text
    else a :: replaceFrom word new 0 text

/-- The text with each occurrence of a word replaced, from the left to the right. -/
def replaceAll (word new text : List α) : List α := replaceFrom word new 0 text

/-- Replacing the first occurrence, as long as there is one, in at most `fuel - 1` rounds. -/
def rescan (word new : List α) : Nat → List α → Option (List α)
  | 0, _ => none
  | fuel + 1, text =>
    match findWord word text with
    | none => some text
    | some i => rescan word new fuel (text.take i ++ (new ++ text.drop (i + word.length)))

variable {word new : List α}

/-! ## The first occurrence -/

theorem findWord_eq_none {text : List α} : findWord word text = none ↔ ¬ word <:+: text := by
  induction text with
  | nil =>
    unfold findWord
    rw [List.infix_nil]
    split <;> simp_all
  | cons a text ih =>
    unfold findWord
    rw [List.infix_cons_iff, not_or]
    split
    · next h => simp [List.isPrefixOf_iff_prefix.1 h]
    · next h =>
      rw [Option.map_eq_none_iff, ih]
      exact (and_iff_right (fun hp => h (List.isPrefixOf_iff_prefix.2 hp))).symm

/-- A text with an occurrence is divided by the first one. -/
theorem eq_of_findWord (hword : word ≠ []) {text : List α} {i : Nat}
    (h : findWord word text = some i) :
    ∃ before after, text = before ++ (word ++ after) ∧ before.length = i ∧ ¬ word <:+: before := by
  induction text generalizing i with
  | nil =>
    unfold findWord at h
    rw [if_neg hword] at h
    cases h
  | cons a text ih =>
    unfold findWord at h
    split at h
    · next hp =>
      cases h
      obtain ⟨after, hafter⟩ := List.isPrefixOf_iff_prefix.1 hp
      exact ⟨[], after, hafter.symm, rfl, fun hw => hword (List.infix_nil.1 hw)⟩
    · next hp =>
      obtain ⟨j, hj, rfl⟩ := Option.map_eq_some_iff.1 h
      obtain ⟨before, after, rfl, rfl, hbefore⟩ := ih hj
      refine ⟨a :: before, after, rfl, rfl, fun hw => ?_⟩
      rcases List.infix_cons_iff.1 hw with hw | hw
      · have hlong := hw.trans (List.prefix_append (a :: before) (word ++ after))
        exact hp (List.isPrefixOf_iff_prefix.2 hlong)
      · exact hbefore hw

/--
**An occurrence behind a text without one is the first.** An earlier one would have to
overlap it, and then the first letter of the word occurred in the word a second time.
-/
theorem findWord_append {x : α} {t : List α} (hx : x ∉ t) {before : List α}
    (h : ¬ x :: t <:+: before) (after : List α) :
    findWord (x :: t) (before ++ (x :: t ++ after)) = some before.length := by
  induction before with
  | nil =>
    have hp : (x :: t).isPrefixOf (x :: t ++ after) :=
      List.isPrefixOf_iff_prefix.2 (List.prefix_append _ _)
    exact if_pos hp
  | cons a before ih =>
    rw [List.infix_cons_iff, not_or] at h
    have hp : ¬ (x :: t).isPrefixOf (a :: (before ++ (x :: t ++ after))) := by
      intro hp
      have hp := List.isPrefixOf_iff_prefix.1 hp
      rcases Nat.lt_or_ge before.length t.length with hlt | hge
      · obtain ⟨-, ht⟩ := List.cons_prefix_cons.1 hp
        have hbx : before ++ [x] <+: before ++ (x :: t ++ after) :=
          (List.prefix_append_right_inj before).2 ⟨t ++ after, rfl⟩
        have hlong : before ++ [x] <+: t :=
          List.prefix_of_prefix_length_le hbx ht (by simp; omega)
        exact hx (hlong.subset (by simp))
      · exact h.1 (List.prefix_of_prefix_length_le hp (List.prefix_append (a :: before) _)
          (by simpa using hge))
    rw [List.cons_append, findWord, if_neg hp, ih h.2]
    rfl

/-! ## Replacing all occurrences -/

theorem replaceAll_of_absent {text : List α} (h : ¬ word <:+: text) :
    replaceAll word new text = text := by
  unfold replaceAll
  induction text with
  | nil => rfl
  | cons a text ih =>
    rw [List.infix_cons_iff, not_or] at h
    rw [replaceFrom, if_neg (fun hp => h.1 (List.isPrefixOf_iff_prefix.1 hp)), ih h.2]

theorem replaceFrom_skip (skipped text : List α) :
    replaceFrom word new skipped.length (skipped ++ text) = replaceAll word new text := by
  induction skipped with
  | nil => rfl
  | cons a skipped ih => exact ih

/-- Up to the first occurrence the text stays, and behind it the replacing goes on. -/
theorem replaceAll_append {x : α} {t : List α} (hx : x ∉ t) {before : List α}
    (h : ¬ x :: t <:+: before) (after : List α) :
    replaceAll (x :: t) new (before ++ (x :: t ++ after))
      = before ++ (new ++ replaceAll (x :: t) new after) := by
  induction before with
  | nil =>
    have hp : (x :: t).isPrefixOf (x :: (t ++ after)) :=
      List.isPrefixOf_iff_prefix.2 (List.prefix_append _ _)
    show replaceFrom (x :: t) new 0 (x :: (t ++ after)) = _
    rw [replaceFrom, if_pos hp]
    exact congrArg (new ++ ·) (replaceFrom_skip t after)
  | cons a before ih =>
    have hfirst := findWord_append hx h after
    rw [List.infix_cons_iff, not_or] at h
    rw [List.cons_append, findWord] at hfirst
    have hp : ¬ (x :: t).isPrefixOf (a :: (before ++ (x :: t ++ after))) := by
      intro hp
      rw [if_pos hp] at hfirst
      cases hfirst
    show replaceFrom (x :: t) new 0 (a :: (before ++ (x :: t ++ after))) = _
    rw [replaceFrom, if_neg hp]
    exact congrArg (a :: ·) (ih h.2)

/-! ## Replacing the first occurrence again and again -/

theorem rescan_of_absent {text : List α} (h : ¬ word <:+: text) (fuel : Nat) :
    rescan word new (fuel + 1) text = some text := by
  rw [rescan, findWord_eq_none.2 h]

theorem rescan_append {x : α} {t : List α} (hx : x ∉ t) {before : List α}
    (h : ¬ x :: t <:+: before) (after : List α) (fuel : Nat) :
    rescan (x :: t) new (fuel + 1) (before ++ (x :: t ++ after))
      = rescan (x :: t) new fuel (before ++ (new ++ after)) := by
  rw [rescan, findWord_append hx h after]
  show rescan (x :: t) new fuel ((before ++ (x :: t ++ after)).take before.length
    ++ (new ++ (before ++ (x :: t ++ after)).drop (before.length + (x :: t).length))) = _
  rw [List.take_left, ← List.drop_drop, List.drop_left, List.drop_left]

/-- What comes out has no occurrence. -/
theorem absent_of_rescan {fuel : Nat} :
    ∀ {text res : List α}, rescan word new fuel text = some res → ¬ word <:+: res := by
  induction fuel with
  | zero =>
    intro text res h
    cases h
  | succ fuel ih =>
    intro text res h
    unfold rescan at h
    split at h
    · next hnone =>
      cases h
      exact findWord_eq_none.1 hnone
    · exact ih h

/-- A letter of what comes out is one of the text or of what was inserted. -/
theorem mem_of_rescan {c : α} {fuel : Nat} :
    ∀ {text res : List α}, rescan word new fuel text = some res → c ∈ res → c ∈ text ∨ c ∈ new := by
  induction fuel with
  | zero =>
    intro text res h
    cases h
  | succ fuel ih =>
    intro text res h hc
    unfold rescan at h
    split at h
    · cases h
      exact .inl hc
    · rcases ih h hc with hmem | hmem
      · rcases List.mem_append.1 hmem with hmem | hmem
        · exact .inl (List.mem_of_mem_take hmem)
        · rcases List.mem_append.1 hmem with hmem | hmem
          · exact .inr hmem
          · exact .inl (List.mem_of_mem_drop hmem)
      · exact .inr hmem

/--
The rounds, from one to the next: `done` is the part of the result that has been
reached, and the rest of the text is as it was.
-/
theorem rescan_done {x : α} {t : List α} (hx : x ∉ t) (fuel : Nat) :
    ∀ done rest : List α, rest.length < fuel →
      ¬ x :: t <:+: done ++ replaceAll (x :: t) new rest →
      rescan (x :: t) new fuel (done ++ rest) = some (done ++ replaceAll (x :: t) new rest) := by
  induction fuel with
  | zero =>
    intro done rest hfuel
    exact absurd hfuel (Nat.not_lt_zero _)
  | succ fuel ih =>
    intro done rest hfuel h
    cases hfind : findWord (x :: t) rest with
    | none =>
      rw [replaceAll_of_absent (findWord_eq_none.1 hfind)] at h ⊢
      exact rescan_of_absent h fuel
    | some i =>
      obtain ⟨before, after, rfl, -, hbefore⟩ := eq_of_findWord (List.cons_ne_nil x t) hfind
      rw [replaceAll_append hx hbefore] at h ⊢
      have hdone : ¬ x :: t <:+: done ++ before := by
        intro hin
        refine h (hin.trans ⟨[], new ++ replaceAll (x :: t) new after, ?_⟩)
        simp
      have hshort : after.length < fuel := by
        simp only [List.length_append, List.length_cons] at hfuel
        omega
      have hnext := ih (done ++ before ++ new) after hshort (by simpa using h)
      rw [← List.append_assoc, rescan_append hx hdone]
      simpa using hnext

/--
**When rescanning replaces once.** The rounds come to an end with each occurrence of
the text replaced once if and only if no occurrence is made by the replacing.
-/
theorem rescan_eq_iff {x : α} {t : List α} (hx : x ∉ t) (text : List α) :
    (∃ bound, ∀ fuel ≥ bound,
        rescan (x :: t) new fuel text = some (replaceAll (x :: t) new text)) ↔
      ¬ x :: t <:+: replaceAll (x :: t) new text := by
  constructor
  · rintro ⟨bound, h⟩
    exact absent_of_rescan (h bound (Nat.le_refl _))
  · intro h
    exact ⟨text.length + 1, fun fuel hfuel => rescan_done hx fuel [] text hfuel h⟩

/-- If the new text has the word itself, then there is always an occurrence. -/
theorem rescan_endless (hnew : word <:+: new) (fuel : Nat) :
    ∀ text : List α, word <:+: text → rescan word new fuel text = none := by
  induction fuel with
  | zero =>
    intro text _
    rfl
  | succ fuel ih =>
    intro text htext
    unfold rescan
    split
    · next hnone => exact absurd htext (findWord_eq_none.1 hnone)
    · exact ih _ (hnew.trans ⟨_, _, List.append_assoc _ _ _⟩)

end Kmod.Replace
