import Kmod.Base
import Kmod.Lib.SortedTable

/-!
# Comparing strings

`strcmp` compares byte by byte, as unsigned characters. Only its sign is documented; here
it is the difference of the first bytes that differ, with the end of a string before any
byte.
-/

namespace Kmod

open SortedTable

/-- `strcmp`. -/
def strcmp : CStr → CStr → Int
  | [], [] => 0
  | [], _ :: _ => -1
  | _ :: _, [] => 1
  | a :: s, b :: t => if a = b then strcmp s t else (a.toNat : Int) - b.toNat

theorem strcmp_cons_self (c : UInt8) (s t : CStr) : strcmp (c :: s) (c :: t) = strcmp s t := by
  rw [strcmp, if_pos rfl]

theorem toNat_ne {a b : UInt8} (h : a ≠ b) : a.toNat ≠ b.toNat :=
    fun heq => h (UInt8.toNat_inj.mp heq)

theorem strcmp_cons_of_ne {a b : UInt8} (h : a ≠ b) (s t : CStr) :
    strcmp (a :: s) (b :: t) = (a.toNat : Int) - b.toNat := by
  rw [strcmp, if_neg h]

theorem strcmp_eq_zero_iff (s t : CStr) : strcmp s t = 0 ↔ s = t := by
  induction s generalizing t with
  | nil => cases t <;> simp [strcmp]
  | cons a s ih =>
    cases t with
    | nil => simp [strcmp]
    | cons b t =>
      by_cases hab : a = b
      · subst hab
        rw [strcmp_cons_self, ih t]
        simp
      · have hne := toNat_ne hab
        rw [strcmp_cons_of_ne hab, List.cons.injEq]
        refine ⟨fun h => by omega, fun h => absurd h.1 hab⟩

theorem strcmp_neg_iff (s t : CStr) : strcmp s t < 0 ↔ 0 < strcmp t s := by
  induction s generalizing t with
  | nil => cases t <;> simp [strcmp]
  | cons a s ih =>
    cases t with
    | nil => simp [strcmp]
    | cons b t =>
      by_cases hab : a = b
      · subst hab
        rw [strcmp_cons_self, strcmp_cons_self, ih t]
      · rw [strcmp_cons_of_ne hab, strcmp_cons_of_ne (Ne.symm hab)]
        omega

theorem strcmp_trans (s t u : CStr) (h : strcmp s t < 0) (h' : strcmp t u < 0) :
    strcmp s u < 0 := by
  induction s generalizing t u with
  | nil =>
    cases u with
    | nil => cases t <;> simp [strcmp] at h h'
    | cons c u => simp [strcmp]
  | cons a s ih =>
    cases t with
    | nil => simp [strcmp] at h
    | cons b t =>
      cases u with
      | nil => simp [strcmp] at h'
      | cons c u =>
        -- the first bytes decide, unless two of them are the same
        by_cases hab : a = b
        · subst hab
          rw [strcmp_cons_self] at h
          by_cases hac : a = c
          · subst hac
            rw [strcmp_cons_self] at h' ⊢
            exact ih t u h h'
          · rw [strcmp_cons_of_ne hac] at h' ⊢
            exact h'
        · rw [strcmp_cons_of_ne hab] at h
          by_cases hbc : b = c
          · subst hbc
            rw [strcmp_cons_of_ne hab]
            exact h
          · rw [strcmp_cons_of_ne hbc] at h'
            have hac : a ≠ c := by
              rintro rfl
              omega
            rw [strcmp_cons_of_ne hac]
            omega

/-- `strcmp` orders strings linearly. -/
theorem strcmp_comparison : Comparison strcmp :=
  ⟨strcmp_eq_zero_iff, strcmp_neg_iff, strcmp_trans⟩

end Kmod
