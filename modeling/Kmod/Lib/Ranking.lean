import Mathlib.Data.List.Induction

/-!
# Ranks by number and ranks by place

A list of entries can rank things in two ways. Read from the lowest entry to the highest
one, with numbers that grow, the rank of a thing is the number of the last entry that
applies to it. Read the other way, it is the place of the first entry that applies.

Both order things the same way: a larger number is an earlier place.
-/

namespace Kmod.Ranking

variable {α : Type*}

/-- The first place depends on what applies to the entries of the list only. -/
theorem findIdx_congr {l : List α} {p q : α → Bool} (h : ∀ x ∈ l, p x = q x) :
    l.findIdx p = l.findIdx q := by
  refine Nat.le_antisymm (List.findIdx_le_findIdx ?_) (List.findIdx_le_findIdx ?_)
  · intro x hx hq
    rw [h x hx]
    exact hq
  · intro x hx hp
    rw [← h x hx]
    exact hp

/-- The number of the last entry that applies, or `init`. -/
def lastNum (p : α → Bool) (l : List (Int × α)) (init : Int) : Int :=
  l.foldl (fun n x => if p x.2 then x.1 else n) init

/-- The numbers grow, and none is negative. -/
structure Numbered (l : List (Int × α)) : Prop where
  pairwise : l.Pairwise (fun x y => x.1 < y.1)
  nonneg : ∀ x ∈ l, 0 ≤ x.1

theorem lastNum_cons (p : α → Bool) (i : Int) (a : α) (l : List (Int × α)) (init : Int) :
    lastNum p ((i, a) :: l) init = lastNum p l (if p a then i else init) := rfl

theorem lastNum_append (p : α → Bool) (l₁ l₂ : List (Int × α)) (init : Int) :
    lastNum p (l₁ ++ l₂) init = lastNum p l₂ (lastNum p l₁ init) := by
  unfold lastNum
  exact List.foldl_append

theorem lastNum_eq_or_mem (p : α → Bool) (l : List (Int × α)) :
    (lastNum p l (-1) = -1 ∧ ∀ x ∈ l, p x.2 = false) ∨
      ∃ x ∈ l, p x.2 = true ∧ lastNum p l (-1) = x.1 := by
  induction l using List.reverseRecOn with
  | nil => exact .inl ⟨rfl, by simp⟩
  | append_singleton l x ih =>
    rw [lastNum_append]
    cases hx : p x.2 with
    | true => exact .inr ⟨x, by simp, hx, by simp [lastNum, hx]⟩
    | false =>
      have hlast : lastNum p [x] (lastNum p l (-1)) = lastNum p l (-1) := by simp [lastNum, hx]
      rw [hlast]
      rcases ih with ⟨hnone, hall⟩ | ⟨y, hy, hpy, hnum⟩
      · refine .inl ⟨hnone, ?_⟩
        intro y hy
        rcases List.mem_append.mp hy with hy | hy
        · exact hall y hy
        · rw [List.mem_singleton.mp hy]
          exact hx
      · exact .inr ⟨y, List.mem_append_left _ hy, hpy, hnum⟩

/-- There is a number just if an entry applies. -/
theorem lastNum_neg_iff {l : List (Int × α)} (h : Numbered l) (p : α → Bool) :
    lastNum p l (-1) < 0 ↔ (l.map Prod.snd).reverse.any p = false := by
  rw [List.any_reverse, List.any_map, List.any_eq_false]
  rcases lastNum_eq_or_mem p l with ⟨hnone, hall⟩ | ⟨x, hx, hp, hnum⟩
  · rw [hnone]
    refine ⟨fun _ x hx => ?_, fun _ => by decide⟩
    simp [hall x hx]
  · rw [hnum]
    refine ⟨fun hneg => absurd (h.nonneg x hx) (by omega), fun hall => ?_⟩
    exact absurd hp (hall x hx)

/-- **A larger number is an earlier place.** -/
theorem lastNum_le_iff {l : List (Int × α)} (h : Numbered l) (p q : α → Bool) :
    lastNum p l (-1) ≤ lastNum q l (-1) ↔
      (l.map Prod.snd).reverse.findIdx q ≤ (l.map Prod.snd).reverse.findIdx p := by
  induction l using List.reverseRecOn with
  | nil => simp [lastNum]
  | append_singleton l x ih =>
    have hl : Numbered l := by
      refine ⟨(List.pairwise_append.mp h.pairwise).1, ?_⟩
      intro y hy
      exact h.nonneg y (List.mem_append_left _ hy)
    have hbelow : ∀ r, lastNum r l (-1) < x.1 := by
      intro r
      have hx := h.nonneg x (by simp)
      rcases lastNum_eq_or_mem r l with ⟨hnone, _⟩ | ⟨y, hy, _, hnum⟩
      · omega
      · rw [hnum]
        exact (List.pairwise_append.mp h.pairwise).2.2 y hy x (by simp)
    have hstep : ∀ r : α → Bool,
        lastNum r (l ++ [x]) (-1) = if r x.2 then x.1 else lastNum r l (-1) := by
      intro r
      rw [lastNum_append]
      rfl
    have hplace : ∀ r : α → Bool, ((l ++ [x]).map Prod.snd).reverse.findIdx r =
        if r x.2 then 0 else (l.map Prod.snd).reverse.findIdx r + 1 := by
      intro r
      rw [List.map_append, List.reverse_append]
      cases hr : r x.2 <;> simp [List.findIdx_cons, hr]
    have hp := hbelow p
    have hq := hbelow q
    rw [hstep, hstep, hplace, hplace]
    cases p x.2 with
    | true =>
      cases q x.2 with
      | true => simp
      | false => simp [hq]
    | false =>
      cases q x.2 with
      | true => simpa using Int.le_of_lt hp
      | false => simpa using ih hl

end Kmod.Ranking
