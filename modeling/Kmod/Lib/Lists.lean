import Mathlib.Data.List.Basic
import Mathlib.Data.List.Nodup
import Mathlib.Data.List.Count
import Mathlib.Data.List.Induction
import Mathlib.Data.List.Perm.Subperm
import Mathlib.Data.List.TakeWhile
import Mathlib.Data.List.Chain

/-!
# Duplicate-free lists

Counting in a duplicate-free list, and lists read as rings. A circular list whose
entry point moves to the successor of whatever is removed last is, between two
removals, an ordinary list read from the entry point; what a whole series of
removals leaves is described by `removeAll_eq`.
-/

namespace Kmod.Lists

variable {α : Type*} [DecidableEq α]

/-! ## Counting -/

/-- In a duplicate-free list, leaving out one element lowers a count by what it contributed. -/
theorem countP_ne_add {l : List α} {a : α} (hnd : l.Nodup) (ha : a ∈ l) (p : α → Bool) :
    l.countP (fun x => decide (x ≠ a) && p x) + (if p a then 1 else 0) = l.countP p := by
  induction l with
  | nil => exact absurd ha (by simp)
  | cons b l ih =>
    rw [List.nodup_cons] at hnd
    by_cases hab : b = a
    · subst hab
      have hrest : l.countP (fun x => decide (x ≠ b) && p x) = l.countP p := by
        refine List.countP_congr (fun x hx => ?_)
        have : x ≠ b := fun he => hnd.1 (he ▸ hx)
        simp [this]
      rw [List.countP_cons, List.countP_cons, hrest]
      simp
    · have hal : a ∈ l := (List.mem_cons.mp ha).resolve_left (fun he => hab he.symm)
      have := ih hnd.2 hal
      have hb : (decide (b ≠ a) && p b) = p b := by simp [hab]
      rw [List.countP_cons, List.countP_cons, hb]
      omega

/-- Pairwise different numbers below `n` are at most `n` many. -/
theorem length_le_of_nodup_lt {l : List Nat} {n : Nat} (hnd : l.Nodup) (hlt : ∀ i ∈ l, i < n) :
    l.length ≤ n := by
  have hsub : l ⊆ List.range n := fun i hi => List.mem_range.mpr (hlt i hi)
  simpa using (hnd.subperm hsub).length_le

/-! ## Rings -/

/-- Remove the first `x` of a ring read from its entry point; its successor is the new entry. -/
def ringRemove (l : List α) (x : α) : List α :=
  match l.dropWhile (· ≠ x) with
  | [] => l
  | _ :: post => post ++ l.takeWhile (· ≠ x)

theorem ringRemove_of_notMem {l : List α} {x : α} (h : x ∉ l) : ringRemove l x = l := by
  have : l.dropWhile (· ≠ x) = [] := by
    rw [List.dropWhile_eq_nil_iff]
    intro y hy
    have : y ≠ x := fun he => h (he ▸ hy)
    simpa using this
  unfold ringRemove
  rw [this]

theorem ringRemove_append {a b : List α} {x : α} (h : x ∉ a) :
    ringRemove (a ++ x :: b) x = b ++ a := by
  have hp : ∀ y ∈ a, decide (y ≠ x) = true := by
    intro y hy
    have : y ≠ x := fun he => h (he ▸ hy)
    simpa using this
  unfold ringRemove
  rw [List.dropWhile_append_of_pos hp, List.takeWhile_append_of_pos hp]
  simp

/-- Either `x` does not occur, or the ring is cut at its first occurrence. -/
theorem ringRemove_cases (l : List α) (x : α) :
    (x ∉ l ∧ ringRemove l x = l) ∨
      ∃ a b, l = a ++ x :: b ∧ x ∉ a ∧ ringRemove l x = b ++ a := by
  by_cases h : x ∈ l
  · obtain ⟨a, b, rfl, hxa⟩ := List.eq_append_cons_of_mem h
    exact .inr ⟨a, b, rfl, hxa, ringRemove_append hxa⟩
  · exact .inl ⟨h, ringRemove_of_notMem h⟩

theorem ringRemove_subset {l : List α} {x : α} : ringRemove l x ⊆ l := by
  rcases ringRemove_cases l x with ⟨_, h⟩ | ⟨a, b, rfl, _, h⟩
  · rw [h]; exact List.Subset.refl _
  · rw [h]
    intro y hy
    rcases List.mem_append.mp hy with hy | hy <;> simp [hy]

theorem mem_ringRemove_of_ne {l : List α} {x y : α} (hy : y ∈ l) (hne : y ≠ x) :
    y ∈ ringRemove l x := by
  rcases ringRemove_cases l x with ⟨_, h⟩ | ⟨a, b, rfl, _, h⟩
  · rw [h]; exact hy
  · rw [h]
    simp only [List.mem_append, List.mem_cons, hne, false_or] at hy ⊢
    exact hy.symm

theorem nodup_ringRemove {l : List α} {x : α} (h : l.Nodup) : (ringRemove l x).Nodup := by
  rcases ringRemove_cases l x with ⟨_, he⟩ | ⟨a, b, rfl, _, he⟩
  · rw [he]; exact h
  · rw [he]
    have := List.nodup_middle.mp h
    exact List.nodup_append_comm.mp (List.nodup_cons.mp this).2

theorem notMem_ringRemove {l : List α} {x : α} (h : l.Nodup) : x ∉ ringRemove l x := by
  rcases ringRemove_cases l x with ⟨hx, he⟩ | ⟨a, b, rfl, hxa, he⟩
  · rw [he]; exact hx
  · rw [he]
    have := (List.nodup_cons.mp (List.nodup_middle.mp h)).1
    simp only [List.mem_append, not_or] at this ⊢
    exact this.symm

theorem length_ringRemove_le (l : List α) (x : α) : (ringRemove l x).length ≤ l.length := by
  rcases ringRemove_cases l x with ⟨_, he⟩ | ⟨a, b, rfl, _, he⟩
  · exact Nat.le_of_eq (by rw [he])
  · rw [he]
    simp only [List.length_append, List.length_cons]
    omega

/-- A series of removals. -/
def removeAll (l ys : List α) : List α := ys.foldl ringRemove l

@[simp] theorem removeAll_nil (l : List α) : removeAll l [] = l := rfl

theorem removeAll_append (l ys zs : List α) :
    removeAll l (ys ++ zs) = removeAll (removeAll l ys) zs := List.foldl_append ..

theorem removeAll_subset : ∀ (ys l : List α), removeAll l ys ⊆ l
  | [], _ => List.Subset.refl _
  | _ :: ys, _ => List.Subset.trans (removeAll_subset ys _) ringRemove_subset

theorem length_removeAll_le : ∀ (ys l : List α), (removeAll l ys).length ≤ l.length
  | [], _ => Nat.le_refl _
  | y :: ys, l => Nat.le_trans (length_removeAll_le ys _) (length_ringRemove_le l y)

theorem nodup_removeAll {l : List α} (h : l.Nodup) : ∀ ys : List α, (removeAll l ys).Nodup := by
  intro ys
  induction ys generalizing l with
  | nil => exact h
  | cons y ys ih => exact ih (nodup_ringRemove h)

/-- In a duplicate-free ring a series of removals leaves exactly the other elements. -/
theorem mem_removeAll {l : List α} (h : l.Nodup) {x : α} {ys : List α} :
    x ∈ removeAll l ys ↔ x ∈ l ∧ x ∉ ys := by
  induction ys generalizing l with
  | nil => simp
  | cons y ys ih =>
    rw [show removeAll l (y :: ys) = removeAll (ringRemove l y) ys from rfl,
      ih (nodup_ringRemove h), List.mem_cons, not_or]
    refine ⟨?_, ?_⟩
    · rintro ⟨hx, hys⟩
      exact ⟨ringRemove_subset hx, fun he => notMem_ringRemove h (he ▸ hx), hys⟩
    · rintro ⟨hx, hne, hys⟩
      exact ⟨mem_ringRemove_of_ne hx hne, hys⟩

/-- The elements of `l` that are not in `ys`. -/
def without (l ys : List α) : List α := l.filter (fun x => x ∉ ys)

theorem without_append (a b ys : List α) : without (a ++ b) ys = without a ys ++ without b ys :=
  List.filter_append ..

theorem without_cons_of_mem {x : α} {l ys : List α} (h : x ∈ ys) :
    without (x :: l) ys = without l ys := by simp [without, h]

theorem without_cons_of_notMem {x : α} {l ys : List α} (h : x ∉ ys) :
    without (x :: l) ys = x :: without l ys := by simp [without, h]

theorem without_concat {y : α} {l ys : List α} (h : y ∉ l ∨ y ∈ ys) :
    without l (ys ++ [y]) = without l ys := by
  refine List.filter_congr (fun x hx => ?_)
  have : x = y → x ∈ ys := by
    rintro rfl
    exact h.resolve_left (fun hn => hn hx)
  simp only [List.mem_append, List.mem_singleton, not_or]
  by_cases hxy : x ∈ ys
  · simp [hxy]
  · have hne : x ≠ y := fun he => hxy (this he)
    simp [hxy, hne]

theorem notMem_without {x : α} {l ys : List α} (h : x ∉ l) : x ∉ without l ys :=
  fun hin => h (List.mem_of_mem_filter hin)

/--
**What a series of removals leaves, in order.** Either nothing was removed, or
the ring is read from the successor of one removed element, the last one.
-/
theorem removeAll_eq {l : List α} (h : l.Nodup) (ys : List α) :
    removeAll l ys = without l ys ∨
      ∃ a y b, l = a ++ y :: b ∧ y ∈ ys ∧ removeAll l ys = without b ys ++ without a ys := by
  induction ys using List.reverseRecOn with
  | nil => exact .inl (by simp [without])
  | append_singleton ys y ih =>
    have hstep : removeAll l (ys ++ [y]) = ringRemove (removeAll l ys) y := removeAll_append ..
    by_cases hy : y ∈ l ∧ y ∉ ys
    · -- `y` is really removed: it becomes the point the ring is cut at
      obtain ⟨a, b, rfl, hya⟩ := List.eq_append_cons_of_mem hy.1
      have hyb : y ∉ b := by
        have := (List.nodup_cons.mp (List.nodup_middle.mp h)).1
        exact fun hin => this (List.mem_append_right _ hin)
      refine .inr ⟨a, y, b, rfl, by simp, ?_⟩
      rw [hstep, without_concat (.inl hya), without_concat (.inl hyb)]
      rcases ih with ih | ⟨a2, z, b2, hl, hz, ih⟩
      · rw [ih, without_append, without_cons_of_notMem hy.2, ringRemove_append (notMem_without hya)]
      · have hzy : z ≠ y := fun he => hy.2 (he ▸ hz)
        rcases List.append_eq_append_iff.mp hl with ⟨c, rfl, hc⟩ | ⟨c, rfl, hc⟩
        · -- the earlier cut lies behind `y`
          cases c with
          | nil => exact absurd (List.cons.inj hc).1.symm hzy
          | cons c0 c =>
            rw [List.cons_append] at hc
            obtain ⟨rfl, rfl⟩ := List.cons.inj hc
            rw [ih, without_append, without_cons_of_notMem hy.2, without_append,
              without_cons_of_mem hz, ← List.append_assoc, ringRemove_append]
            · simp [List.append_assoc]
            · simp only [List.mem_append, not_or]
              refine ⟨notMem_without (fun hin => hyb ?_), notMem_without hya⟩
              simp [hin]
        · -- the earlier cut lies before `y`
          cases c with
          | nil => exact absurd (List.cons.inj hc).1 hzy
          | cons c0 c =>
            rw [List.cons_append] at hc
            obtain ⟨rfl, rfl⟩ := List.cons.inj hc
            rw [ih, without_append, without_cons_of_notMem hy.2, List.append_assoc,
              List.cons_append, ringRemove_append]
            · simp [without_append, without_cons_of_mem hz, List.append_assoc]
            · exact notMem_without (fun hin => hya (by simp [hin]))
    · have hy' : y ∉ l ∨ y ∈ ys := by
        by_cases hin : y ∈ l
        · exact .inr (not_not.mp (fun hn => hy ⟨hin, hn⟩))
        · exact .inl hin
      have hnot : y ∉ removeAll l ys := fun hin => hy ((mem_removeAll h).mp hin)
      rw [hstep, ringRemove_of_notMem hnot, without_concat hy']
      rcases ih with ih | ⟨a, z, b, rfl, hz, ih⟩
      · exact .inl ih
      · refine .inr ⟨a, z, b, rfl, by simp [hz], ?_⟩
        have ha : y ∉ a ∨ y ∈ ys := hy'.imp_left (fun hn hin => hn (by simp [hin]))
        have hb : y ∉ b ∨ y ∈ ys := hy'.imp_left (fun hn hin => hn (by simp [hin]))
        rw [ih, without_concat ha, without_concat hb]

/-! ## Lists in which the good elements lead -/

section Led

variable {E : α → α → Prop} {Q : α → Prop}

/-- Every element is good or directly follows one it belongs with. -/
structure Led (E : α → α → Prop) (Q : α → Prop) (l : List α) : Prop where
  chain : l.IsChain (fun p x => Q x ∨ E p x)
  head : ∀ x ∈ l.head?, Q x

omit [DecidableEq α] in
theorem led_nil : Led E Q ([] : List α) := ⟨.nil, by simp⟩

omit [DecidableEq α] in
theorem Led.append {l₁ l₂ : List α} (h₁ : Led E Q l₁) (h₂ : Led E Q l₂) : Led E Q (l₁ ++ l₂) where
  chain := h₁.chain.append h₂.chain (fun _ _ y hy => .inl (h₂.head y hy))
  head := by
    cases l₁ with
    | nil => exact h₂.head
    | cons a l₁ => exact h₁.head

/--
Leaving out elements that take along whatever belongs with them: behind `p` the
list is still led, and by a good element if nothing left in belongs with `p`.
-/
theorem isChain_without (ys : List α) :
    ∀ {l : List α} {p : α}, (p :: l).IsChain (fun p x => Q x ∨ E p x) →
      (∀ q ∈ ys, ∀ x ∈ l, x ∉ ys → ¬ E q x) →
      (p :: without l ys).IsChain (fun p x => Q x ∨ E p x) ∧
        ((∀ x ∈ l, x ∉ ys → ¬ E p x) → ∀ x ∈ (without l ys).head?, Q x) := by
  intro l
  induction l with
  | nil => intro p h _; exact ⟨h, by simp [without]⟩
  | cons x l ih =>
    intro p h hout
    obtain ⟨hpx, hl⟩ := List.isChain_cons_cons.mp h
    have hout' : ∀ q ∈ ys, ∀ y ∈ l, y ∉ ys → ¬ E q y := fun q hq y hy =>
      hout q hq y (List.mem_cons_of_mem _ hy)
    obtain ⟨ihc, ihq⟩ := ih hl hout'
    -- what follows an element that is left out does not belong with it, so it is good
    by_cases hx : x ∈ ys
    · rw [without_cons_of_mem hx]
      have hq := ihq (hout' x hx)
      exact ⟨ihc.tail.cons (fun y hy => .inl (hq y hy)), fun _ => hq⟩
    · rw [without_cons_of_notMem hx]
      refine ⟨List.isChain_cons_cons.mpr ⟨hpx, ihc⟩, fun hp y hy => ?_⟩
      rw [List.head?_cons, Option.mem_some_iff] at hy
      exact hy ▸ hpx.resolve_right (hp x (List.mem_cons_self ..) hx)

/-- A series of removals that take along whatever belongs with them keeps a ring led. -/
theorem led_removeAll (ys : List α) {p : α} {l : List α} (hnd : l.Nodup) (h : Led E Q (p :: l))
    (hp : ∀ x ∈ l, x ∉ ys → ¬ E p x) (hout : ∀ q ∈ ys, ∀ x ∈ l, x ∉ ys → ¬ E q x) :
    Led E Q (removeAll l ys) := by
  rcases removeAll_eq hnd ys with he | ⟨a, y, b, rfl, hy, he⟩
  · obtain ⟨hc, hq⟩ := isChain_without ys h.chain hout
    rw [he]
    exact ⟨hc.tail, hq hp⟩
  · -- the part before the cut follows `p`, the part behind it follows `y`
    have ha : (p :: a).IsChain (fun p x => Q x ∨ E p x) :=
      (List.isChain_append.mp h.chain).1
    have hb : (y :: b).IsChain (fun p x => Q x ∨ E p x) :=
      (List.isChain_append.mp (show ((p :: a) ++ (y :: b)).IsChain _ from h.chain)).2.1
    obtain ⟨hca, hqa⟩ := isChain_without ys ha
      (fun q hq x hx => hout q hq x (List.mem_append_left _ hx))
    obtain ⟨hcb, hqb⟩ := isChain_without ys hb
      (fun q hq x hx => hout q hq x (by simp [hx]))
    rw [he]
    exact Led.append ⟨hcb.tail, hqb (fun x hx => hout y hy x (by simp [hx]))⟩
      ⟨hca.tail, hqa (fun x hx => hp x (List.mem_append_left _ hx))⟩

open Classical in
/--
If every class of an equivalence that occurs in `xs` has a good element in `xs`,
then `xs` can be put in an order that is led, beginning with any good element.
-/
theorem exists_led_perm (hE : Equivalence E) :
    ∀ (n : Nat) (xs : List α), xs.length ≤ n → (∀ x ∈ xs, ∃ q ∈ xs, E x q ∧ Q q) →
      ∀ a ∈ xs, Q a → ∃ l, (a :: l).Perm xs ∧ Led E Q (a :: l) := by
  intro n
  induction n with
  | zero =>
    intro xs hlen _ a ha _
    rw [List.length_eq_zero_iff.mp (Nat.le_zero.mp hlen)] at ha
    exact absurd ha (by simp)
  | succ n ih =>
    intro xs hlen hrep a ha hQ
    -- the class of `a` comes first, with `a` in front; the rest is arranged by induction
    let cls := xs.filter (fun x => E a x)
    let rest := xs.filter (fun x => !decide (E a x))
    have hacls : a ∈ cls := List.mem_filter.mpr ⟨ha, by simpa using hE.refl a⟩
    have hperm : (cls ++ rest).Perm xs := List.filter_append_perm _ xs
    have hclsE : ∀ x ∈ a :: cls.erase a, E a x := by
      intro x hx
      rcases List.mem_cons.mp hx with rfl | hx
      · exact hE.refl x
      · simpa using (List.mem_filter.mp (List.mem_of_mem_erase hx)).2
    have hcls : Led E Q (a :: cls.erase a) := by
      refine ⟨List.Pairwise.isChain (List.pairwise_of_forall_mem_list ?_), by simpa using hQ⟩
      intro x hx y hy
      exact .inr (hE.trans (hE.symm (hclsE x hx)) (hclsE y hy))
    have hrest : ∃ l, l.Perm rest ∧ Led E Q l := by
      by_cases hnil : rest = []
      · exact ⟨[], by rw [hnil], led_nil⟩
      · obtain ⟨x, hx⟩ := List.exists_mem_of_ne_nil rest hnil
        have hlen' : rest.length ≤ n := by
          have h1 := hperm.length_eq
          have h2 := List.length_pos_of_mem hacls
          rw [List.length_append] at h1
          omega
        have hrep' : ∀ x ∈ rest, ∃ q ∈ rest, E x q ∧ Q q := by
          intro x hx
          obtain ⟨hxs, hax⟩ := List.mem_filter.mp hx
          obtain ⟨q, hq, hxq, hQq⟩ := hrep x hxs
          refine ⟨q, List.mem_filter.mpr ⟨hq, ?_⟩, hxq, hQq⟩
          have : ¬ E a x := by simpa using hax
          simpa using fun haq => this (hE.trans haq (hE.symm hxq))
        obtain ⟨q, hq, _, hQq⟩ := hrep' x hx
        obtain ⟨l, hl, hled⟩ := ih rest hlen' hrep' q hq hQq
        exact ⟨q :: l, hl, hled⟩
    obtain ⟨l, hl, hled⟩ := hrest
    refine ⟨cls.erase a ++ l, ?_, hcls.append hled⟩
    exact ((List.perm_cons_erase hacls).symm.append hl).trans hperm

end Led

/-! ## Common prefixes -/

/-- Cut the longest common prefix off two lists. -/
def commonPrefix : List α → List α → List α × List α × List α
  | a :: as, b :: bs =>
    if a = b then
      let (c, x, y) := commonPrefix as bs
      (a :: c, x, y)
    else ([], a :: as, b :: bs)
  | as, bs => ([], as, bs)

theorem commonPrefix_eq (as bs : List α) :
    as = (commonPrefix as bs).1 ++ (commonPrefix as bs).2.1 ∧
      bs = (commonPrefix as bs).1 ++ (commonPrefix as bs).2.2 := by
  induction as generalizing bs with
  | nil => simp [commonPrefix]
  | cons a as ih =>
    cases bs with
    | nil => simp [commonPrefix]
    | cons b bs =>
      by_cases h : a = b
      · subst h
        simpa [commonPrefix] using ih bs
      · simp [commonPrefix, h]

theorem commonPrefix_append (as bs : List α) : commonPrefix as (as ++ bs) = (as, [], bs) := by
  induction as with
  | nil => rfl
  | cons a as ih => simp [commonPrefix, ih]

/-- What is left of the two lists does not begin with the same element. -/
theorem commonPrefix_head (as bs : List α) {a : α} {x y : List α} {b : α}
    (hx : (commonPrefix as bs).2.1 = a :: x) (hy : (commonPrefix as bs).2.2 = b :: y) : a ≠ b := by
  induction as generalizing bs with
  | nil => simp [commonPrefix] at hx
  | cons a' as ih =>
    cases bs with
    | nil => simp [commonPrefix] at hy
    | cons b' bs =>
      by_cases h : a' = b'
      · subst h
        simp only [commonPrefix, if_true] at hx hy
        exact ih bs hx hy
      · simp only [commonPrefix, h, if_false, List.cons.injEq] at hx hy
        exact hx.1 ▸ hy.1 ▸ h

/-! ## Sums over a support -/

/-- A function that is empty outside `s` can be collected over `s` instead. -/
theorem flatMap_perm_of_support {β : Type*} {l s : List α} {f : α → List β} (hl : l.Nodup)
    (hs : s.Nodup) (hout : ∀ a ∈ l, a ∉ s → f a = []) (hin : ∀ a ∈ s, a ∉ l → f a = []) :
    (l.flatMap f).Perm (s.flatMap f) := by
  -- elements outside the other list contribute nothing
  have hdrop : ∀ {k k' : List α}, (∀ a ∈ k, a ∉ k' → f a = []) →
      k.flatMap f = (k.filter (· ∈ k')).flatMap f := by
    intro k k'
    induction k with
    | nil => intro _; rfl
    | cons a k ih =>
      intro h
      have ih' := ih (fun x hx => h x (List.mem_cons_of_mem _ hx))
      by_cases ha : a ∈ k'
      · rw [List.filter_cons_of_pos (by simpa using ha), List.flatMap_cons, List.flatMap_cons, ih']
      · rw [List.filter_cons_of_neg (by simpa using ha), List.flatMap_cons,
          h a (List.mem_cons_self ..) ha, List.nil_append, ih']
  rw [hdrop hout, hdrop hin]
  refine List.Perm.flatMap_right f ((List.perm_ext_iff_of_nodup (hl.filter _) (hs.filter _)).mpr ?_)
  intro a
  simp [and_comm]

/-- A function that is empty at all but one element of a list without repetitions. -/
theorem flatMap_eq_single {β : Type*} {l : List α} {f : α → List β} {a : α} (hl : l.Nodup)
    (hout : ∀ b ∈ l, b ≠ a → f b = []) (hin : a ∉ l → f a = []) : l.flatMap f = f a := by
  induction l with
  | nil => exact (hin (by simp)).symm
  | cons b l ih =>
    obtain ⟨hb, hl⟩ := List.nodup_cons.mp hl
    rw [List.flatMap_cons]
    by_cases hba : b = a
    · subst hba
      have hrest : l.flatMap f = [] := by
        rw [List.flatMap_eq_nil_iff]
        exact fun c hc => hout c (List.mem_cons_of_mem _ hc) (fun he => hb (he ▸ hc))
      rw [hrest, List.append_nil]
    · rw [hout b (List.mem_cons_self ..) hba, List.nil_append]
      refine ih hl (fun c hc => hout c (List.mem_cons_of_mem _ hc)) (fun ha => hin ?_)
      rw [List.mem_cons, not_or]
      exact ⟨Ne.symm hba, ha⟩

/-- If a single element contributes, the order of collecting does not matter. -/
theorem flatMap_eq_of_support {β : Type*} {l s : List α} {f : α → List β} (hl : l.Nodup)
    (hs : s.Nodup) (hout : ∀ a ∈ l, a ∉ s → f a = []) (hin : ∀ a ∈ s, a ∉ l → f a = [])
    (hone : ∀ a ∈ l, ∀ b ∈ l, f a ≠ [] → f b ≠ [] → a = b) : l.flatMap f = s.flatMap f := by
  by_cases h : ∃ a ∈ l, f a ≠ []
  · obtain ⟨a, ha, hne⟩ := h
    have hsa : a ∈ s := by
      by_contra has
      exact hne (hout a ha has)
    -- both sides are what the one element contributes
    rw [flatMap_eq_single (a := a) hl (fun b hb hba => ?_) (fun hn => absurd ha hn),
      flatMap_eq_single (a := a) hs (fun b hb hba => ?_) (fun hn => absurd hsa hn)]
    · by_contra hfb
      by_cases hbl : b ∈ l
      · exact hba (hone b hbl a ha hfb hne)
      · exact hfb (hin b hb hbl)
    · by_contra hfb
      exact hba (hone b hb a ha hfb hne)
  · have hnil : ∀ a ∈ l, f a = [] := by
      intro a ha
      by_contra hne
      exact h ⟨a, ha, hne⟩
    rw [List.flatMap_eq_nil_iff.mpr hnil, eq_comm, List.flatMap_eq_nil_iff]
    intro a ha
    by_cases hal : a ∈ l
    · exact hnil a hal
    · exact hin a ha hal

end Kmod.Lists
