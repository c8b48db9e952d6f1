import Mathlib.Data.List.TakeWhile
import Mathlib.Data.List.DropRight

/-!
# Lists cut at a separator

The segments of a list are the longest runs without the separator that are not empty.
A list that does not start with the separator is made of rounds: a segment and the
separators behind it, of which there is at least one unless the list ends there.
`rounds_induction` is the induction on the rounds, for programs that take a list apart
in that way.

`Cut` singles out one segment with what is before and behind it.
-/

namespace Kmod.Segments

variable {α : Type*} [DecidableEq α]

/-- The longest runs without `sep` that are not empty, in order. -/
def segments (sep : α) (l : List α) : List (List α) := (l.splitOn sep).filter (· ≠ [])

variable {sep : α}

@[simp] theorem segments_nil : segments sep [] = [] := rfl

theorem segments_append_sep (a b : List α) :
    segments sep (a ++ sep :: b) = segments sep a ++ segments sep b := by
  unfold segments
  rw [List.splitOn_append_cons_self, List.filter_append]

@[simp] theorem segments_sep_cons (l : List α) : segments sep (sep :: l) = segments sep l :=
  segments_append_sep [] l

theorem segments_word {w : List α} (hw : w ≠ []) (hsep : sep ∉ w) : segments sep w = [w] := by
  unfold segments
  rw [List.splitOn_eq_singleton hsep]
  simp [hw]

@[simp] theorem segments_replicate_append (sep : α) (k : Nat) (l : List α) :
    segments sep (List.replicate k sep ++ l) = segments sep l := by
  induction k with
  | zero => rfl
  | succ k ih => rw [List.replicate_succ, List.cons_append, segments_sep_cons, ih]

@[simp] theorem segments_replicate (sep : α) (k : Nat) :
    segments sep (List.replicate k sep) = [] := by
  have h := segments_replicate_append sep k []
  rwa [List.append_nil] at h

theorem segments_dropWhile (l : List α) :
    segments sep (l.dropWhile (· == sep)) = segments sep l := by
  induction l with
  | nil => rfl
  | cons a l ih =>
    by_cases ha : a = sep
    · rw [List.dropWhile_cons_of_pos (by simp [ha]), ih, ha, segments_sep_cons]
    · rw [List.dropWhile_cons_of_neg (by simp [ha])]

/-- A segment, and what stands behind its separators. -/
theorem segments_round {w : List α} (hw : w ≠ []) (hsep : sep ∉ w) {k : Nat} (hk : 0 < k)
    (l : List α) : segments sep (w ++ (List.replicate k sep ++ l)) = w :: segments sep l := by
  obtain ⟨k, rfl⟩ := Nat.exists_eq_succ_of_ne_zero hk.ne'
  rw [List.replicate_succ, List.cons_append, segments_append_sep, segments_word hw hsep,
    segments_replicate_append]
  rfl

/-! ## Rounds -/

/-- A list starts with separators and goes on without one. -/
theorem exists_replicate_append (sep : α) (l : List α) :
    ∃ k rest, l = List.replicate k sep ++ rest ∧ rest.head? ≠ some sep := by
  induction l with
  | nil => exact ⟨0, [], rfl, by simp⟩
  | cons a l ih =>
    by_cases ha : a = sep
    · obtain ⟨k, rest, rfl, hrest⟩ := ih
      refine ⟨k + 1, rest, ?_, hrest⟩
      rw [ha, List.replicate_succ, List.cons_append]
    · exact ⟨0, a :: l, rfl, by simpa using ha⟩

/-- Induction on the rounds of a list that does not start with the separator. -/
theorem rounds_induction {P : List α → Prop} (nil : P [])
    (last : ∀ w, w ≠ [] → sep ∉ w → P w)
    (round : ∀ w k l, w ≠ [] → sep ∉ w → 0 < k → l.head? ≠ some sep → P l →
      P (w ++ (List.replicate k sep ++ l))) :
    ∀ l : List α, l.head? ≠ some sep → P l := by
  intro l
  induction hn : l.length using Nat.strong_induction_on generalizing l with
  | _ n ih =>
    subst hn
    intro hl
    cases l with
    | nil => exact nil
    | cons a l =>
      have ha : a ≠ sep := by simpa using hl
      by_cases hsep : sep ∈ a :: l
      · obtain ⟨w, rest, hw, hnot⟩ := List.eq_append_cons_of_mem hsep
        have hne : w ≠ [] := by
          rintro rfl
          exact ha (List.cons.inj hw).1
        obtain ⟨k, tail, rfl, htail⟩ := exists_replicate_append sep rest
        rw [hw, ← List.cons_append, ← List.replicate_succ]
        refine round w (k + 1) tail hne hnot (Nat.succ_pos k) htail (ih _ ?_ tail rfl htail)
        rw [hw]
        simp
        omega
      · exact last _ (List.cons_ne_nil _ _) hsep

theorem segments_ne_nil {l : List α} (hl : l.head? ≠ some sep) (hne : l ≠ []) :
    segments sep l ≠ [] := by
  refine rounds_induction (P := fun l => l ≠ [] → segments sep l ≠ []) ?_ ?_ ?_ l hl hne
  · intro h
    exact absurd rfl h
  · intro w hw hsep _
    rw [segments_word hw hsep]
    exact List.cons_ne_nil _ _
  · intro w k l hw hsep hk _ _ _
    rw [segments_round hw hsep hk]
    exact List.cons_ne_nil _ _

/-- The same for any list: separators at the front come one by one. -/
theorem segments_induction (sep : α) {P : List α → Prop} (nil : P [])
    (cons : ∀ l, P l → P (sep :: l))
    (last : ∀ w, w ≠ [] → sep ∉ w → P w)
    (round : ∀ w k l, w ≠ [] → sep ∉ w → 0 < k → l.head? ≠ some sep → P l →
      P (w ++ (List.replicate k sep ++ l))) (l : List α) : P l := by
  obtain ⟨k, rest, rfl, hrest⟩ := exists_replicate_append sep l
  induction k with
  | zero => exact rounds_induction nil last round rest hrest
  | succ k ih => exact cons _ ih

theorem length_segments_le (sep : α) (l : List α) : (segments sep l).length ≤ l.length := by
  induction l using segments_induction sep with
  | nil => exact Nat.zero_le _
  | cons l ih =>
    rw [segments_sep_cons]
    exact Nat.le_succ_of_le ih
  | last w hw hsep =>
    rw [segments_word hw hsep]
    exact List.length_pos_of_ne_nil hw
  | round w k l hw hsep hk _ ih =>
    rw [segments_round hw hsep hk, List.length_append, List.length_append, List.length_cons]
    have := List.length_pos_of_ne_nil hw
    omega

theorem length_le_of_mem_segments {s l : List α} (h : s ∈ segments sep l) :
    s.length ≤ l.length := by
  induction l using segments_induction sep with
  | nil => cases h
  | cons l ih =>
    rw [segments_sep_cons] at h
    exact Nat.le_succ_of_le (ih h)
  | last w hw hsep =>
    rw [segments_word hw hsep, List.mem_singleton] at h
    rw [h]
  | round w k l hw hsep hk _ ih =>
    rw [segments_round hw hsep hk] at h
    rw [List.length_append, List.length_append]
    rcases List.mem_cons.mp h with rfl | h
    · omega
    · have := ih h
      omega

/-! ## The end of a list -/

/-- Nothing stands behind the last separator. -/
def Closed (sep : α) (l : List α) : Prop := l = [] ∨ ∃ a, l = a ++ [sep]

omit [DecidableEq α] in
theorem Closed.append {a b : List α} (ha : Closed sep a) (hb : Closed sep b) :
    Closed sep (a ++ b) := by
  obtain rfl | ⟨b, rfl⟩ := hb
  · rwa [List.append_nil]
  · exact .inr ⟨a ++ b, by rw [List.append_assoc]⟩

omit [DecidableEq α] in
theorem closed_round (w : List α) {k : Nat} (hk : 0 < k) :
    Closed sep (w ++ List.replicate k sep) := by
  obtain ⟨k, rfl⟩ := Nat.exists_eq_succ_of_ne_zero hk.ne'
  exact .inr ⟨w ++ List.replicate k sep, by rw [List.replicate_succ', List.append_assoc]⟩

omit [DecidableEq α] in
theorem closed_replicate (sep : α) (k : Nat) : Closed sep (List.replicate k sep) := by
  rcases Nat.eq_zero_or_pos k with rfl | hk
  · exact .inl rfl
  · exact closed_round [] hk

theorem Closed.segments_append {a : List α} (h : Closed sep a) (l : List α) :
    segments sep (a ++ l) = segments sep a ++ segments sep l := by
  obtain rfl | ⟨a, rfl⟩ := h
  · rfl
  · rw [List.append_assoc, List.singleton_append, segments_append_sep, segments_append_sep,
      segments_nil, List.append_nil]

theorem Closed.length_lt_of_mem {s l : List α} (hl : Closed sep l) (h : s ∈ segments sep l) :
    s.length < l.length := by
  obtain rfl | ⟨a, rfl⟩ := hl
  · cases h
  · rw [segments_append_sep, segments_nil, List.append_nil] at h
    rw [List.length_append, List.length_singleton]
    exact Nat.lt_succ_of_le (length_le_of_mem_segments h)

/-- What stands behind the last separator. -/
def openTail (sep : α) (l : List α) : List α := l.rtakeWhile (· != sep)

/-- What stands before that, with the separator. -/
def closedPart (sep : α) (l : List α) : List α := l.rdropWhile (· != sep)

theorem closedPart_append_openTail (sep : α) (l : List α) :
    closedPart sep l ++ openTail sep l = l :=
  List.rdropWhile_append_rtakeWhile

theorem sep_notMem_openTail (sep : α) (l : List α) : sep ∉ openTail sep l := by
  intro h
  have := List.mem_rtakeWhile_imp h
  simp at this

theorem closed_closedPart (sep : α) (l : List α) : Closed sep (closedPart sep l) := by
  by_cases hnil : closedPart sep l = []
  · exact .inl hnil
  · have hlast := List.rdropWhile_last_not (· != sep) l hnil
    rw [bne_iff_ne, not_not] at hlast
    change (closedPart sep l).getLast hnil = sep at hlast
    exact .inr ⟨(closedPart sep l).dropLast, by
      conv_lhs => rw [← List.dropLast_append_getLast hnil, hlast]⟩

theorem openTail_word {w : List α} (hsep : sep ∉ w) : openTail sep w = w := by
  refine List.rtakeWhile_eq_self_iff.mpr ?_
  intro a ha
  rw [bne_iff_ne]
  rintro rfl
  exact hsep ha

theorem Closed.openTail_append {a : List α} (h : Closed sep a) (l : List α) :
    openTail sep (a ++ l) = openTail sep l := by
  obtain rfl | ⟨a, rfl⟩ := h
  · rfl
  · unfold openTail List.rtakeWhile
    rw [List.reverse_append, List.reverse_append, List.takeWhile_append]
    split
    · next hall =>
      rw [List.reverse_singleton, List.singleton_append, List.takeWhile_cons_of_neg (by simp),
        List.append_nil]
      congr 1
      exact ((List.takeWhile_prefix _).eq_of_length hall).symm
    · rfl

theorem Closed.closedPart_append {a : List α} (h : Closed sep a) (l : List α) :
    closedPart sep (a ++ l) = a ++ closedPart sep l := by
  have hall := closedPart_append_openTail sep (a ++ l)
  rw [h.openTail_append] at hall
  conv_rhs at hall => rw [← closedPart_append_openTail sep l, ← List.append_assoc]
  exact List.append_cancel_right hall

theorem closedPart_word {w : List α} (hsep : sep ∉ w) : closedPart sep w = [] := by
  have hall := closedPart_append_openTail sep w
  rw [openTail_word hsep] at hall
  exact List.append_left_eq_self.mp hall

theorem openTail_round (w : List α) {k : Nat} (hk : 0 < k) (l : List α) :
    openTail sep (w ++ (List.replicate k sep ++ l)) = openTail sep l := by
  rw [← List.append_assoc, (closed_round w hk).openTail_append]

theorem closedPart_round (w : List α) {k : Nat} (hk : 0 < k) (l : List α) :
    closedPart sep (w ++ (List.replicate k sep ++ l)) =
      w ++ (List.replicate k sep ++ closedPart sep l) := by
  rw [← List.append_assoc, (closed_round w hk).closedPart_append, List.append_assoc]

/-- The segments are those of the closed part, and what is left open. -/
theorem segments_eq_append (sep : α) (l : List α) :
    segments sep l = segments sep (closedPart sep l) ++ segments sep (openTail sep l) := by
  conv_lhs => rw [← closedPart_append_openTail sep l]
  exact (closed_closedPart sep l).segments_append _

theorem openTail_concat_eq_nil (l : List α) (a : α) : openTail sep (l ++ [a]) = [] ↔ a = sep := by
  unfold openTail
  rw [List.rtakeWhile_eq_nil_iff]
  simp

theorem length_segments (sep : α) (l : List α) :
    (segments sep l).length =
      (segments sep (closedPart sep l)).length + if openTail sep l = [] then 0 else 1 := by
  rw [segments_eq_append, List.length_append]
  split
  · next hnil => rw [hnil, segments_nil, List.length_nil]
  · next hnil => rw [segments_word hnil (sep_notMem_openTail sep l), List.length_singleton]

/-- Separators at the front do not matter for the end. -/
theorem openTail_dropWhile (l : List α) :
    openTail sep (l.dropWhile (· == sep)) = openTail sep l := by
  induction l with
  | nil => rfl
  | cons a l ih =>
    by_cases ha : a = sep
    · subst ha
      rw [List.dropWhile_cons_of_pos (by simp), ih]
      exact ((closed_round [] Nat.one_pos).openTail_append l).symm
    · rw [List.dropWhile_cons_of_neg (by simp [ha])]

/-! ## One of the segments -/

/-- `w` stands in `l`, between separators or the ends. -/
structure Cut (sep : α) (l pre w post : List α) : Prop where
  eq : l = pre ++ (w ++ post)
  before : Closed sep pre
  behind : post = [] ∨ ∃ b, post = sep :: b

theorem Cut.segments_eq {l pre w post : List α} (h : Cut sep l pre w post) (hw : w ≠ [])
    (hsep : sep ∉ w) : segments sep l = segments sep pre ++ w :: segments sep post := by
  rw [h.eq, h.before.segments_append]
  congr 1
  obtain rfl | ⟨b, rfl⟩ := h.behind
  · rw [List.append_nil, segments_word hw hsep]
    rfl
  · rw [segments_append_sep, segments_word hw hsep, segments_sep_cons]
    rfl

/-- The segment is overwritten with separators. -/
theorem Cut.segments_clear {l pre w post : List α} (h : Cut sep l pre w post) :
    segments sep (pre ++ (List.replicate w.length sep ++ post)) =
      segments sep pre ++ segments sep post := by
  rw [h.before.segments_append, segments_replicate_append]

/-- What stands before the last separator does not matter for the end. -/
theorem Cut.openTail_eq {l pre w b : List α} (h : Cut sep l pre w (sep :: b)) :
    openTail sep l = openTail sep b ∧
      ∀ v, openTail sep (pre ++ (v ++ sep :: b)) = openTail sep b := by
  have hany : ∀ v, openTail sep (pre ++ (v ++ sep :: b)) = openTail sep b := by
    intro v
    have hclosed : Closed sep (pre ++ v ++ [sep]) := .inr ⟨pre ++ v, rfl⟩
    have htail := hclosed.openTail_append b
    rwa [List.append_assoc, List.append_assoc, List.singleton_append] at htail
  exact ⟨by rw [h.eq]; exact hany w, hany⟩

omit [DecidableEq α] in
/-- A cut of what stands behind something closed. -/
theorem Cut.append {l pre w post a : List α} (h : Cut sep l pre w post) (ha : Closed sep a) :
    Cut sep (a ++ l) (a ++ pre) w post where
  eq := by rw [h.eq, List.append_assoc]
  before := ha.append h.before
  behind := h.behind

end Kmod.Segments
