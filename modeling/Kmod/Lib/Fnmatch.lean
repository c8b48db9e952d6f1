import Mathlib.Data.List.Basic
import Mathlib.Data.List.Infix

/-!
# Shell patterns

What POSIX says of `fnmatch` with no flags, as far as a caller needs it that cuts
a pattern in two: how a pattern goes on after an ordinary character, an escaped
one, and after each of the characters `*`, `?` and `[`. What a bracket expression
matches is left open.

A backslash takes the meaning from the character after it. `unescape` gives the
text that a part of a pattern without wildcards stands for.
-/

namespace Kmod.Fnmatch

/-- The string begins with `c` and goes on as `p` says. -/
def StepOver (fnmatch : List UInt8 → List UInt8 → Bool) (c : UInt8) (p s : List UInt8) : Prop :=
  ∃ s', s = c :: s' ∧ fnmatch p s' = true

/-- Not one of `*`, `?` and `[`. -/
def Plain (c : UInt8) : Prop := c ≠ 42 ∧ c ≠ 63 ∧ c ≠ 91

instance : DecidablePred Plain := fun c => inferInstanceAs (Decidable (c ≠ 42 ∧ c ≠ 63 ∧ c ≠ 91))

/-- Characters that stand for themselves, and backslashes. -/
structure Literals (fnmatch : List UInt8 → List UInt8 → Bool) : Prop where
  nil : ∀ s, fnmatch [] s = true ↔ s = []
  ordinary : ∀ c p s, Plain c → c ≠ 92 → (fnmatch (c :: p) s = true ↔ StepOver fnmatch c p s)
  escaped : ∀ c p s, fnmatch (92 :: c :: p) s = true ↔ StepOver fnmatch c p s
  /-- A pattern that ends in a backslash does not match. -/
  unescaped : ∀ s, fnmatch [92] s = false

/-- The wildcards; a bracket that nothing closes stands for itself. -/
structure Posix (fnmatch : List UInt8 → List UInt8 → Bool) : Prop extends Literals fnmatch where
  star : ∀ p s, fnmatch (42 :: p) s = true ↔ ∃ s', s' <:+ s ∧ fnmatch p s' = true
  question : ∀ p s, fnmatch (63 :: p) s = true ↔ ∃ c, StepOver fnmatch c p s
  bracket : ∀ p s, 93 ∉ p → (fnmatch (91 :: p) s = true ↔ StepOver fnmatch 91 p s)

/-- The text for a part of a pattern without wildcards, unless it ends in a backslash. -/
def unescape : List UInt8 → Option (List UInt8)
  | [] => some []
  | c :: p =>
    if c = 92 then
      match p with
      | [] => none
      | d :: p => (unescape p).map (d :: ·)
    else (unescape p).map (c :: ·)

theorem unescape_backslash (d : UInt8) (p : List UInt8) :
    unescape (92 :: d :: p) = (unescape p).map (d :: ·) := rfl

theorem unescape_ordinary {c : UInt8} (h : c ≠ 92) (p : List UInt8) :
    unescape (c :: p) = (unescape p).map (c :: ·) := by
  rw [unescape.eq_def]
  exact if_neg h

/-- **Induction on a pattern, as backslashes divide it.** -/
theorem escape_induction {P : List UInt8 → Prop} (nil : P []) (dangling : P [92])
    (escaped : ∀ d p, P p → P (92 :: d :: p)) (ordinary : ∀ c p, c ≠ 92 → P p → P (c :: p)) :
    ∀ p, P p
  | [] => nil
  | [c] => if h : c = 92 then h ▸ dangling else ordinary c [] h nil
  | c :: d :: p =>
    if h : c = 92 then h ▸ escaped d p (escape_induction nil dangling escaped ordinary p)
    else ordinary c (d :: p) h (escape_induction nil dangling escaped ordinary (d :: p))

theorem mem_of_mem_unescape {p : List UInt8} :
    ∀ {u : List UInt8}, unescape p = some u → ∀ c ∈ u, c ∈ p := by
  induction p using escape_induction with
  | nil =>
    intro u h c hc
    rw [← Option.some.inj h] at hc
    exact hc
  | dangling => exact fun h => nomatch h
  | escaped d p ih =>
    intro u h c hc
    rw [unescape_backslash] at h
    obtain ⟨u', hu', rfl⟩ := Option.map_eq_some_iff.mp h
    rcases List.mem_cons.mp hc with rfl | hc
    · exact List.mem_cons_of_mem _ (List.mem_cons_self ..)
    · exact List.mem_cons_of_mem _ (List.mem_cons_of_mem _ (ih hu' c hc))
  | ordinary d p hd ih =>
    intro u h c hc
    rw [unescape_ordinary hd] at h
    obtain ⟨u', hu', rfl⟩ := Option.map_eq_some_iff.mp h
    rcases List.mem_cons.mp hc with rfl | hc
    · exact List.mem_cons_self ..
    · exact List.mem_cons_of_mem _ (ih hu' c hc)

/-- Without backslashes a text stands for itself. -/
theorem unescape_eq {p : List UInt8} (h : 92 ∉ p) : unescape p = some p := by
  induction p with
  | nil => rfl
  | cons c p ih =>
    rw [List.mem_cons, not_or] at h
    rw [unescape_ordinary (Ne.symm h.1), ih h.2]
    rfl

theorem length_unescape_le {p : List UInt8} :
    ∀ {u : List UInt8}, unescape p = some u → u.length ≤ p.length := by
  induction p using escape_induction with
  | nil =>
    intro u h
    rw [← Option.some.inj h]
  | dangling => exact fun h => nomatch h
  | escaped d p ih =>
    intro u h
    rw [unescape_backslash] at h
    obtain ⟨u', hu', rfl⟩ := Option.map_eq_some_iff.mp h
    have := ih hu'
    simp only [List.length_cons]
    omega
  | ordinary d p hd ih =>
    intro u h
    rw [unescape_ordinary hd] at h
    obtain ⟨u', hu', rfl⟩ := Option.map_eq_some_iff.mp h
    have := ih hu'
    simp only [List.length_cons]
    omega

/-- Every backslash that escapes something makes the text shorter. -/
theorem length_unescape_lt {p : List UInt8} :
    ∀ {u : List UInt8}, 92 ∈ p → unescape p = some u → u.length < p.length := by
  induction p using escape_induction with
  | nil => exact fun h => nomatch h
  | dangling => exact fun _ h => nomatch h
  | escaped d p ih =>
    intro u _ h
    rw [unescape_backslash] at h
    obtain ⟨u', hu', rfl⟩ := Option.map_eq_some_iff.mp h
    have := length_unescape_le hu'
    simp only [List.length_cons]
    omega
  | ordinary d p hd ih =>
    intro u hmem h
    rw [unescape_ordinary hd] at h
    obtain ⟨u', hu', rfl⟩ := Option.map_eq_some_iff.mp h
    have := ih ((List.mem_cons.mp hmem).resolve_left (Ne.symm hd)) hu'
    simp only [List.length_cons]
    omega

section Literals

variable {fnmatch : List UInt8 → List UInt8 → Bool} (hf : Literals fnmatch)
include hf

/-- **A pattern that begins without wildcards** matches what begins with the text of its first part
and goes on as the rest of the pattern says. -/
theorem Literals.match_iff {lit : List UInt8} (hlit : ∀ c ∈ lit, Plain c) (w : List UInt8) :
    ∀ {u : List UInt8}, unescape lit = some u → ∀ s,
      (fnmatch (lit ++ w) s = true ↔ ∃ s', s = u ++ s' ∧ fnmatch w s' = true) := by
  -- one character of the text, and then the induction hypothesis
  have hstep : ∀ {c : UInt8} {p u : List UInt8},
      (∀ s, fnmatch (p ++ w) s = true ↔ ∃ s', s = u ++ s' ∧ fnmatch w s' = true) →
      ∀ s, StepOver fnmatch c (p ++ w) s ↔ ∃ s', s = c :: u ++ s' ∧ fnmatch w s' = true := by
    intro c p u ih s
    refine ⟨?_, ?_⟩
    · rintro ⟨s₁, rfl, hs₁⟩
      obtain ⟨s', rfl, hs'⟩ := (ih s₁).mp hs₁
      exact ⟨s', rfl, hs'⟩
    · rintro ⟨s', rfl, hs'⟩
      exact ⟨u ++ s', rfl, (ih _).mpr ⟨s', rfl, hs'⟩⟩
  induction lit using escape_induction with
  | nil =>
    intro u h s
    rw [← Option.some.inj h]
    exact ⟨fun hs => ⟨s, rfl, hs⟩, fun ⟨s', hs, hm⟩ => by rw [hs]; exact hm⟩
  | dangling =>
    intro u h
    exact nomatch h
  | escaped d p ih =>
    intro u h s
    rw [unescape_backslash] at h
    obtain ⟨u', hu', rfl⟩ := Option.map_eq_some_iff.mp h
    have ih' := ih (fun c hc => hlit c (List.mem_cons_of_mem _ (List.mem_cons_of_mem _ hc))) hu'
    exact (hf.escaped d (p ++ w) s).trans (hstep ih' s)
  | ordinary c p hc ih =>
    intro u h s
    rw [unescape_ordinary hc] at h
    obtain ⟨u', hu', rfl⟩ := Option.map_eq_some_iff.mp h
    have ih' := ih (fun c hc => hlit c (List.mem_cons_of_mem _ hc)) hu'
    exact (hf.ordinary c (p ++ w) s (hlit c (List.mem_cons_self ..)) hc).trans (hstep ih' s)

/-- A backslash at the end of the first part takes the meaning from the character after it. -/
theorem Literals.mem_of_match {lit : List UInt8} (hlit : ∀ c ∈ lit, Plain c) (w : List UInt8)
    (hnone : unescape lit = none) :
    ∀ {s : List UInt8}, fnmatch (lit ++ w) s = true → ∃ c ∈ s, w.head? = some c := by
  induction lit using escape_induction with
  | nil => exact nomatch hnone
  | dangling =>
    intro s h
    cases w with
    | nil =>
      rw [show [92] ++ [] = [(92 : UInt8)] from rfl, hf.unescaped] at h
      exact nomatch h
    | cons c w =>
      obtain ⟨s', rfl, _⟩ := (hf.escaped c w s).mp h
      exact ⟨c, List.mem_cons_self .., rfl⟩
  | escaped d p ih =>
    intro s h
    rw [unescape_backslash, Option.map_eq_none_iff] at hnone
    obtain ⟨s', rfl, hs'⟩ := (hf.escaped d (p ++ w) s).mp h
    obtain ⟨c, hc, hw⟩ := ih
      (fun c hc => hlit c (List.mem_cons_of_mem _ (List.mem_cons_of_mem _ hc))) hnone hs'
    exact ⟨c, List.mem_cons_of_mem _ hc, hw⟩
  | ordinary d p hd ih =>
    intro s h
    rw [unescape_ordinary hd, Option.map_eq_none_iff] at hnone
    obtain ⟨s', rfl, hs'⟩ := (hf.ordinary d (p ++ w) s (hlit d (List.mem_cons_self ..)) hd).mp h
    obtain ⟨c, hc, hw⟩ := ih (fun c hc => hlit c (List.mem_cons_of_mem _ hc)) hnone hs'
    exact ⟨c, List.mem_cons_of_mem _ hc, hw⟩

end Literals

/-! ## A matcher without bracket expressions -/

/-- The string begins with `c` and goes on as `rest` says. -/
def stepOver (rest : List UInt8 → Bool) (c : UInt8) : List UInt8 → Bool
  | [] => false
  | d :: s => c = d && rest s

/-- Every bracket stands for itself. -/
def simpleMatch : List UInt8 → List UInt8 → Bool
  | [], s => s.isEmpty
  | c :: p, s =>
    if c = 42 then s.tails.any (simpleMatch p)
    else if c = 63 then !s.isEmpty && simpleMatch p s.tail
    else if c = 92 then
      match p with
      | [] => false
      | d :: p => stepOver (simpleMatch p) d s
    else stepOver (simpleMatch p) c s

theorem stepOver_iff {c : UInt8} {p s : List UInt8} :
    stepOver (simpleMatch p) c s = true ↔ StepOver simpleMatch c p s := by
  cases s with
  | nil => exact ⟨fun h => (nomatch h), fun ⟨_, h, _⟩ => (nomatch h)⟩
  | cons d s =>
    simp only [stepOver, Bool.and_eq_true, decide_eq_true_iff, StepOver, List.cons.injEq]
    exact ⟨fun ⟨h, hs⟩ => ⟨s, ⟨h.symm, rfl⟩, hs⟩, fun ⟨s', ⟨h, hs⟩, hs'⟩ => ⟨h.symm, hs ▸ hs'⟩⟩

theorem simpleMatch_posix : Posix simpleMatch where
  nil := fun s => by simp [simpleMatch]
  ordinary := by
    intro c p s hc hback
    rw [simpleMatch.eq_def]
    simp only [if_neg hc.1, if_neg hc.2.1, if_neg hback]
    exact stepOver_iff
  escaped := by
    intro c p s
    exact stepOver_iff
  unescaped := fun _ => rfl
  star := by
    intro p s
    rw [simpleMatch.eq_def]
    simp only [if_true, List.any_eq_true, List.mem_tails]
  question := by
    intro p s
    rw [simpleMatch.eq_def]
    cases s with
    | nil =>
      refine ⟨fun h => ?_, fun ⟨_, _, h, _⟩ => (nomatch h)⟩
      simp at h
    | cons d s =>
      simp only [StepOver, List.cons.injEq]
      refine ⟨fun h => ⟨d, s, ⟨rfl, rfl⟩, ?_⟩, fun ⟨c, s', ⟨_, hs⟩, hs'⟩ => ?_⟩
      · simpa using h
      · subst hs
        simpa using hs'
  bracket := by
    intro p s _
    rw [simpleMatch.eq_def]
    exact stepOver_iff

end Kmod.Fnmatch
