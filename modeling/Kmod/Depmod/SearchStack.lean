import Kmod.Depmod.Search

/-!
# The stack of one search

A vertex that is popped leaves its dependencies on the stack, the last one on top. So when the
search has walked down to a module, what lies below it is, for every module of the walk, the
dependencies that stand before the one the walk goes on with (`Piled`). The stack is too small for
a search just if some walk out of the root piles up more than it holds: if none does, the search
does not fail (`search_fits`), and a search that has come to its end has taken every walk there is
(`fits_of_ok`).
-/

set_option linter.unusedSectionVars false

namespace Kmod.Depmod

open Relation Kmod.Digraph Kmod.Lists

variable {μ : Type} [DecidableEq μ] {d : Depmod μ}

/--
A search from `r` comes to `x` with `h` vertices below it. The walk does not come back to `r`, as
the search does not go on from there.
-/
inductive Piled (deps : μ → List μ) (r : μ) : μ → Nat → Prop where
  | root : Piled deps r r 0
  | dep {x y : μ} {h i : Nat} : Piled deps r x h → (deps x)[i]? = some y → y ≠ r →
      Piled deps r y (h + i)

/-- `n` entries are enough for a search from `r`. -/
def Fits (deps : μ → List μ) (n : Nat) (r : μ) : Prop :=
  ∀ x h, Piled deps r x h → deps x ≠ [] → h + (deps x).length ≤ n

/-! ## Pushing -/

section Push

variable {ndebug : Bool} {n : Nat} {r : μ} {v : Vertex μ}

theorem pushDeps_room : ∀ {deps : List μ} {stack : List (Vertex μ)},
    stack.length + deps.length ≤ n → ∃ stack', pushDeps ndebug n v deps stack = .ok stack' := by
  intro deps
  induction deps with
  | nil => exact fun _ => ⟨_, rfl⟩
  | cons dep deps ih =>
    intro stack h
    rw [List.length_cons] at h
    have hlt : stack.length < n := by omega
    rw [pushDeps, if_pos hlt]
    exact ih (by rw [List.length_cons]; omega)

theorem pushDeps_full : ∀ {deps : List μ} {stack : List (Vertex μ)},
    deps ≠ [] → n < stack.length + deps.length →
      pushDeps ndebug n v deps stack = .error (fullStack ndebug) := by
  intro deps
  induction deps with
  | nil => exact fun h => absurd rfl h
  | cons dep deps ih =>
    intro stack _ h
    rw [List.length_cons] at h
    by_cases hlt : stack.length < n
    · rw [pushDeps, if_pos hlt]
      refine ih ?_ (by rw [List.length_cons]; omega)
      rintro rfl
      rw [List.length_nil] at h
      omega
    · rw [pushDeps, if_neg hlt]

variable {stack : List (Vertex μ)} {s : ReportState μ}

/-- An iteration that has room for the dependencies it may push does not fail. -/
theorem searchStep_room (h : ¬ (s.visited v.mod = true ∧ v.mod = r) → d.deps v.mod ≠ [] →
      stack.length + (d.deps v.mod).length ≤ n) :
    ∃ p, searchStep d ndebug n r v stack s = .ok p := by
  rw [searchStep]
  dsimp only
  split
  · exact ⟨_, rfl⟩
  · next hc =>
    simp only [Bool.and_eq_true, decide_eq_true_eq] at hc
    split
    · exact ⟨_, rfl⟩
    · next hdeps =>
      obtain ⟨stack', hpush⟩ : ∃ stack', pushDeps ndebug n v (d.deps v.mod) stack = .ok stack' :=
        pushDeps_room (h hc (fun he => hdeps he))
      rw [hpush]
      exact ⟨_, rfl⟩

theorem searchStep_full (hc : ¬ (s.visited v.mod = true ∧ v.mod = r)) (hdeps : d.deps v.mod ≠ [])
    (h : n < stack.length + (d.deps v.mod).length) :
    searchStep d ndebug n r v stack s = .error (fullStack ndebug) := by
  rw [searchStep]
  dsimp only
  rw [if_neg (by simpa only [Bool.and_eq_true, decide_eq_true_eq] using hc)]
  split
  · next hd => exact absurd hd hdeps
  · rw [pushDeps_full hdeps h]
    rfl

end Push

/-! ## Where the walks fit -/

section Room

variable {r : μ} {n : Nat}

/-- Every vertex of the stack lies where some walk has left it, or is the root again. -/
def Heaped (d : Depmod μ) (r : μ) : List (Vertex μ) → Prop
  | [] => True
  | v :: stack => (v.mod = r ∨ Piled d.deps r v.mod stack.length) ∧ Heaped d r stack

/-- The state of a search from `r`: the root is expanded only at the start. -/
def Searching (d : Depmod μ) (r : μ) (stack : List (Vertex μ)) (s : ReportState μ) : Prop :=
  Heaped d r stack ∧ (stack = [⟨r, []⟩] ∨ s.visited r = true)

theorem searching_init (s : ReportState μ) : Searching d r [⟨r, []⟩] s :=
  ⟨⟨.inl rfl, trivial⟩, .inl rfl⟩

/-- A vertex that is expanded has been walked to. -/
theorem Searching.expands {v : Vertex μ} {stack : List (Vertex μ)} {s : ReportState μ}
    (h : Searching d r (v :: stack) s) (hc : ¬ (s.visited v.mod = true ∧ v.mod = r)) :
    Piled d.deps r v.mod stack.length := by
  rcases h.1.1 with hv | hpiled
  · rcases h.2 with heq | hvis
    · obtain ⟨rfl, rfl⟩ := List.cons.inj heq
      exact .root
    · exact absurd ⟨hv ▸ hvis, hv⟩ hc
  · exact hpiled

/-- The dependencies of a vertex on top of what was below it. -/
theorem Heaped.push {v : Vertex μ} {stack : List (Vertex μ)} (h : Heaped d r stack)
    (hv : Piled d.deps r v.mod stack.length) (front : List μ) : ∀ back,
      d.deps v.mod = front ++ back →
      Heaped d r (front.reverse.map (fun dep => ⟨dep, v.mod :: v.parents⟩) ++ stack) := by
  induction front using List.reverseRecOn with
  | nil => exact fun _ _ => h
  | append_singleton front y ih =>
    intro back hdeps
    rw [List.append_assoc] at hdeps
    have hy : (d.deps v.mod)[front.length]? = some y := by
      rw [hdeps, List.getElem?_append_right (Nat.le_refl _), Nat.sub_self]
      rfl
    rw [List.reverse_append, List.reverse_singleton, List.singleton_append, List.map_cons,
      List.cons_append]
    refine ⟨?_, ih _ hdeps⟩
    by_cases hyr : y = r
    · exact .inl hyr
    · right
      rw [List.length_append, List.length_map, List.length_reverse, Nat.add_comm]
      exact hv.dep hy hyr

theorem Searching.step {v : Vertex μ} {stack stack' : List (Vertex μ)} {s s' : ReportState μ}
    (h : Searching d r (v :: stack) s) (hs : SearchStep d r v stack s stack' s') :
    Searching d r stack' s' := by
  have hvisit : s.visited r = true ∨ v.mod = r := by
    rcases h.2 with heq | hvis
    · exact .inr (congrArg Vertex.mod (List.cons.inj heq).1)
    · exact .inl hvis
  have hvisited : (s.visit v.mod).visited r = true := by
    rcases hvisit with hvis | hv
    · exact visit_of_visited hvis
    · rw [← hv]
      exact visit_self s v.mod
  cases hs with
  | report hvis hroot => exact ⟨h.1.2, .inr (hroot ▸ hvis)⟩
  | leaf hc hd => exact ⟨h.1.2, .inr hvisited⟩
  | expand hc hd =>
    exact ⟨h.1.2.push (h.expands hc) _ [] (List.append_nil _).symm, .inr hvisited⟩

/-- **A search with enough room does not fail.** -/
theorem searchLoop_fits {ndebug : Bool} (h : Fits d.deps n r) : ∀ (fuel : Nat)
    {stack : List (Vertex μ)} {s : ReportState μ}, Searching d r stack s →
      searchLoop d ndebug n r fuel stack s ≠ .error (fullStack ndebug) := by
  intro fuel
  induction fuel with
  | zero =>
    intro stack s _
    cases stack with
    | nil => exact fun h => by cases h
    | cons v stack =>
      exact fun h => fullStack_ne ndebug (Except.error.inj h).symm
  | succ fuel ih =>
    intro stack s hs
    cases stack with
    | nil => exact fun h => by cases h
    | cons v stack =>
      obtain ⟨p, hstep⟩ : ∃ p, searchStep d ndebug n r v stack s = .ok p :=
        searchStep_room (fun hc hdeps => h _ _ (hs.expands hc) hdeps)
      rw [searchLoop, hstep]
      exact ih (hs.step (searchStep_ok hstep))

theorem search_fits {ndebug : Bool} {fuel : Nat} {s : ReportState μ} (h : Fits d.deps n r) :
    depmodReportCyclesFromRoot d ndebug n fuel r s ≠ .error (fullStack ndebug) :=
  searchLoop_fits h fuel (searching_init s)

end Room

/-! ## A search that has ended -/

section Ended

variable {ndebug : Bool} {n : Nat} {r : μ}

/-- What is on top of the stack has been dealt with before what is below. -/
theorem searchLoop_below {stack : List (Vertex μ)} {s' : ReportState μ} : ∀ (fuel : Nat)
    {top : List (Vertex μ)} {s : ReportState μ},
      searchLoop d ndebug n r fuel (top ++ stack) s = .ok s' →
      ∃ fuel' s₁, searchLoop d ndebug n r fuel' stack s₁ = .ok s' := by
  intro fuel
  induction fuel with
  | zero =>
    intro top s h
    cases top with
    | nil => exact ⟨0, s, h⟩
    | cons v top => cases h
  | succ fuel ih =>
    intro top s h
    cases top with
    | nil => exact ⟨fuel + 1, s, h⟩
    | cons v top =>
      rcases searchLoop_succ d ndebug n r v (top ++ stack) s with ⟨stack', s₁, hs, he⟩ | he
      · rw [List.cons_append, he] at h
        cases hs with
        | report _ _ => exact ih h
        | leaf _ _ => exact ih h
        | expand _ _ =>
          rw [← List.append_assoc] at h
          exact ih h
      · rw [List.cons_append, he] at h
        cases h

/-- A module with dependencies was expanded, and there was room for them. -/
theorem expanded_of_ok {fuel : Nat} {v : Vertex μ} {stack : List (Vertex μ)} {s s' : ReportState μ}
    (hc : ¬ (s.visited v.mod = true ∧ v.mod = r)) (hdeps : d.deps v.mod ≠ [])
    (h : searchLoop d ndebug n r fuel (v :: stack) s = .ok s') :
    stack.length + (d.deps v.mod).length ≤ n ∧
      ∃ fuel' s₁, searchLoop d ndebug n r fuel' (children d v ++ stack) s₁ = .ok s' := by
  cases fuel with
  | zero => cases h
  | succ fuel =>
    refine ⟨?_, ?_⟩
    · by_contra hover
      rw [searchLoop, searchStep_full hc hdeps (Nat.lt_of_not_le hover)] at h
      cases h
    · rcases searchLoop_succ d ndebug n r v stack s with ⟨stack', s₁, hs, he⟩ | he
      · rw [he] at h
        cases hs with
        | report hvis hroot => exact absurd ⟨hvis, hroot⟩ hc
        | leaf _ hleaf => exact absurd hleaf hdeps
        | expand _ _ => exact ⟨fuel, _, h⟩
      · rw [he] at h
        cases h

/-- The search has come by every module that can be walked to. -/
theorem passes_of_ok {fuel : Nat} {s s' : ReportState μ} (hv : s.visited r = false)
    (h : depmodReportCyclesFromRoot d ndebug n fuel r s = .ok s') {x : μ} {k : Nat}
    (hx : Piled d.deps r x k) : ∃ fuel' ps stack s₁, stack.length = k ∧
      ¬ (s₁.visited x = true ∧ x = r) ∧
      searchLoop d ndebug n r fuel' (⟨x, ps⟩ :: stack) s₁ = .ok s' := by
  induction hx with
  | root =>
    refine ⟨fuel, [], [], s, rfl, fun hc => ?_, h⟩
    rw [hv] at hc
    cases hc.1
  | @dep x y k i _ hy hyr ih =>
    obtain ⟨fuel', ps, stack, s₁, hlen, hc, hrun⟩ := ih
    have hdeps : d.deps x ≠ [] := by
      intro hnil
      rw [hnil] at hy
      cases hy
    obtain ⟨-, fuel'', s₂, hrun⟩ := expanded_of_ok (v := ⟨x, ps⟩) hc hdeps hrun
    -- the dependencies behind `y` are dealt with before it
    obtain ⟨hi, hget⟩ := List.getElem?_eq_some_iff.mp hy
    have hsplit : d.deps x = (d.deps x).take i ++ y :: (d.deps x).drop (i + 1) := by
      rw [← hget, List.getElem_cons_drop, List.take_append_drop]
    have hchildren : children d ⟨x, ps⟩ =
        ((d.deps x).drop (i + 1)).reverse.map (fun dep => ⟨dep, x :: ps⟩) ++
          ⟨y, x :: ps⟩ :: ((d.deps x).take i).reverse.map (fun dep => ⟨dep, x :: ps⟩) := by
      unfold children
      conv_lhs => rw [hsplit]
      simp
    rw [hchildren, List.append_assoc] at hrun
    obtain ⟨fuel₃, s₃, hrun⟩ := searchLoop_below _ hrun
    rw [List.cons_append] at hrun
    refine ⟨fuel₃, _, _, s₃, ?_, fun hc => hyr hc.2, hrun⟩
    rw [List.length_append, List.length_map, List.length_reverse, List.length_take, hlen]
    omega

/-- **A search that has come to its end had enough room.** -/
theorem fits_of_ok {fuel : Nat} {s s' : ReportState μ} (hv : s.visited r = false)
    (h : depmodReportCyclesFromRoot d ndebug n fuel r s = .ok s') : Fits d.deps n r := by
  intro x k hx hdeps
  obtain ⟨fuel', ps, stack, s₁, hlen, hc, hrun⟩ := passes_of_ok hv h hx
  rw [← hlen]
  exact (expanded_of_ok (v := ⟨x, ps⟩) hc hdeps hrun).1

end Ended

/-! ## Below the root -/

section Below

variable {deps : μ → List μ} {r x : μ}

theorem Piled.reach {h : Nat} (hx : Piled deps r x h) :
    ReflTransGen (fun a b => b ∈ deps a) r x := by
  induction hx with
  | root => exact .refl
  | dep _ hy _ ih => exact ih.tail (List.mem_of_getElem? hy)

/-- What can be reached without coming back to the root can be walked to. -/
theorem exists_piled {y : μ} (hxy : ReflTransGen (Avoid (fun a b => b ∈ deps a) r) x y) {h : Nat}
    (hx : Piled deps r x h) : ∃ h', Piled deps r y h' := by
  induction hxy with
  | refl => exact ⟨h, hx⟩
  | tail _ hyz ih =>
    obtain ⟨h', hy⟩ := ih
    obtain ⟨i, hi⟩ := List.getElem?_of_mem hyz.1
    exact ⟨h' + i, hy.dep hi hyz.2.2⟩

/-- A walk from the root, and then one that never comes back to it. -/
theorem Piled.trans {y : μ} {k h : Nat} (hx : Piled deps r x k)
    (hback : ¬ ReflTransGen (fun a b => b ∈ deps a) x r) (hy : Piled deps x y h) :
    Piled deps r y (k + h) := by
  induction hy with
  | root => exact hx
  | @dep y z h i hy hz hzx ih =>
    rw [← Nat.add_assoc]
    refine ih.dep hz ?_
    rintro rfl
    exact hback (hy.dep hz hzx).reach

/-- Where a search has room, one from further down has. -/
theorem Fits.below {n k : Nat} (h : Fits deps n r) (hx : Piled deps r x k)
    (hback : ¬ ReflTransGen (fun a b => b ∈ deps a) x r) : Fits deps n x := by
  intro y j hy hdeps
  have hroom := h y (k + j) (hx.trans hback hy) hdeps
  omega

end Below

end Kmod.Depmod
