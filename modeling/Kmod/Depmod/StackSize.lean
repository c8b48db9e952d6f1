import Kmod.Depmod.CycleReports
import Mathlib.Algebra.Order.BigOperators.Group.Finset

/-!
# The stack of the cycle search

The search keeps on its stack, for every module of the chain it has walked, the dependencies
that it has not come to yet. The stack has as many entries as there are modules left over by the
sort, and an assertion says that they are enough. They need not be: a module on the chain leaves
all its dependencies but one, in the worst order, so that what counts is how many dependencies
there are along a path, and not how many modules there are.

Where a path is walked without repetition, the sum of these numbers can be reached; where the
search goes round a cycle that avoids its root, it can leave something each time, unless there
is nothing to leave. These are the two ways in which the stack overflows, and
`stackSuffices_iff` says that there is no other.

With that it is known when the report ends in every order (`reportCycles_ends_iff`): when every
module on a cycle hits every cycle it can reach, and the stack suffices.
-/

set_option linter.unusedSectionVars false

namespace Kmod.Depmod

open Relation Kmod.Digraph Kmod.Lists

variable {μ : Type} [DecidableEq μ] {d : Depmod μ}

/-- `assert(is < stack_size)` never fails. -/
def StackSuffices (d : Depmod μ) : Prop :=
  ∀ s, sortModules d d.modules.length = .ok s → ∀ fuel,
    depmodReportCycles { d with depSortIdx := s.depSortIdx } false fuel s.users ≠
      .error .assertFailed

/-- What the modules of a chain leave on the stack at most. -/
def slack (d : Depmod μ) (ps : List μ) : Nat := (ps.map (fun p => (d.deps p).length - 1)).sum

/-- `n` entries are enough for the searches from `r`. -/
structure Roomy (d : Depmod μ) (n : Nat) (r : μ) : Prop where
  /-- A cycle that avoids `r` has no branches. -/
  single : ∀ u, ReflTransGen d.Needs r u → OnCycle (Avoid d.Needs r) u → (d.deps u).length ≤ 1
  /-- Nor are there too many of them along a path. -/
  paths : ∀ x ps, Walk d r x ps → (x :: ps).Nodup → slack d ps + (d.deps x).length ≤ n

/-! ## Walks without their loops -/

theorem slack_cons (p : μ) (ps : List μ) :
    slack d (p :: ps) = ((d.deps p).length - 1) + slack d ps := by
  unfold slack
  rw [List.map_cons, List.sum_cons]

theorem slack_append (ps qs : List μ) : slack d (ps ++ qs) = slack d ps + slack d qs := by
  unfold slack
  rw [List.map_append, List.sum_append]

theorem slack_eq_zero {ps : List μ} (h : ∀ p ∈ ps, (d.deps p).length ≤ 1) : slack d ps = 0 := by
  unfold slack
  refine List.sum_eq_zero fun n hn => ?_
  obtain ⟨p, hp, rfl⟩ := List.mem_map.mp hn
  exact Nat.sub_eq_zero_of_le (h p hp)

section Walks

variable {r : μ}

/-- A walk begins at its root. -/
theorem Walk.root_last {x : μ} {ps : List μ} (h : Walk d r x ps) :
    (x :: ps).getLast? = some r := by
  induction h with
  | root => rfl
  | dep _ _ ih => rw [List.getLast?_cons_cons, ih]

/-- A walk that comes by `y`: what is before, and where it goes from there without the root. -/
theorem Walk.split {y : μ} (hy : y ≠ r) {post : List μ} : ∀ {pre : List μ} {x : μ} {ps : List μ},
    Walk d r x ps → x :: ps = pre ++ y :: post → r ∉ pre →
      Walk d r y post ∧ ReflTransGen (Avoid d.Needs r) y x ∧
        ∀ z ∈ pre, ReflTransGen (Avoid d.Needs r) y z ∧ ReflTransGen (Avoid d.Needs r) z x := by
  intro pre
  induction pre with
  | nil =>
    intro x ps h heq _
    obtain ⟨rfl, rfl⟩ := List.cons.inj heq
    exact ⟨h, .refl, fun z hz => absurd hz List.not_mem_nil⟩
  | cons x' pre ih =>
    intro x ps h heq hr
    obtain ⟨rfl, hps⟩ := List.cons.inj heq
    rw [List.mem_cons, not_or] at hr
    cases h with
    | root => exact absurd hps (by simp)
    | @dep w _ ps' h hwx =>
      obtain ⟨hwalk, hyw, hall⟩ := ih h hps hr.2
      have hw : w ≠ r := by
        rintro rfl
        cases pre with
        | nil => exact hy (List.cons.inj hps).1.symm
        | cons w' pre => exact hr.2 ((List.cons.inj hps).1 ▸ List.mem_cons_self)
      have hedge : Avoid d.Needs r w x := ⟨hwx, hw, Ne.symm hr.1⟩
      refine ⟨hwalk, hyw.tail hedge, fun z hz => ?_⟩
      rcases List.mem_cons.mp hz with rfl | hz
      · exact ⟨hyw.tail hedge, .refl⟩
      · exact ⟨(hall z hz).1, (hall z hz).2.tail hedge⟩

/-- The chain of a vertex that a search can come to: the root is not passed again. -/
inductive Trail (d : Depmod μ) (r : μ) : μ → List μ → Prop where
  | root : Trail d r r []
  | dep {x y : μ} {ps : List μ} : Trail d r x ps → (x = r → ps = []) → d.Needs x y →
      Trail d r y (x :: ps)

/-- **Loops add nothing.** There is a walk without repetition that leaves as much. -/
theorem Trail.erase (hsingle : ∀ u, ReflTransGen d.Needs r u → OnCycle (Avoid d.Needs r) u →
      (d.deps u).length ≤ 1) {x : μ} {ps : List μ} (h : Trail d r x ps) (hx : x = r → ps = []) :
    ∃ ps', Walk d r x ps' ∧ (x :: ps').Nodup ∧ slack d ps' = slack d ps := by
  induction h with
  | root => exact ⟨[], .root, List.nodup_singleton _, rfl⟩
  | @dep x y ps _ hx' hxy ih =>
    obtain ⟨ps', hwalk, hnodup, hslack⟩ := ih hx'
    have hcons : slack d (x :: ps') = slack d (x :: ps) := by rw [slack_cons, slack_cons, hslack]
    have hy : y ≠ r := fun hy => List.cons_ne_nil _ _ (hx hy)
    by_cases hmem : y ∈ x :: ps'
    · -- the walk has come back to `y`, on a cycle without branches
      obtain ⟨pre, post, heq⟩ := List.append_of_mem hmem
      have hlast := hwalk.root_last
      rw [heq, List.getLast?_append_cons] at hlast
      rw [heq, List.nodup_append] at hnodup
      have hpre : r ∉ pre := fun hr =>
        hnodup.2.2 r hr r (List.mem_of_getLast? hlast) rfl
      have hx : x ≠ r := by
        rintro rfl
        cases pre with
        | nil => exact hy (List.cons.inj heq).1.symm
        | cons w pre => exact hpre ((List.cons.inj heq).1 ▸ List.mem_cons_self)
      obtain ⟨hwalk', hyx, hall⟩ := hwalk.split hy heq hpre
      have hedge : Avoid d.Needs r x y := ⟨hxy, hx, hy⟩
      have honeY : (d.deps y).length ≤ 1 :=
        hsingle y hwalk'.reach (TransGen.tail' hyx hedge)
      have honePre : ∀ z ∈ pre, (d.deps z).length ≤ 1 := fun z hz => by
        obtain ⟨hyz, hzx⟩ := hall z hz
        exact hsingle z (hwalk'.reach.trans (reflTransGen_of_avoid hyz))
          (TransGen.trans_left (TransGen.tail' hzx hedge) hyz)
      refine ⟨post, hwalk', hnodup.2.1, ?_⟩
      rw [← hcons, heq, slack_append, slack_cons, slack_eq_zero honePre,
        Nat.sub_eq_zero_of_le honeY, Nat.zero_add, Nat.zero_add]
    · exact ⟨x :: ps', .dep hwalk hxy, List.nodup_cons.mpr ⟨hmem, hnodup⟩, hcons⟩

end Walks

/-- What a walk of the search piles up is no more than what its modules leave. -/
theorem Piled.trail {r x : μ} {h : Nat} (hx : Piled d.deps r x h) :
    ∃ ps, Trail d r x ps ∧ (x = r → ps = []) ∧ h ≤ slack d ps := by
  induction hx with
  | root => exact ⟨[], .root, fun _ => rfl, Nat.zero_le _⟩
  | @dep x y h i _ hy hyr ih =>
    obtain ⟨ps, htrail, hroot, hle⟩ := ih
    refine ⟨x :: ps, htrail.dep hroot (List.mem_of_getElem? hy), fun he => absurd he hyr, ?_⟩
    have hi := (List.getElem?_eq_some_iff.mp hy).1
    rw [slack_cons]
    omega

/-- **Where there is room for every order**, every search has room. -/
theorem Roomy.fits {n : Nat} {r : μ} (h : Roomy d n r) : Fits d.deps n r := by
  intro x k hx _
  obtain ⟨ps, htrail, hroot, hle⟩ := hx.trail
  obtain ⟨ps', hwalk, hnodup, hslack⟩ := htrail.erase h.single hroot
  have hpath := h.paths _ _ hwalk hnodup
  omega

/-! ## The condition is one on the graph -/

section Orders

variable {d' : Depmod μ} {r : μ}

theorem Walk.mem (hd : d.WellFormed) (hr : r ∈ d.modules) {x : μ} {ps : List μ}
    (h : Walk d r x ps) : x ∈ d.modules ∧ ∀ p ∈ ps, p ∈ d.modules :=
  ⟨hd.mem_of_reach hr h.reach, fun p hp => hd.mem_of_reach hr (h.parent p hp).1⟩

theorem Reordered.walk (h : Reordered d d') (hd : d.WellFormed) (hr : r ∈ d.modules) {x : μ}
    {ps : List μ} (hw : Walk d r x ps) : Walk d' r x ps := by
  induction hw with
  | root => exact .root
  | dep hw hxy ih => exact .dep ih ((h.needs (hw.mem hd hr).1).mpr hxy)

theorem Reordered.slack (h : Reordered d d') {ps : List μ} (hps : ∀ p ∈ ps, p ∈ d.modules) :
    slack d' ps = slack d ps := by
  unfold Depmod.slack
  congr 1
  exact List.map_congr_left fun p hp => by rw [(h.deps p (hps p hp)).length_eq]

theorem Reordered.roomy (h : Reordered d d') (hd : d.WellFormed) (hf : Fresh d)
    (hr : r ∈ d.modules) {n : Nat} (hroom : Roomy d n r) : Roomy d' n r := by
  have h' := h.symm hd hf
  have hr' := h.modules.mem_iff.mpr hr
  refine ⟨fun u hu hc => ?_, fun x ps hw hnodup => ?_⟩
  · have hu' := h'.reach h.wf hr' hu
    have hum := hd.mem_of_reach hr hu'
    rw [(h.deps u hum).length_eq]
    exact hroom.single u hu' (h'.onCycle_avoid h.wf (h.modules.mem_iff.mpr hum) hc)
  · have hw' := h'.walk h.wf hr' hw
    obtain ⟨hx, hps⟩ := hw'.mem hd hr
    rw [h.slack hps, (h.deps x hx).length_eq]
    exact hroom.paths x ps hw' hnodup

theorem Reordered.below_iff (h : Reordered d d') (hd : d.WellFormed) (hf : Fresh d) {m : μ} :
    Below d' m ↔ Below d m :=
  ⟨(h.symm hd hf).below h.wf, h.below hd⟩

end Orders

/-! ## Where there is room -/

/-- The root loop does not fail if no search from one of its roots does. -/
theorem rootsLoop_room {stackSize fuel : Nat} (hfits : ∀ root, Below d root →
      Fits d.deps stackSize root) :
    ∀ (n : Nat) {s : ReportState μ}, (∀ m ∈ s.roots, Below d m) →
      rootsLoop d false stackSize fuel n s ≠ .error .assertFailed := by
  intro n
  induction n with
  | zero =>
    intro s _
    cases hr : s.roots with
    | nil => rw [rootsLoop_nil hr]; exact fun h => by cases h
    | cons root roots => rw [rootsLoop, hr]; exact fun h => by cases h
  | succ n ih =>
    intro s hs
    cases hr : s.roots with
    | nil => rw [rootsLoop_nil hr]; exact fun h => by cases h
    | cons root roots =>
      rw [hr] at hs
      have hroot : depmodReportCyclesFromRoot d false stackSize fuel root { s with roots := roots } ≠
          .error .assertFailed := search_fits (hfits root (hs root List.mem_cons_self))
      rw [rootsLoop_cons hr]
      cases hrun : depmodReportCyclesFromRoot d false stackSize fuel root
        { s with roots := roots } with
      | error e =>
        rw [hrun] at hroot
        exact hroot
      | ok s' =>
        -- the search only drops roots
        obtain ⟨ys, hys, _⟩ := (search_inv hrun).dropped
        refine ih (fun m hm => hs m (List.mem_cons_of_mem _ ?_))
        rw [hys] at hm
        exact removeAll_subset ys _ hm

/-- **There is room** if every module on or below a cycle has room. -/
theorem stackSuffices_of_roomy (hd : d.WellFormed)
    (hroom : ∀ r, Below d r → Roomy d {m | Below d m}.ncard r) : StackSuffices d := by
  intro s hs fuel
  obtain ⟨s', hs', hinv, hnil⟩ := sortModules_inv hd (Nat.le_refl _)
  obtain rfl : s = s' := Except.ok.inj (hs.symm.trans hs')
  rw [← cyclicRoots_length hd hinv hnil] at hroom
  unfold depmodReportCycles
  refine rootsLoop_room (d := { d with depSortIdx := s.depSortIdx })
    (fun root hb => (hroom root hb).fits) fuel (fun m hm => ?_)
  have hm' : m ∈ cyclicRoots d s.users := hm
  rw [mem_cyclicRoots hd hinv hnil, leftOver_iff_below hd hinv hnil] at hm'
  exact hm'

/-! ## Where there is not -/

/-- What is on the stack after `n` steps down from `r` along `lead`. -/
def climb (d : Depmod μ) (lead : μ → μ) (r : μ) (n : Nat) : Nat :=
  ∑ i ∈ Finset.range n, ((d.deps (lead^[i] r)).length - 1)

/-- `lead` goes along dependencies for `n` steps, and not back to `r`. -/
structure Follows (d : Depmod μ) (lead : μ → μ) (r : μ) (n : Nat) : Prop where
  needs : ∀ i < n, d.Needs (lead^[i] r) (lead^[i + 1] r)
  avoid : ∀ i, 0 < i → i ≤ n → lead^[i] r ≠ r

theorem climb_succ (lead : μ → μ) (r : μ) (n : Nat) :
    climb d lead r (n + 1) = climb d lead r n + ((d.deps (lead^[n] r)).length - 1) :=
  Finset.sum_range_succ _ n

section Descent

variable {r : μ} {lead : μ → μ} (stackSize : Nat) {n : Nat} {s : ReportState μ}

/-- Where the search goes down, if the dependency that leads on is always the last one. -/
theorem search_descends (hv : s.visited r = false) : ∀ n,
    (∀ i < n, (d.deps (lead^[i] r)).getLast? = some (lead^[i + 1] r)) →
    (∀ i, 0 < i → i ≤ n → lead^[i] r ≠ r) →
      (∃ fuel, searchLoop d false stackSize r fuel [⟨r, []⟩] s = .error .assertFailed) ∨
      ∃ ps below s', (∀ fuel, searchLoop d false stackSize r (n + fuel) [⟨r, []⟩] s =
          searchLoop d false stackSize r fuel (⟨lead^[n] r, ps⟩ :: below) s') ∧
        below.length = climb d lead r n ∧ ¬ (s'.visited (lead^[n] r) = true ∧ lead^[n] r = r) := by
  intro n
  induction n with
  | zero =>
    intro _ _
    refine .inr ⟨[], [], s, fun fuel => by rw [Nat.zero_add]; rfl, rfl, fun h => ?_⟩
    have hvis : s.visited r = true := h.1
    rw [hv] at hvis
    cases hvis
  | succ n ih =>
    intro hlast havoid
    rcases ih (fun i hi => hlast i (by omega)) (fun i h0 hi => havoid i h0 (by omega)) with
      hfail | ⟨ps, below, s', hrun, hlen, hexp⟩
    · exact .inl hfail
    · obtain ⟨front, hfront⟩ := List.getLast?_eq_some_iff.mp (hlast n (Nat.lt_succ_self n))
      rcases searchLoop_succ d false stackSize r ⟨lead^[n] r, ps⟩ below s' with
        ⟨stack', s'', hs, he⟩ | he
      · cases hs with
        | report hvis hroot => exact absurd ⟨hvis, hroot⟩ hexp
        | leaf hc hd =>
          have hd : d.deps (lead^[n] r) = [] := hd
          rw [hfront] at hd
          exact absurd hd (by simp)
        | expand hc hd =>
          have hchildren : children d ⟨lead^[n] r, ps⟩ = ⟨lead^[n + 1] r, lead^[n] r :: ps⟩ ::
              front.reverse.map (fun dep => ⟨dep, lead^[n] r :: ps⟩) := by
            unfold children
            rw [hfront, List.reverse_append]
            rfl
          refine .inr ⟨lead^[n] r :: ps,
            front.reverse.map (fun dep => ⟨dep, lead^[n] r :: ps⟩) ++ below, s'.visit (lead^[n] r),
            fun fuel => ?_, ?_, fun h => havoid (n + 1) (by omega) (by omega) h.2⟩
          · rw [Nat.add_assoc, Nat.add_comm 1 fuel, hrun, he, hchildren]
            rfl
          · rw [climb_succ, hfront, List.length_append, List.length_append, List.length_map,
              List.length_reverse, hlen, List.length_singleton]
            omega
      · exact .inl ⟨n + 1, by rw [hrun 1]; exact he 0⟩

/-- **The stack overflows** if more is left on it than it can hold. -/
theorem search_overflows (hv : s.visited r = false)
    (hlast : ∀ i < n, (d.deps (lead^[i] r)).getLast? = some (lead^[i + 1] r))
    (havoid : ∀ i, 0 < i → i ≤ n → lead^[i] r ≠ r) (hdeps : d.deps (lead^[n] r) ≠ [])
    (hover : stackSize < climb d lead r n + (d.deps (lead^[n] r)).length) :
    ∃ fuel, searchLoop d false stackSize r fuel [⟨r, []⟩] s = .error .assertFailed := by
  rcases search_descends stackSize hv n hlast havoid with
    hfail | ⟨ps, below, s', hrun, hlen, hexp⟩
  · exact hfail
  · refine ⟨n + 1, ?_⟩
    rw [hrun 1, searchLoop, searchStep_full (v := ⟨lead^[n] r, ps⟩) hexp hdeps (by
      rw [hlen]; exact hover)]
    rfl

end Descent

/-! ## An order for it -/

/-- A list with one of its elements at the end. -/
def lastDep (l : List μ) (x : μ) : List μ := if x ∈ l then l.erase x ++ [x] else l

theorem lastDep_perm (l : List μ) (x : μ) : (lastDep l x).Perm l := by
  unfold lastDep
  split
  · next h => exact (List.perm_append_singleton x (l.erase x)).trans (List.perm_cons_erase h).symm
  · exact .refl l

theorem getLast?_lastDep {l : List μ} {x : μ} (h : x ∈ l) : (lastDep l x).getLast? = some x := by
  unfold lastDep
  rw [if_pos h, List.getLast?_concat]

/-- The table where `lead` names the last dependencies. -/
def leadDeps (d : Depmod μ) (lead : μ → μ) : Depmod μ :=
  { d with deps := fun m => lastDep (d.deps m) (lead m) }

/-- The same with `r` as the first module. -/
def leadFrom (d : Depmod μ) (lead : μ → μ) (r : μ) : Depmod μ :=
  reorder (leadDeps d lead) (r :: d.modules.erase r)

theorem leadDeps_reordered (hd : d.WellFormed) (hf : Fresh d) (lead : μ → μ) :
    Reordered d (leadDeps d lead) where
  wf := {
    count_lt := hd.count_lt
    idx_eq := hd.idx_eq
    deps_nodup := fun m hm => (lastDep_perm _ _).nodup_iff.mpr (hd.deps_nodup m hm)
    deps_mem := fun m hm x hx => hd.deps_mem m hm x ((lastDep_perm _ _).mem_iff.mp hx)
    users_eq := by
      intro m hm
      rw [show (leadDeps d lead).users m = d.users m from rfl, hd.users_eq m hm]
      refine congrArg List.length (List.filter_congr fun x _ => ?_)
      exact decide_eq_decide.mpr (lastDep_perm _ _).mem_iff.symm }
  fresh := hf
  modules := .refl _
  deps := fun _ _ => lastDep_perm _ _

theorem leadFrom_reordered (hd : d.WellFormed) (hf : Fresh d) (lead : μ → μ) {r : μ}
    (hr : r ∈ d.modules) : Reordered d (leadFrom d lead r) := by
  have h₁ := leadDeps_reordered hd hf lead
  have hperm : (r :: d.modules.erase r).Perm (leadDeps d lead).modules :=
    (List.perm_cons_erase hr).symm
  have h₂ := reorder_reordered h₁.wf h₁.fresh hperm
  exact ⟨h₂.wf, h₂.fresh, h₂.modules.trans h₁.modules, fun _ _ => lastDep_perm _ _⟩

/-- In that order, the search from `r` overflows the stack. -/
theorem not_suffices_of_follows (hd : d.WellFormed) (hf : Fresh d) {r : μ} (hb : Below d r)
    {lead : μ → μ} {n : Nat} (h : Follows d lead r n) (hdeps : d.deps (lead^[n] r) ≠ [])
    (hover : {m | Below d m}.ncard < climb d lead r n + (d.deps (lead^[n] r)).length) :
    ¬ StackSuffices (leadFrom d lead r) := by
  intro hsuff
  have hre := leadFrom_reordered hd hf lead (hb.mem hd)
  obtain ⟨s, hs, hinv, hnil⟩ := sortModules_inv hre.wf (Nat.le_refl _)
  -- `r` is the first root, and the stack is as large as it always is
  have hbelow := (hre.below_iff hd hf).mpr hb
  obtain ⟨rest, hroots⟩ : ∃ rest, cyclicRoots (leadFrom d lead r) s.users = r :: rest := by
    obtain ⟨u, hu⟩ := (leftOver_iff hinv hnil (hbelow.mem hre.wf)).mp
      ((leftOver_iff_below hre.wf hinv hnil).mpr hbelow)
    rw [cyclicRoots_eq hre.wf hinv.len]
    exact ⟨_, List.filter_cons_of_pos (by rw [hu]; simp)⟩
  have hsize : (cyclicRoots (leadFrom d lead r) s.users).length = {m | Below d m}.ncard := by
    rw [cyclicRoots_length hre.wf hinv hnil]
    exact congrArg Set.ncard (Set.ext fun m => hre.below_iff hd hf)
  let D : Depmod μ := { leadFrom d lead r with depSortIdx := s.depSortIdx }
  have hlen : ∀ m, (D.deps m).length = (d.deps m).length := fun m => (lastDep_perm _ _).length_eq
  have hclimb : climb D lead r n = climb d lead r n := by
    unfold climb
    simp only [hlen]
  obtain ⟨fuel, hfail⟩ := search_overflows (d := D)
    (cyclicRoots (leadFrom d lead r) s.users).length (s := ⟨rest, d.visited, [], []⟩)
    (hf r (hb.mem hd))
    (fun i hi => by
      rw [Function.iterate_succ_apply']
      exact getLast?_lastDep (Function.iterate_succ_apply' lead i r ▸ h.needs i hi))
    h.avoid
    (fun hnone => hdeps (List.length_eq_zero_iff.mp (by rw [← hlen, hnone]; rfl)))
    (by rw [hsize, hclimb, hlen]; exact hover)
  cases fuel with
  | zero => cases hfail
  | succ fuel =>
    refine hsuff s hs (fuel + 1) ?_
    unfold depmodReportCycles
    rw [rootsLoop_cons (show _ = r :: rest from hroots)]
    have hfirst : depmodReportCyclesFromRoot D false
        (cyclicRoots (leadFrom d lead r) s.users).length (fuel + 1) r ⟨rest, d.visited, [], []⟩ =
          .error .assertFailed := hfail
    exact congrArg (fun res => Except.bind res _) hfirst

/-! ## Paths that leave too much -/

/-- A walk without repetition is one that some function leads along. -/
theorem Walk.exists_lead {r x : μ} {ps : List μ} (h : Walk d r x ps) (hnodup : (x :: ps).Nodup) :
    ∃ lead : μ → μ, Follows d lead r ps.length ∧ lead^[ps.length] r = x ∧
      (∀ i < ps.length, lead^[i] r ∈ ps) ∧ climb d lead r ps.length = slack d ps := by
  induction h with
  | root =>
    exact ⟨id, ⟨fun i hi => absurd hi (Nat.not_lt_zero i), fun i h0 hi => by
      rw [List.length_nil] at hi; omega⟩, rfl, fun i hi => absurd hi (Nat.not_lt_zero i), rfl⟩
  | @dep x y ps hw hxy ih =>
    obtain ⟨hy, hnodup⟩ := List.nodup_cons.mp hnodup
    obtain ⟨lead, hfollows, hend, hmem, hclimb⟩ := ih hnodup
    have hx := (List.nodup_cons.mp hnodup).1
    -- up to `x` nothing changes, as it comes nowhere before
    have hsame : ∀ i ≤ ps.length, (Function.update lead x y)^[i] r = lead^[i] r := by
      intro i
      induction i with
      | zero => exact fun _ => rfl
      | succ i ihi =>
        intro hi
        rw [Function.iterate_succ_apply', Function.iterate_succ_apply', ihi (by omega),
          Function.update_of_ne (fun heq : lead^[i] r = x => hx (heq ▸ hmem i (by omega)))]
    have hnext : (Function.update lead x y)^[ps.length + 1] r = y := by
      rw [Function.iterate_succ_apply', hsame _ (Nat.le_refl _), hend, Function.update_self]
    have hyr : y ≠ r := fun heq => hy (heq ▸ List.mem_of_getLast? hw.root_last)
    refine ⟨Function.update lead x y, ⟨fun i hi => ?_, fun i h0 hi => ?_⟩, hnext,
      fun i hi => ?_, ?_⟩
    · rw [List.length_cons] at hi
      rcases Nat.lt_succ_iff_lt_or_eq.mp hi with hi | rfl
      · rw [hsame i (by omega), hsame (i + 1) hi]
        exact hfollows.needs i hi
      · rw [hnext, hsame _ (Nat.le_refl _), hend]
        exact hxy
    · rw [List.length_cons] at hi
      rcases Nat.le_succ_iff.mp hi with hi | rfl
      · rw [hsame i hi]
        exact hfollows.avoid i h0 hi
      · rw [hnext]
        exact hyr
    · rw [List.length_cons] at hi
      rw [hsame i (by omega)]
      rcases Nat.lt_succ_iff_lt_or_eq.mp hi with hi | rfl
      · exact List.mem_cons_of_mem _ (hmem i hi)
      · rw [hend]
        exact List.mem_cons_self
    · rw [List.length_cons, climb_succ, slack_cons, hsame _ (Nat.le_refl _), hend, ← hclimb,
        Nat.add_comm]
      refine congrArg _ (Finset.sum_congr rfl fun i hi => ?_)
      rw [hsame i (Nat.le_of_lt (Finset.mem_range.mp hi))]

/-- The last module of a path that leaves too much may as well have dependencies. -/
theorem Walk.exists_branching {r : μ} {n : Nat} {x : μ} {ps : List μ} (h : Walk d r x ps)
    (hnodup : (x :: ps).Nodup) (hover : n < slack d ps + (d.deps x).length) :
    ∃ x ps, Walk d r x ps ∧ (x :: ps).Nodup ∧ d.deps x ≠ [] ∧
      n < slack d ps + (d.deps x).length := by
  by_cases hdeps : d.deps x = []
  · rw [hdeps] at hover
    cases h with
    | root => exact absurd hover (Nat.not_lt_zero n)
    | @dep w _ ps hw hwx =>
      refine ⟨w, ps, hw, (List.nodup_cons.mp hnodup).2, List.ne_nil_of_mem hwx, ?_⟩
      rw [slack_cons, List.length_nil] at hover
      omega
  · exact ⟨x, ps, h, hnodup, hdeps, hover⟩

/-! ## Cycles that leave something -/

/-- What is left grows without bound where a vertex that leaves something comes again and again. -/
theorem exists_climb_ge {lead : μ → μ} {r u : μ} (hagain : ∀ i, ∃ j, i ≤ j ∧ lead^[j] r = u)
    (hu : 1 < (d.deps u).length) : ∀ k, ∃ n, k ≤ climb d lead r n := by
  intro k
  induction k with
  | zero => exact ⟨0, Nat.zero_le _⟩
  | succ k ih =>
    obtain ⟨n, hn⟩ := ih
    obtain ⟨j, hj, hju⟩ := hagain n
    have hmono : climb d lead r n ≤ climb d lead r j :=
      Finset.sum_le_sum_of_subset (Finset.range_mono hj)
    refine ⟨j + 1, ?_⟩
    rw [climb_succ, hju]
    omega

/-- A cycle that avoids `r` can be gone round for ever. -/
theorem exists_lead_round {r u : μ} (hru : ReflTransGen d.Needs r u)
    (hu : OnCycle (Avoid d.Needs r) u) :
    ∃ lead : μ → μ, (∀ n, Follows d lead r n) ∧ ∀ i, ∃ j, i ≤ j ∧ lead^[j] r = u := by
  obtain ⟨f, hstep, hback⟩ := Digraph.exists_lead hu
  obtain ⟨y, hry, _, hyu⟩ := exists_avoid_walk hru (onCycle_avoid_ne hu)
  have hwalk : ∀ i, TransGen (Avoid d.Needs r) (f^[i] y) u := by
    intro i
    induction i with
    | zero => exact TransGen.trans_right hyu hu
    | succ i ih =>
      rw [Function.iterate_succ_apply']
      exact (hstep _ ih).2
  have hne : ∀ i, f^[i] y ≠ r := by
    intro i
    obtain ⟨_, hedge, _⟩ := TransGen.head'_iff.mp (hwalk i)
    exact hedge.2.1
  have hlead : ∀ i, (Function.update f r y)^[i + 1] r = f^[i] y := by
    intro i
    induction i with
    | zero => exact Function.update_self ..
    | succ i ih =>
      rw [Function.iterate_succ_apply', ih, Function.update_of_ne (hne i),
        Function.iterate_succ_apply']
  refine ⟨Function.update f r y, fun n => ⟨fun i _ => ?_, fun i h0 _ => ?_⟩, fun i => ?_⟩
  · cases i with
    | zero =>
      rw [hlead 0]
      exact hry
    | succ i =>
      rw [hlead i, hlead (i + 1), Function.iterate_succ_apply']
      exact (hstep _ (hwalk i)).1.1
  · obtain ⟨i, rfl⟩ := Nat.exists_eq_succ_of_ne_zero (Nat.ne_of_gt h0)
    rw [hlead i]
    exact hne i
  · obtain ⟨n, hn⟩ := hback _ (hwalk i)
    refine ⟨n + 1 + i + 1, by omega, ?_⟩
    rw [hlead, Function.iterate_add_apply]
    exact hn

/-! ## The main results -/

/-- If there is room in every order, then every module has it. -/
theorem roomy_of_suffices (hd : d.WellFormed) (hf : Fresh d)
    (hsuff : ∀ d', Reordered d d' → StackSuffices d') {r : μ} (hb : Below d r) :
    Roomy d {m | Below d m}.ncard r := by
  refine ⟨fun u hru hu => ?_, fun x ps hw hnodup => ?_⟩
  · by_contra hbranch
    obtain ⟨lead, hfollows, hagain⟩ := exists_lead_round hru hu
    obtain ⟨n, hn⟩ := exists_climb_ge (d := d) hagain (Nat.lt_of_not_le hbranch)
      ({m | Below d m}.ncard + 1)
    refine not_suffices_of_follows hd hf hb (hfollows n) ?_ (by omega)
      (hsuff _ (leadFrom_reordered hd hf lead (hb.mem hd)))
    exact List.ne_nil_of_mem ((hfollows (n + 1)).needs n (Nat.lt_succ_self n))
  · by_contra hover
    obtain ⟨x, ps, hw, hnodup, hdeps, hover⟩ := hw.exists_branching hnodup (Nat.lt_of_not_le hover)
    obtain ⟨lead, hfollows, hend, _, hclimb⟩ := hw.exists_lead hnodup
    refine not_suffices_of_follows hd hf hb hfollows (hend ▸ hdeps) ?_
      (hsuff _ (leadFrom_reordered hd hf lead (hb.mem hd)))
    rw [hend, hclimb]
    exact hover

/-- Room is the same in every order. -/
theorem Reordered.allRoomy {d' : Depmod μ} (hre : Reordered d d') (hd : d.WellFormed)
    (hf : Fresh d) (hroom : ∀ r, Below d r → Roomy d {m | Below d m}.ncard r) {r : μ}
    (hb : Below d' r) : Roomy d' {m | Below d' m}.ncard r := by
  have hcard : {m | Below d' m}.ncard = {m | Below d m}.ncard :=
    congrArg Set.ncard (Set.ext fun m => hre.below_iff hd hf)
  have hb := (hre.below_iff hd hf).mp hb
  rw [hcard]
  exact hre.roomy hd hf (hb.mem hd) (hroom r hb)

/--
**When the stack is large enough.** For every module table: in every order of the module array
and of the `deps` arrays the assertion holds throughout, if and only if for every module `r` on
or below a cycle, no cycle that `r` can reach and that avoids it has a branch, and along no path
from `r` there are more branches than modules on or below cycles.
-/
theorem stackSuffices_iff (hd : d.WellFormed) (hf : Fresh d) :
    (∀ d', Reordered d d' → StackSuffices d') ↔
      ∀ r, Below d r → Roomy d {m | Below d m}.ncard r :=
  ⟨fun hsuff _ hb => roomy_of_suffices hd hf hsuff hb, fun hroom _ hre =>
    stackSuffices_of_roomy hre.wf (fun _ hb => hre.allRoomy hd hf hroom hb)⟩

theorem stackSuffices_iff_oneCycle :
    (∀ d', Reordered oneCycle d' → StackSuffices d') ↔
      ∀ r, Below oneCycle r → Roomy oneCycle {m | Below oneCycle m}.ncard r :=
  stackSuffices_iff (tableOf_wellFormed (by decide) (by decide)) (fun _ _ => rfl)

/-- Three modules that need each other. -/
def triangle : Depmod (Fin 3) :=
  tableOf 3 ![[1, 2], [0, 2], [0, 1]] (fun _ => []) (fun _ => []) (fun _ => none)

/-- The three modules are left over, and the search from the first needs a fourth entry. -/
theorem triangle_overflows :
    triangle.WellFormed ∧ Fresh triangle ∧ ¬ StackSuffices triangle ∧
      ∃ s, sortModules triangle 3 = .ok s ∧ (cyclicRoots triangle s.users).length = 3 ∧
        depmodReportCycles { triangle with depSortIdx := s.depSortIdx } false 4 s.users =
          .error .assertFailed := by
  have hrun : ∃ s, sortModules triangle 3 = .ok s ∧ (cyclicRoots triangle s.users).length = 3 ∧
      depmodReportCycles { triangle with depSortIdx := s.depSortIdx } false 4 s.users =
        .error .assertFailed := ⟨_, rfl, rfl, rfl⟩
  refine ⟨tableOf_wellFormed (by decide) (by decide), fun _ _ => rfl, fun h => ?_, hrun⟩
  obtain ⟨s, hs, _, hfail⟩ := hrun
  exact h s hs 4 hfail

/-! ## When the report ends -/

/-- A report that ends does not fail. -/
theorem stackSuffices_of_ends (h : ReportEnds d false) : StackSuffices d := by
  intro s hs fuel hfail
  obtain ⟨fuel', r, hrun⟩ := h s hs
  have hsame := reportCycles_unique (by rw [hfail]; simp)
    (show depmodReportCycles { d with depSortIdx := s.depSortIdx } false fuel' s.users ≠ _ by
      rw [hrun]; simp)
  rw [hfail, hrun] at hsame
  cases hsame

/-- A module on a cycle that some cycle avoids is the first root in some order. -/
theorem hitsAll_of_ends (hd : d.WellFormed) (hf : Fresh d) {ndebug : Bool}
    (hends : ∀ d', Reordered d d' → ReportEnds d' ndebug) {m : μ} (hm : m ∈ d.modules)
    (hc : OnCycle d.Needs m) : HitsAll d.Needs m := by
  by_contra hbad
  have hre := reorder_reordered hd hf (List.perm_cons_erase hm).symm
  obtain ⟨s, hs, hinv, hnil⟩ := sortModules_inv hre.wf (Nat.le_refl _)
  obtain ⟨fuel, r, hrun⟩ := hends _ hre s hs
  have hleft : LeftOver (reorder d (m :: d.modules.erase m)) s m :=
    leftOver_of_onCycle hre.wf hinv (List.mem_cons_self ..) (hre.onCycle hd hm hc)
  obtain ⟨u, hu⟩ := (leftOver_iff hinv hnil hleft.1).mp hleft
  obtain ⟨rest, hroots⟩ : ∃ rest,
      cyclicRoots (reorder d (m :: d.modules.erase m)) s.users = m :: rest := by
    rw [cyclicRoots_eq hre.wf hinv.len]
    exact ⟨_, List.filter_cons_of_pos (by rw [hu]; simp)⟩
  let D : Depmod μ := { reorder d (m :: d.modules.erase m) with depSortIdx := s.depSortIdx }
  have hbad' : ¬ HitsAll D.Needs m := fun hhit => hbad (hre.hitsAll hd hm hhit)
  have hrun' : rootsLoop D ndebug (cyclicRoots (reorder d (m :: d.modules.erase m)) s.users).length
      fuel fuel ⟨m :: rest, d.visited, [], []⟩ = .ok r := by
    rw [← hroots]
    exact hrun
  exact rootsLoop_diverges rfl (hf m hm) hbad' fuel fuel hrun'

/-- In one order: the report ends if every module hits its cycles and has room. -/
theorem ends_of_hitsAll (hd : d.WellFormed) (ndebug : Bool)
    (hall : ∀ m ∈ d.modules, OnCycle d.Needs m → HitsAll d.Needs m)
    (hroom : ∀ r, Below d r → Roomy d {m | Below d m}.ncard r) : ReportEnds d ndebug := by
  intro s hs
  obtain ⟨s', hs', hinv, hnil⟩ := sortModules_inv hd (Nat.le_refl _)
  obtain rfl : s = s' := Except.ok.inj (hs.symm.trans hs')
  rw [← cyclicRoots_length hd hinv hnil] at hroom
  let D : Depmod μ := { d with depSortIdx := s.depSortIdx }
  have hinit : AllHit D (cyclicRoots d s.users).length
      ⟨cyclicRoots d s.users, d.visited, [], []⟩ := by
    refine ⟨cyclicRoots_nodup hd hinv, fun m hm => ?_⟩
    have hleft := (mem_cyclicRoots hd hinv hnil).mp hm
    have hbelow := (leftOver_iff_below hd hinv hnil).mp hleft
    exact ⟨hleft.1, hitsAll_of_leftOver hinv hnil hall hleft, (hroom m hbelow).fits⟩
  obtain ⟨fuel, r, hrun⟩ := rootsLoop_ends ndebug _ (AllHit D (cyclicRoots d s.users).length)
    (fun _ _ _ => allHit_step (hd.with_depSortIdx _) ndebug _) (cyclicRoots d s.users).length _
    (Nat.le_refl _) hinit
  exact ⟨_, r, reportCycles_of_rootsLoop (d := D) hrun⟩

/--
**When the cycle report ends.** For every module table: `depmod_report_cycles` comes to its end for
every order of the module array and of the `deps` arrays, with or without assertions, if and only
if every module on a cycle lies on every cycle that can be reached from it, and every module on or
below a cycle has room on the stack.
-/
theorem reportCycles_ends_iff (hd : d.WellFormed) (hf : Fresh d) :
    (∀ d', Reordered d d' → ∀ ndebug, ReportEnds d' ndebug) ↔
      (∀ m ∈ d.modules, OnCycle d.Needs m → HitsAll d.Needs m) ∧
        ∀ r, Below d r → Roomy d {m | Below d m}.ncard r := by
  refine ⟨fun hends => ⟨fun m hm hc => ?_, fun r hb => ?_⟩, fun ⟨hall, hroom⟩ d' hre ndebug => ?_⟩
  · exact hitsAll_of_ends hd hf (fun d' hre => hends d' hre true) hm hc
  · exact roomy_of_suffices hd hf (fun d' hre => stackSuffices_of_ends (hends d' hre false)) hb
  · have hre' := hre.symm hd hf
    refine ends_of_hitsAll hre.wf ndebug (fun m hm hc => ?_)
      (fun r hb => hre.allRoomy hd hf hroom hb)
    have hm' := hre.modules.mem_iff.mp hm
    exact hre'.hitsAll hre.wf hm (hall m hm' (hre'.onCycle hre.wf hm hc))

theorem reportCycles_ends_iff_oneCycle :
    (∀ d', Reordered oneCycle d' → ∀ ndebug, ReportEnds d' ndebug) ↔
      (∀ m ∈ oneCycle.modules, OnCycle oneCycle.Needs m → HitsAll oneCycle.Needs m) ∧
        ∀ r, Below oneCycle r → Roomy oneCycle {m | Below oneCycle m}.ncard r :=
  reportCycles_ends_iff (tableOf_wellFormed (by decide) (by decide)) (fun _ _ => rfl)

end Kmod.Depmod
