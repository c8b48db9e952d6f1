import Kmod.Depmod.SearchStack

/-!
# The loop over the roots

`depmod_report_cycles` starts one search per root it has left. Whether it ends
depends on the order of the modules: a search ends if its root hits every cycle
within reach, and an unlucky root is one that some cycle avoids. Then the search
goes on for ever or until the stack is full.

So the questions about the report are asked of a graph, over all orders of the
module array and of the `deps` arrays (`Reordered`). This file has the rules for
the loop: what makes it end (`rootsLoop_ends`), and which root keeps it from
that (`rootsLoop_diverges`). Two cycles joined by an edge, or one cycle with a
chord, are enough.
-/

set_option linter.unusedSectionVars false

namespace Kmod.Depmod

open Relation Kmod.Digraph Kmod.Lists

variable {μ : Type} [DecidableEq μ] {d : Depmod μ}

/-- No module has been visited yet: `struct mod` is allocated zeroed. -/
def Fresh (d : Depmod μ) : Prop := ∀ m ∈ d.modules, d.visited m = false

/-- The cycle report of `d` comes to its end. -/
def ReportEnds (d : Depmod μ) (ndebug : Bool) : Prop :=
  ∀ s, sortModules d d.modules.length = .ok s →
    ∃ fuel r, depmodReportCycles { d with depSortIdx := s.depSortIdx } ndebug fuel s.users = .ok r

/-- The same modules and dependencies, with the module array and every `deps` array in any order. -/
structure Reordered (d d' : Depmod μ) : Prop where
  wf : d'.WellFormed
  fresh : Fresh d'
  modules : d'.modules.Perm d.modules
  deps : ∀ m ∈ d.modules, (d'.deps m).Perm (d.deps m)

/-! ## The root list -/

/-- The roots are the modules left over, in array order. -/
theorem cyclicRoots_eq (hd : d.WellFormed) {users : List Nat}
    (hlen : users.length = d.modules.length) :
    cyclicRoots d users = d.modules.filter (fun m => 0 < (users[d.idx m]?).getD 0) := by
  have husers : users = d.modules.map (fun m => (users[d.idx m]?).getD 0) := by
    refine List.ext_getElem (by simp [hlen]) (fun i h1 h2 => ?_)
    have hi : i < d.modules.length := by omega
    rw [List.getElem_map, hd.idx_eq i _ (List.getElem?_eq_getElem hi),
      List.getElem?_eq_getElem h1]
    rfl
  have hzip : ∀ (f : μ → Nat) (ms : List μ),
      ((ms.zip (ms.map f)).filter (fun p => 0 < p.2)).map Prod.fst =
          ms.filter (fun m => 0 < f m) := by
    intro f ms
    induction ms with
    | nil => rfl
    | cons m ms ih =>
      by_cases hm : 0 < f m
      · simp [hm, ih]
      · simp [hm, ih]
  conv_lhs => rw [husers]
  exact hzip _ _

section Roots

variable {s : SortState μ}

theorem mem_cyclicRoots (hd : d.WellFormed) (h : SortInv d [] s) (hnil : s.roots = []) {m : μ} :
    m ∈ cyclicRoots d s.users ↔ LeftOver d s m := by
  rw [cyclicRoots_eq hd h.len, List.mem_filter]
  refine ⟨?_, ?_⟩
  · rintro ⟨hm, hpos⟩
    refine (leftOver_iff h hnil hm).mpr ?_
    rw [h.users m hm] at hpos ⊢
    simp only [Option.getD_some, decide_eq_true_eq] at hpos
    exact ⟨_, congrArg some (Nat.succ_pred_eq_of_pos hpos).symm⟩
  · intro hm
    obtain ⟨u, hu⟩ := (leftOver_iff h hnil hm.1).mp hm
    exact ⟨hm.1, by rw [hu]; simp⟩

theorem cyclicRoots_nodup (hd : d.WellFormed) (h : SortInv d [] s) :
    (cyclicRoots d s.users).Nodup := by
  rw [cyclicRoots_eq hd h.len]
  exact hd.nodup.filter _

end Roots

/-! ## Running the root loop -/

theorem rootsLoop_nil {ndebug : Bool} {stackSize fuel n : Nat} {s : ReportState μ}
    (h : s.roots = []) : rootsLoop d ndebug stackSize fuel n s = .ok s := by
  unfold rootsLoop
  rw [h]

theorem rootsLoop_cons {ndebug : Bool} {stackSize fuel n : Nat} {s : ReportState μ} {root : μ}
    {roots : List μ} (h : s.roots = root :: roots) :
    rootsLoop d ndebug stackSize fuel (n + 1) s
      = (depmodReportCyclesFromRoot d ndebug stackSize fuel root { s with roots := roots }).bind
          (rootsLoop d ndebug stackSize fuel n) := by
  unfold rootsLoop
  rw [h]
  rfl

/-- More fuel does not change the outcome of a report that did not run out of it. -/
theorem rootsLoop_mono {ndebug : Bool} {stackSize fuel : Nat} (k j : Nat) :
    ∀ {n : Nat} {s : ReportState μ},
      rootsLoop d ndebug stackSize fuel n s ≠ .error .outOfFuel →
      rootsLoop d ndebug stackSize (fuel + k) (n + j) s =
        rootsLoop d ndebug stackSize fuel n s := by
  intro n
  -- on the bound of the root loop; the fuel is that of the single searches
  induction n with
  | zero =>
    intro s h
    cases hr : s.roots with
    | nil => rw [rootsLoop_nil hr, rootsLoop_nil hr]
    | cons root roots => rw [rootsLoop, hr] at h; exact absurd rfl h
  | succ n ih =>
    intro s h
    cases hr : s.roots with
    | nil => rw [rootsLoop_nil hr, rootsLoop_nil hr]
    | cons root roots =>
      rw [rootsLoop_cons hr] at h
      rw [Nat.add_right_comm, rootsLoop_cons hr, rootsLoop_cons hr]
      -- the search of the first root did not run out of fuel either
      have hsearch : depmodReportCyclesFromRoot d ndebug stackSize fuel root
          { s with roots := roots } ≠ .error .outOfFuel := fun hs => h (by rw [hs]; rfl)
      rw [search_mono k hsearch]
      cases hs : depmodReportCyclesFromRoot d ndebug stackSize fuel root { s with roots := roots } with
      | error e => rfl
      | ok s1 =>
        rw [hs] at h
        exact ih h

/-- Two reports with enough fuel come out alike. -/
theorem reportCycles_unique {ndebug : Bool} {fuel fuel' : Nat} {users : List Nat}
    (h : depmodReportCycles d ndebug fuel users ≠ .error .outOfFuel)
    (h' : depmodReportCycles d ndebug fuel' users ≠ .error .outOfFuel) :
    depmodReportCycles d ndebug fuel users = depmodReportCycles d ndebug fuel' users := by
  unfold depmodReportCycles at *
  rw [← rootsLoop_mono fuel' fuel' h, ← rootsLoop_mono fuel fuel h', Nat.add_comm]

/-- **Ending rule** for the root loop: it ends if every search from a state with `P` does, in a
state with `P`. -/
theorem rootsLoop_ends (ndebug : Bool) (stackSize : Nat) (P : ReportState μ → Prop)
    (hstep : ∀ s root roots, P s → s.roots = root :: roots →
      ∃ fuel s', depmodReportCyclesFromRoot d ndebug stackSize fuel root
        { s with roots := roots } = .ok s' ∧ P s') :
    ∀ (n : Nat) (s : ReportState μ), s.roots.length ≤ n → P s →
      ∃ fuel r, rootsLoop d ndebug stackSize fuel n s = .ok r := by
  intro n
  induction n with
  | zero =>
    intro s hlen _
    have hr : s.roots = [] := List.length_eq_zero_iff.mp (by omega)
    exact ⟨0, s, rootsLoop_nil hr⟩
  | succ n ih =>
    intro s hlen hP
    cases hr : s.roots with
    | nil => exact ⟨0, s, rootsLoop_nil hr⟩
    | cons root roots =>
      obtain ⟨f, s', hf, hP'⟩ := hstep s root roots hP hr
      obtain ⟨ys, hys, _⟩ := (search_inv hf).dropped
      have hshrink : s'.roots.length ≤ n := by
        have h1 := length_removeAll_le ys roots
        rw [hr, List.length_cons] at hlen
        rw [hys]
        show (removeAll roots ys).length ≤ n
        omega
      obtain ⟨f2, r, hf2⟩ := ih s' hshrink hP'
      -- enough fuel for this search and for all that follow
      have hf' : depmodReportCyclesFromRoot d ndebug stackSize (f + f2) root
          { s with roots := roots } = .ok s' := by
        rw [search_mono f2 (by rw [hf]; simp), hf]
      have hrest : rootsLoop d ndebug stackSize (f + f2) n s' = .ok r := by
        rw [Nat.add_comm f f2, ← hf2]
        exact rootsLoop_mono f 0 (by rw [hf2]; simp)
      refine ⟨f + f2, r, ?_⟩
      rw [rootsLoop_cons hr, hf']
      exact hrest

/-- The loop is the report, which has the same bound for the searches and for their iterations. -/
theorem reportCycles_of_rootsLoop {ndebug : Bool} {fuel n : Nat} {users : List Nat}
    {r : ReportState μ} (h : rootsLoop d ndebug (cyclicRoots d users).length fuel n
      ⟨cyclicRoots d users, d.visited, [], []⟩ = .ok r) :
    depmodReportCycles d ndebug (fuel + n) users = .ok r := by
  have hne : rootsLoop d ndebug (cyclicRoots d users).length fuel n
      ⟨cyclicRoots d users, d.visited, [], []⟩ ≠ .error .outOfFuel := by rw [h]; simp
  have hmono := rootsLoop_mono n fuel hne
  rw [h, Nat.add_comm n fuel] at hmono
  exact hmono

/--
A search ends if its root hits every cycle within its reach and the stack is large enough.
-/
theorem search_ends_of_fits (hd : d.WellFormed) (ndebug : Bool) (stackSize : Nat) {root : μ}
    (hm : root ∈ d.modules) (hh : HitsAll d.Needs root) (hfits : Fits d.deps stackSize root)
    {s : ReportState μ} (hv : s.visited root = false) (hnd : s.roots.Nodup)
    (hnot : root ∉ s.roots) :
    ∃ fuel s', depmodReportCyclesFromRoot d ndebug stackSize fuel root s = .ok s' ∧
      Searched d root s' := by
  rcases search_ends hd ndebug stackSize hm hh hv hnd hnot with ⟨fuel, hfull⟩ | hend
  · exact absurd hfull (search_fits hfits)
  · exact hend

/-- A duplicate-free root list of modules that hit every cycle within their reach, and have room
on the stack. -/
structure AllHit (d : Depmod μ) (n : Nat) (s : ReportState μ) : Prop where
  nodup : s.roots.Nodup
  hit : ∀ m ∈ s.roots, m ∈ d.modules ∧ HitsAll d.Needs m ∧ Fits d.deps n m

theorem allHit_step (hd : d.WellFormed) (ndebug : Bool) (stackSize : Nat) {s : ReportState μ}
    {root : μ} {roots : List μ} (h : AllHit d stackSize s) (hr : s.roots = root :: roots) :
    ∃ fuel s', depmodReportCyclesFromRoot d ndebug stackSize fuel root
      { s with roots := roots } = .ok s' ∧ AllHit d stackSize s' := by
  obtain ⟨hnd, hhit⟩ := h
  rw [hr] at hnd hhit
  obtain ⟨hnot, hnd⟩ := List.nodup_cons.mp hnd
  obtain ⟨hm, hh, hfits⟩ := hhit root (List.mem_cons_self ..)
  have hend : ∃ fuel s', depmodReportCyclesFromRoot d ndebug stackSize fuel root
      { s with roots := roots } = .ok s' := by
    cases hv : s.visited root with
    | true => exact ⟨1, _, search_visited (s := { s with roots := roots }) hv⟩
    | false =>
      obtain ⟨fuel, s', hrun, -⟩ := search_ends_of_fits hd ndebug stackSize hm hh hfits
        (s := { s with roots := roots }) hv hnd hnot
      exact ⟨fuel, s', hrun⟩
  obtain ⟨fuel, s', hrun⟩ := hend
  obtain ⟨ys, hys, _⟩ := (search_inv hrun).dropped
  -- the search only drops roots, and the rest hit their cycles as before
  refine ⟨fuel, s', hrun, by rw [hys]; exact nodup_removeAll hnd ys, fun m hin => ?_⟩
  rw [hys] at hin
  exact hhit m (List.mem_cons_of_mem _ (removeAll_subset ys _ hin))

/-! ## The graph in any order -/

/-- Below cycles that are hit by all their modules, every module left over hits every cycle. -/
theorem hitsAll_of_leftOver {s : SortState μ} (h : SortInv d [] s) (hnil : s.roots = [])
    (hall : ∀ m ∈ d.modules, OnCycle d.Needs m → HitsAll d.Needs m) {m : μ}
    (hm : LeftOver d s m) : HitsAll d.Needs m := by
  intro u hmu hu
  obtain ⟨w, hw, hwc, hwm⟩ := leftOver_below_cycle h hnil hm
  -- a cycle that `m` reaches goes back to the cycle above `m`
  have hmut := (hall w hw.1 hwc).mutual (hwm.trans hmu) (onCycle_of_avoid hu)
  have hback : Mutual d.Needs m u := ⟨hmu, hmut.2.trans hwm⟩
  exact hall m hm.1 (onCycle_of_mutual hback (onCycle_avoid_ne hu).symm) u hmu hu

/-- Reordering changes no edge. -/
theorem Reordered.needs {d' : Depmod μ} (h : Reordered d d') {a b : μ} (ha : a ∈ d.modules) :
    d'.Needs a b ↔ d.Needs a b := (h.deps a ha).mem_iff

theorem Reordered.symm {d' : Depmod μ} (h : Reordered d d') (hd : d.WellFormed) (hf : Fresh d) :
    Reordered d' d :=
  ⟨hd, hf, h.modules.symm, fun m hm => (h.deps m (h.modules.mem_iff.mp hm)).symm⟩

theorem Reordered.reach {d' : Depmod μ} (h : Reordered d d') (hd : d.WellFormed) {a b : μ}
    (ha : a ∈ d.modules) (hab : ReflTransGen d.Needs a b) : ReflTransGen d'.Needs a b := by
  induction hab with
  | refl => exact .refl
  | tail hb hbc ih => exact ih.tail ((h.needs (hd.mem_of_reach ha hb)).mpr hbc)

theorem Reordered.onCycle_avoid {d' : Depmod μ} (h : Reordered d d') (hd : d.WellFormed) {m u : μ}
    (hu : u ∈ d.modules) (hc : OnCycle (Avoid d.Needs m) u) : OnCycle (Avoid d'.Needs m) u := by
  -- edge by edge, with the vertices still in the table
  have key : ∀ w, TransGen (Avoid d.Needs m) u w → TransGen (Avoid d'.Needs m) u w := by
    intro w hw
    induction hw with
    | single h1 => exact .single ⟨(h.needs hu).mpr h1.1, h1.2⟩
    | @tail b c hb hbc ih =>
      have hbm := hd.mem_of_reach hu (reflTransGen_of_avoid hb.to_reflTransGen)
      exact ih.tail ⟨(h.needs hbm).mpr hbc.1, hbc.2⟩
  exact key u hc

theorem Reordered.onCycle {d' : Depmod μ} (h : Reordered d d') (hd : d.WellFormed) {u : μ}
    (hu : u ∈ d.modules) (hc : OnCycle d.Needs u) : OnCycle d'.Needs u := by
  obtain ⟨x, hx, hxu⟩ := TransGen.head'_iff.mp hc
  exact TransGen.head' ((h.needs hu).mpr hx) (h.reach hd (hd.deps_mem u hu x hx) hxu)

theorem Reordered.hitsAll {d' : Depmod μ} (h : Reordered d d') (hd : d.WellFormed) {m : μ}
    (hm : m ∈ d.modules) (hhit : HitsAll d'.Needs m) : HitsAll d.Needs m :=
  fun u hu hc => hhit u (h.reach hd hm hu) (h.onCycle_avoid hd (hd.mem_of_reach hm hu) hc)

/-- The table with its module array in the order `ms`. -/
def reorder (d : Depmod μ) (ms : List μ) : Depmod μ :=
  { d with modules := ms, idx := fun m => ms.idxOf m }

theorem reorder_reordered (hd : d.WellFormed) (hf : Fresh d) {ms : List μ}
    (hperm : ms.Perm d.modules) : Reordered d (reorder d ms) where
  wf := {
    count_lt := by
      show ms.length < UINT16_MAX
      rw [hperm.length_eq]
      exact hd.count_lt
    idx_eq := by
      intro i m hi
      obtain ⟨hlt, he⟩ := List.getElem?_eq_some_iff.mp hi
      show ms.idxOf m = i
      rw [← he]
      exact (hperm.nodup_iff.mpr hd.nodup).idxOf_getElem i hlt
    deps_nodup := fun m hm => hd.deps_nodup m (hperm.mem_iff.mp hm)
    deps_mem := fun m hm x hx => hperm.mem_iff.mpr (hd.deps_mem m (hperm.mem_iff.mp hm) x hx)
    users_eq := by
      intro m hm
      show d.users m = (ms.filter _).length
      rw [hd.users_eq m (hperm.mem_iff.mp hm)]
      exact ((hperm.filter _).length_eq).symm }
  fresh := fun m hm => hf m (hperm.mem_iff.mp hm)
  modules := hperm
  deps := fun _ _ => List.Perm.refl _

theorem Reordered.trans {d' d'' : Depmod μ} (h : Reordered d d') (h' : Reordered d' d'') :
    Reordered d d'' :=
  ⟨h'.wf, h'.fresh, h'.modules.trans h.modules,
    fun m hm => (h'.deps m (h.modules.mem_iff.mpr hm)).trans (h.deps m hm)⟩

/-- A first root that some cycle avoids never lets the report end. -/
theorem rootsLoop_diverges {ndebug : Bool} {stackSize : Nat} {s r : ReportState μ} {root : μ}
    {roots : List μ} (hr : s.roots = root :: roots) (hv : s.visited root = false)
    (hbad : ¬ HitsAll d.Needs root) (fuel n : Nat) :
    rootsLoop d ndebug stackSize fuel n s ≠ .ok r := by
  intro h
  cases n with
  | zero =>
    rw [rootsLoop, hr] at h
    cases h
  | succ n =>
    rw [rootsLoop_cons hr] at h
    cases hs : depmodReportCyclesFromRoot d ndebug stackSize fuel root { s with roots := roots } with
    | error e =>
      rw [hs] at h
      cases h
    | ok s' => exact search_diverges (s := { s with roots := roots }) hv hbad hs

/-! ## Two cycles -/

/-- Two modules that need each other: one cycle, which both of them hit. -/
def oneCycle : Depmod (Fin 2) :=
  tableOf 2 ![[1], [0]] (fun _ => []) (fun _ => []) (fun _ => none)

/-- Two cycles joined by an edge: 0 and 1 need each other, so do 2 and 3, and 0 needs 2. -/
def joinedCycles : Depmod (Fin 4) :=
  tableOf 4 ![[1, 2], [0], [3], [2]] (fun _ => []) (fun _ => []) (fun _ => none)

/-- In the cycle that avoids 0, the search from 0 takes one vertex off the stack for the other. -/
theorem joinedCycles_step (ndebug : Bool) (depSortIdx : Fin 4 → Int) (ps : List (Fin 4))
    (v : Vertex (Fin 4)) (s : ReportState (Fin 4)) :
    searchStep { joinedCycles with depSortIdx := depSortIdx } ndebug 4 0 ⟨2, ps⟩ [v] s
      = .ok ([⟨3, 2 :: ps⟩, v], s.visit 2) ∧
    searchStep { joinedCycles with depSortIdx := depSortIdx } ndebug 4 0 ⟨3, ps⟩ [v] s
      = .ok ([⟨2, 3 :: ps⟩, v], s.visit 3) := by
  refine ⟨?_, ?_⟩
  · simp only [searchStep, show ¬((2 : Fin 4) = 0) by decide, decide_false, Bool.and_false]
    cases ndebug <;> rfl
  · simp only [searchStep, show ¬((3 : Fin 4) = 0) by decide, decide_false, Bool.and_false]
    cases ndebug <;> rfl

/-- Once the search from 0 has entered the other cycle it stays there, on a stack of two. -/
theorem joinedCycles_loop (ndebug : Bool) (depSortIdx : Fin 4 → Int) (v : Vertex (Fin 4)) :
    ∀ (fuel : Nat) (ps : List (Fin 4)) (s : ReportState (Fin 4)),
      searchLoop { joinedCycles with depSortIdx := depSortIdx } ndebug 4 0 fuel [⟨2, ps⟩, v] s
        = .error .outOfFuel ∧
      searchLoop { joinedCycles with depSortIdx := depSortIdx } ndebug 4 0 fuel [⟨3, ps⟩, v] s
        = .error .outOfFuel := by
  intro fuel
  induction fuel with
  | zero => intro ps s; exact ⟨rfl, rfl⟩
  | succ fuel ih =>
    intro ps s
    obtain ⟨h2, h3⟩ := joinedCycles_step ndebug depSortIdx ps v s
    refine ⟨?_, ?_⟩
    · unfold searchLoop
      rw [h2]
      exact (ih (2 :: ps) _).2
    · unfold searchLoop
      rw [h3]
      exact (ih (3 :: ps) _).1

/-- The sort leaves all four modules over, and the report on them never ends: no iteration is the
last, and no assertion stops it. -/
theorem joinedCycles_never_ends :
    ∃ s, sortModules joinedCycles 4 = .ok s ∧ (∀ m, LeftOver joinedCycles s m) ∧
      ∀ ndebug fuel, depmodReportCycles { joinedCycles with depSortIdx := s.depSortIdx } ndebug fuel
        s.users = .error .outOfFuel := by
  refine ⟨⟨[1, 1, 2, 1], [], [], fun _ => INT32_MAX⟩, rfl, ?_, ?_⟩
  · intro m
    exact ⟨List.mem_finRange m, by simp⟩
  · intro ndebug fuel
    unfold depmodReportCycles
    cases fuel with
    | zero => rfl
    | succ fuel =>
      -- the first search starts at 0 and leaves 1 below 2 on the stack
      have hfirst : ∀ s : ReportState (Fin 4), s.visited 0 = false →
          searchStep { joinedCycles with depSortIdx := fun _ => INT32_MAX } ndebug 4 0 ⟨0, []⟩ [] s
            = .ok ([⟨2, [0]⟩, ⟨1, [0]⟩], s.visit 0) := by
        intro s hs
        simp only [searchStep, hs, Bool.false_and]
        cases ndebug <;> rfl
      have hsearch : ∀ s : ReportState (Fin 4), s.visited 0 = false →
          depmodReportCyclesFromRoot { joinedCycles with depSortIdx := fun _ => INT32_MAX } ndebug 4
            (fuel + 1) 0 s = .error .outOfFuel := by
        intro s hs
        unfold depmodReportCyclesFromRoot searchLoop
        rw [hfirst s hs]
        exact (joinedCycles_loop ndebug _ _ fuel _ _).1
      rw [rootsLoop_cons (show _ = (0 : Fin 4) :: [1, 2, 3] by rfl)]
      exact congrArg (fun r => Except.bind r _) (hsearch _ rfl)

end Kmod.Depmod
