import Kmod.Depmod.Cycles
import Mathlib.Data.Set.Card

/-!
# What the cycle report prints

A search from an unvisited root prints only cycles. But the `visited` flags
outlive a search: a root that an earlier search walked over is taken for a root
that came round again, and is printed alone, as a cycle of no edges. Such a root
is still in the list only if it is not on a cycle and not the end of a branch.

So, asked over all orders as before, the report is truthful exactly when below a
cycle there is nothing but cycles and ends of branches (`reports_truthful_iff`),
or when it comes to its end in no order at all. The direction that needs work is
to find an order in which the report both ends and lies. It lists the strongly
connected components one after the other, each beginning with a module from which
the search ends; removals from the root ring keep that shape (`Lists.led_removeAll`).
There is room on the stack for all other searches of that order, as they start
further down on walks that have been taken before.
-/

set_option linter.unusedSectionVars false

namespace Kmod.Depmod

open Relation Kmod.Digraph Kmod.Lists

variable {μ : Type} [DecidableEq μ] {d : Depmod μ}

/-- Every printed sequence is a cycle, and every counted name belongs to a module on a cycle. -/
structure Truthful (d : Depmod μ) (r : ReportState μ) : Prop where
  cycles : ∀ seq ∈ r.reports, CycleSeq d seq
  counted : ∀ n ∈ r.loopSet, ∃ m ∈ d.modules, OnCycle d.Needs m ∧ d.modname m = n
  /-- No name is counted twice. -/
  nodup : r.loopSet.Nodup

/-- Whenever the cycle report of `d` runs to its end, it has been truthful. -/
def ReportsTruthful (d : Depmod μ) (ndebug : Bool) : Prop :=
  ∀ s fuel r, sortModules d d.modules.length = .ok s →
    depmodReportCycles { d with depSortIdx := s.depSortIdx } ndebug fuel s.users = .ok r →
    Truthful d r

/-- The module lies on a cycle or below one. -/
def Below (d : Depmod μ) (m : μ) : Prop :=
  ∃ w ∈ d.modules, OnCycle d.Needs w ∧ ReflTransGen d.Needs w m

/-- A search from `w` ends: `w` hits all cycles within its reach, and `n` entries are enough. -/
def Searchable (d : Depmod μ) (n : Nat) (w : μ) : Prop := HitsAll d.Needs w ∧ Fits d.deps n w

/-- Every component with a cycle has a module from which the search ends. -/
def Reportable (d : Depmod μ) : Prop :=
  ∀ v ∈ d.modules, OnCycle d.Needs v →
    ∃ w, Mutual d.Needs v w ∧ Searchable d {m | Below d m}.ncard w

/-- Below a cycle there is nothing but cycles and ends of branches. -/
def OnlyCycles (d : Depmod μ) : Prop :=
  ∀ m, Below d m → OnCycle d.Needs m ∨ d.deps m = []

theorem leftOver_iff_below (hd : d.WellFormed) {s : SortState μ} (h : SortInv d [] s)
    (hnil : s.roots = []) {m : μ} : LeftOver d s m ↔ Below d m := by
  refine ⟨?_, ?_⟩
  · intro hm
    obtain ⟨w, hw, hc, hwm⟩ := leftOver_below_cycle h hnil hm
    exact ⟨w, hw.1, hc, hwm⟩
  · rintro ⟨w, hw, hc, hwm⟩
    exact leftOver_reach hd h (leftOver_of_onCycle hd h hw hc) hwm

/-- `stack_size` is the number of modules on or below a cycle. -/
theorem cyclicRoots_length (hd : d.WellFormed) {s : SortState μ} (h : SortInv d [] s)
    (hnil : s.roots = []) : (cyclicRoots d s.users).length = {m | Below d m}.ncard := by
  have hset : {m | Below d m} = ((cyclicRoots d s.users).toFinset : Set μ) := by
    ext m
    rw [Finset.mem_coe, List.mem_toFinset, mem_cyclicRoots hd h hnil, leftOver_iff_below hd h hnil]
    rfl
  rw [hset, Set.ncard_coe_finset, List.toFinset_card_of_nodup (cyclicRoots_nodup hd h)]

/-! ## The root loop -/

/-- **Invariant rule** for the root loop of a report that runs to its end. -/
theorem rootsLoop_invariant {ndebug : Bool} {stackSize fuel : Nat} (P : ReportState μ → Prop)
    (hstep : ∀ s root roots s', P s → s.roots = root :: roots →
      depmodReportCyclesFromRoot d ndebug stackSize fuel root { s with roots := roots } = .ok s' →
      P s') :
    ∀ {n : Nat} {s r : ReportState μ}, rootsLoop d ndebug stackSize fuel n s = .ok r → P s →
      P r ∧ r.roots = [] := by
  intro n
  induction n with
  | zero =>
    intro s r h hP
    cases hr : s.roots with
    | nil => rw [rootsLoop_nil hr] at h; injection h with h; exact h ▸ ⟨hP, hr⟩
    | cons root roots => rw [rootsLoop, hr] at h; exact absurd h (by simp)
  | succ n ih =>
    intro s r h hP
    cases hr : s.roots with
    | nil => rw [rootsLoop_nil hr] at h; injection h with h; exact h ▸ ⟨hP, hr⟩
    | cons root roots =>
      rw [rootsLoop_cons hr] at h
      cases hs : depmodReportCyclesFromRoot d ndebug stackSize fuel root { s with roots := roots } with
      | error e => rw [hs] at h; exact absurd h (by simp [Except.bind])
      | ok s1 =>
        rw [hs] at h
        exact ih h (hstep s root roots s1 hP hr hs)

/--
A search that came to its end from an unvisited root had nothing to loop on, and did its work.
-/
theorem searched_of_ok (hd : d.WellFormed) {ndebug : Bool} {stackSize fuel : Nat} {root : μ}
    (hroot : root ∈ d.modules) {s s' : ReportState μ} (hf : s.visited root = false)
    (hnd : s.roots.Nodup) (hnot : root ∉ s.roots)
    (h : depmodReportCyclesFromRoot d ndebug stackSize fuel root s = .ok s') :
    HitsAll d.Needs root ∧ Searched d root s' := by
  have hhit : HitsAll d.Needs root := by
    by_contra hbad
    exact search_diverges hf hbad h
  refine ⟨hhit, ?_⟩
  -- the search that is known to end is this one
  have hsame : ∀ {f res}, depmodReportCyclesFromRoot d ndebug stackSize f root s = res →
      res ≠ .error .outOfFuel → res = .ok s' := by
    intro f res hres hne
    rw [← hres, ← h]
    exact search_unique (hres ▸ hne) (by rw [h]; simp)
  obtain ⟨f, s2, hf', hS⟩ :=
    search_ends_of_fits hd ndebug stackSize hroot hhit (fits_of_ok hf h) hf hnd hnot
  exact Except.ok.inj (hsame hf' (by simp)) ▸ hS

/-- What the root loop keeps about its list: duplicate-free modules that lie below cycles. -/
structure RootsInv (d : Depmod μ) (s : ReportState μ) : Prop where
  nodup : s.roots.Nodup
  below : ∀ m ∈ s.roots, Below d m

theorem Below.mem (hd : d.WellFormed) {m : μ} (h : Below d m) : m ∈ d.modules := by
  obtain ⟨w, hw, _, hwm⟩ := h
  exact hd.mem_of_reach hw hwm

theorem Below.reach {m y : μ} (h : Below d m) (hy : ReflTransGen d.Needs m y) : Below d y := by
  obtain ⟨w, hw, hc, hwm⟩ := h
  exact ⟨w, hw, hc, hwm.trans hy⟩

theorem rootsInv_step {ndebug : Bool} {stackSize fuel : Nat} {s : ReportState μ} {root : μ}
    {roots : List μ} {s' : ReportState μ} (h : RootsInv d s) (hr : s.roots = root :: roots)
    (hs : depmodReportCyclesFromRoot d ndebug stackSize fuel root { s with roots := roots } = .ok s') :
    RootsInv d s' := by
  obtain ⟨ys, hys, _⟩ := (search_inv hs).dropped
  have hnd : roots.Nodup := by
    have := h.nodup
    rw [hr] at this
    exact (List.nodup_cons.mp this).2
  refine ⟨by rw [hys]; exact nodup_removeAll hnd ys, fun m hm => h.below m ?_⟩
  rw [hys] at hm
  rw [hr]
  exact List.mem_cons_of_mem _ (removeAll_subset ys _ hm)

/-- The count never needs a condition: `loop_set` only ever collects modules on cycles. -/
theorem counted_step (hd : d.WellFormed) {ndebug : Bool} {stackSize fuel : Nat} {s : ReportState μ}
    {root : μ} {roots : List μ} {s' : ReportState μ} (hinv : RootsInv d s)
    (hr : s.roots = root :: roots)
    (hs : depmodReportCyclesFromRoot d ndebug stackSize fuel root { s with roots := roots } = .ok s')
    (hc : ∀ n ∈ s.loopSet, ∃ m ∈ d.modules, OnCycle d.Needs m ∧ d.modname m = n) :
    ∀ n ∈ s'.loopSet, ∃ m ∈ d.modules, OnCycle d.Needs m ∧ d.modname m = n := by
  intro n hn
  rcases (search_inv hs).loopSet n hn with hn | ⟨m, hm, hcyc, he⟩
  · exact hc n hn
  · have hroot := (hinv.below root (by rw [hr]; simp)).mem hd
    exact ⟨m, hd.mem_of_reach hroot hm, hcyc, he⟩

/-! ## A report that ends has searched from a module of each component -/

theorem reportable_step (hd : d.WellFormed) {ndebug : Bool} {stackSize fuel : Nat}
    {s : ReportState μ} {root : μ} {roots : List μ} {s' : ReportState μ} (hinv : RootsInv d s)
    (hr : s.roots = root :: roots)
    (hs : depmodReportCyclesFromRoot d ndebug stackSize fuel root { s with roots := roots } = .ok s')
    {v : μ} (hv : OnCycle d.Needs v)
    (h : (∀ y, Mutual d.Needs v y → y ∈ s.roots ∧ s.visited y = false) ∨
      ∃ w, Mutual d.Needs v w ∧ Searchable d stackSize w) :
    (∀ y, Mutual d.Needs v y → y ∈ s'.roots ∧ s'.visited y = false) ∨
      ∃ w, Mutual d.Needs v w ∧ Searchable d stackSize w := by
  rcases h with h | h
  · have hnd := hinv.nodup
    rw [hr, List.nodup_cons] at hnd
    have hroot := (hinv.below root (by rw [hr]; simp)).mem hd
    cases hvis : s.visited root with
    | true =>
      -- the root is printed alone and nothing else happens
      cases fuel with
      | zero => exact absurd hs (by simp [depmodReportCyclesFromRoot, searchLoop])
      | succ fuel =>
        rw [search_visited (s := { s with roots := roots }) hvis] at hs
        injection hs with hs
        subst hs
        refine .inl (fun y hy => ⟨?_, (h y hy).2⟩)
        have hin := (h y hy).1
        rw [hr] at hin
        refine (List.mem_cons.mp hin).resolve_left (fun he => ?_)
        rw [← he, (h y hy).2] at hvis
        exact absurd hvis (by simp)
    | false =>
      obtain ⟨hhit, _⟩ := searched_of_ok hd (s := { s with roots := roots }) hroot hvis hnd.2 hnd.1 hs
      by_cases hmut : Mutual d.Needs v root
      · exact .inr ⟨root, hmut, hhit, fits_of_ok (s := { s with roots := roots }) hvis hs⟩
      · -- the component of `v` cannot be reached from this root
        have hreach : ∀ y, Mutual d.Needs v y → ¬ ReflTransGen d.Needs root y := by
          intro y hy hry
          exact hmut (hy.trans (hhit.mutual hry (OnCycle.of_mutual hy hv)).symm)
        have hsi := search_inv hs
        obtain ⟨ys, hys, hdrop⟩ := hsi.dropped
        refine .inl (fun y hy => ⟨?_, ?_⟩)
        · rw [hys, mem_removeAll hnd.2]
          have hin := (h y hy).1
          rw [hr] at hin
          exact ⟨(List.mem_cons.mp hin).resolve_left (fun he => hreach y hy (he ▸ .refl)),
            fun hyy => hreach y hy (hdrop y hyy).1⟩
        · by_contra hne
          rcases hsi.visited y (by simpa using hne) with hq | hq
          · exact absurd (show s.visited y = true from hq) (by rw [(h y hy).2]; simp)
          · exact hreach y hy hq
  · exact .inr h

/-! ## With nothing but cycles and ends of branches, no visited root is left in the list -/

theorem truthful_step (hd : d.WellFormed) (honly : OnlyCycles d) {ndebug : Bool}
    {stackSize fuel : Nat} {s : ReportState μ} {root : μ} {roots : List μ} {s' : ReportState μ}
    (hinv : RootsInv d s) (hr : s.roots = root :: roots)
    (hs : depmodReportCyclesFromRoot d ndebug stackSize fuel root { s with roots := roots } = .ok s')
    (h : (∀ y ∈ s.roots, s.visited y = false) ∧ ∀ seq ∈ s.reports, CycleSeq d seq) :
    (∀ y ∈ s'.roots, s'.visited y = false) ∧ ∀ seq ∈ s'.reports, CycleSeq d seq := by
  have hnd := hinv.nodup
  rw [hr, List.nodup_cons] at hnd
  have hbelow := hinv.below root (by rw [hr]; simp)
  have hvis : s.visited root = false := h.1 root (by rw [hr]; simp)
  have hsi := search_inv hs
  obtain ⟨hhit, hS⟩ := searched_of_ok hd (s := { s with roots := roots }) (hbelow.mem hd) hvis hnd.2
    hnd.1 hs
  refine ⟨?_, ?_⟩
  · intro y hy
    by_contra hne
    obtain ⟨ys, hys, _⟩ := hsi.dropped
    have hyr : y ∈ s.roots := by
      rw [hys] at hy
      rw [hr]
      exact List.mem_cons_of_mem _ (removeAll_subset ys _ hy)
    rcases hsi.visited y (by simpa using hne) with hq | hq
    · exact absurd (show s.visited y = true from hq) (by rw [h.1 y hyr]; simp)
    -- a visited root that is left would be on a cycle of this root, or the end of a branch
    · rcases honly y (hbelow.reach hq) with hc | hleaf
      · exact hS.cycle y (hhit.mutual hq hc) hy
      · exact hS.leaf y hq hleaf hy
  · obtain ⟨rs, hrs, hcyc⟩ := hsi.reports
    intro seq hseq
    rw [hrs] at hseq
    rcases List.mem_append.mp hseq with hseq | hseq
    · exact h.2 seq hseq
    · exact hcyc hvis seq hseq

/-- The sort's roots satisfy the loop's invariant. -/
theorem rootsInv_init (hd : d.WellFormed) {s : SortState μ} (h : SortInv d [] s)
    (hnil : s.roots = []) (visited : μ → Bool) :
    RootsInv d ⟨cyclicRoots d s.users, visited, [], []⟩ :=
  ⟨cyclicRoots_nodup hd h, fun _ hm =>
    (leftOver_iff_below hd h hnil).mp ((mem_cyclicRoots hd h hnil).mp hm)⟩

/-- **Sufficiency.** -/
theorem reportsTruthful_of (hd : d.WellFormed) (hf : Fresh d) (hcond : Reportable d → OnlyCycles d)
    (ndebug : Bool) : ReportsTruthful d ndebug := by
  intro s fuel r hs hrun
  obtain ⟨s', hs', hsort, hnil⟩ := sortModules_inv hd (Nat.le_refl _)
  rw [hs] at hs'
  injection hs' with hs'
  subst hs'
  have hinit := rootsInv_init hd hsort hnil d.visited
  have hmem : ∀ m, m ∈ cyclicRoots d s.users ↔ Below d m := fun m =>
    (mem_cyclicRoots hd hsort hnil).trans (leftOver_iff_below hd hsort hnil)
  let D : Depmod μ := { d with depSortIdx := s.depSortIdx }
  have hD : D.WellFormed := hd.with_depSortIdx _
  have hinit : RootsInv D ⟨cyclicRoots d s.users, d.visited, [], []⟩ := ⟨hinit.nodup, hinit.below⟩
  -- the run has searched from a module of every component
  have hrep : Reportable d := by
    intro v hv hc
    rw [← cyclicRoots_length hd hsort hnil]
    obtain ⟨⟨_, hfin⟩, hend⟩ := rootsLoop_invariant (d := D)
      (fun st => RootsInv D st ∧ ((∀ y, Mutual d.Needs v y → y ∈ st.roots ∧ st.visited y = false) ∨
        ∃ w, Mutual d.Needs v w ∧ Searchable D (cyclicRoots d s.users).length w))
      (fun st root roots st' hP hr hst => ⟨rootsInv_step hP.1 hr hst,
        reportable_step hD hP.1 hr hst hc hP.2⟩) hrun
      ⟨hinit, .inl (fun y hy => ⟨(hmem y).mpr ⟨v, hv, hc, hy.1⟩, hf y (hd.mem_of_reach hv hy.1)⟩)⟩
    rcases hfin with hfin | hfin
    · have := (hfin v (Mutual.refl v)).1
      rw [hend] at this
      exact absurd this (by simp)
    · exact hfin
  have honly : OnlyCycles D := hcond hrep
  obtain ⟨⟨_, ⟨_, hcyc⟩, hcount, hnodup⟩, _⟩ := rootsLoop_invariant (d := D)
    (fun st => RootsInv D st ∧
      ((∀ y ∈ st.roots, st.visited y = false) ∧ ∀ seq ∈ st.reports, CycleSeq D seq) ∧
      (∀ n ∈ st.loopSet, ∃ m ∈ D.modules, OnCycle D.Needs m ∧ D.modname m = n) ∧ st.loopSet.Nodup)
    (fun st root roots st' hP hr hst => ⟨rootsInv_step hP.1 hr hst,
      truthful_step hD honly hP.1 hr hst hP.2.1, counted_step hD hP.1 hr hst hP.2.2.1,
      (search_inv hst).nodup hP.2.2.2⟩) hrun
    ⟨hinit, ⟨fun y hy => hf y (((hmem y).mp hy).mem hd), by simp⟩, by simp, by simp⟩
  exact ⟨hcyc, hcount, hnodup⟩

/-! ## An order in which the report ends and lies -/

/-- If the components can be reported, a search from below a cycle but from none ends. -/
theorem searchable_of_not_onCycle (hrep : Reportable d) {m : μ} (hb : Below d m)
    (hoff : ¬ OnCycle d.Needs m) : Searchable d {m | Below d m}.ncard m := by
  obtain ⟨w, hw, hwc, hwm⟩ := hb
  obtain ⟨q, hq, hhit, hfits⟩ := hrep w hw hwc
  have hqm : ReflTransGen d.Needs q m := hq.2.trans hwm
  have hqc : OnCycle d.Needs q := OnCycle.of_mutual hq hwc
  have hback : ¬ ReflTransGen d.Needs m q := by
    intro hmq
    exact hoff (OnCycle.of_mutual ⟨hqm, hmq⟩ hqc)
  refine ⟨fun u hu hc => ?_, ?_⟩
  · have hqu := hhit.mutual (hqm.trans hu) (onCycle_of_avoid hc)
    exact hback (hu.trans hqu.2)
  · -- the search from `q` comes by `m`
    have hne : m ≠ q := fun he => hoff (he ▸ hqc)
    obtain ⟨x, hqx, hxq, hxm⟩ := exists_avoid_walk hqm hne
    obtain ⟨i, hi⟩ := List.getElem?_of_mem hqx
    obtain ⟨k, hk⟩ := exists_piled hxm (Piled.root.dep hi hxq)
    exact hfits.below hk hback

/--
The root list of a report that is going to end: from every module the search ends,
or it directly follows one of its own component, and what earlier searches visited
and left in the list is on no cycle.
-/
structure Arranged (d : Depmod μ) (n : Nat) (s : ReportState μ) : Prop where
  inv : RootsInv d s
  led : Led (Mutual d.Needs) (Searchable d n) s.roots
  off : ∀ y ∈ s.roots, s.visited y = true → ¬ OnCycle d.Needs y

theorem Arranged.head {n : Nat} {s : ReportState μ} {root : μ} {roots : List μ}
    (h : Arranged d n s) (hr : s.roots = root :: roots) : Searchable d n root :=
  h.led.head root (by rw [hr]; rfl)

theorem arranged_visited {n : Nat} {s : ReportState μ} {root : μ} {roots : List μ}
    (h : Arranged d n s) (hr : s.roots = root :: roots) (hvis : s.visited root = true)
    (reports : List (List μ)) : Arranged d n { s with roots := roots, reports := reports } := by
  obtain ⟨⟨hnd, hbelow⟩, hled, hoff⟩ := h
  rw [hr] at hnd hbelow hled hoff
  obtain ⟨hnot, hnd⟩ := List.nodup_cons.mp hnd
  refine ⟨⟨hnd, fun m hm => hbelow m (List.mem_cons_of_mem _ hm)⟩, ?_,
    fun y hy => hoff y (List.mem_cons_of_mem _ hy)⟩
  -- nothing else belongs with a root that is on no cycle
  refine led_removeAll [] hnd hled (fun x hx _ hmut => ?_) (by simp)
  have hne : root ≠ x := fun he => hnot (he ▸ hx)
  exact hoff root (List.mem_cons_self ..) hvis (onCycle_of_mutual hmut hne)

theorem arranged_searched {ndebug : Bool} {stackSize fuel : Nat}
    {n : Nat} {s : ReportState μ} {root : μ} {roots : List μ} {s' : ReportState μ}
    (h : Arranged d n s) (hr : s.roots = root :: roots)
    (hs : depmodReportCyclesFromRoot d ndebug stackSize fuel root { s with roots := roots } = .ok s')
    (hS : Searched d root s') : Arranged d n s' := by
  have hhit := (h.head hr).1
  have hinv' := rootsInv_step h.inv hr hs
  obtain ⟨⟨hnd, _⟩, hled, hoff⟩ := h
  rw [hr] at hnd hled
  obtain ⟨_, hnd⟩ := List.nodup_cons.mp hnd
  have hsi := search_inv hs
  obtain ⟨ys, hys, hdrop⟩ := hsi.dropped
  replace hys : s'.roots = removeAll roots ys := hys
  -- the component of the root is gone as a whole
  have hout : ∀ x ∈ roots, x ∉ ys → ¬ Mutual d.Needs root x := by
    intro x hx hxy hmut
    exact hS.cycle x hmut (by rw [hys]; exact (mem_removeAll hnd).mpr ⟨hx, hxy⟩)
  refine ⟨hinv', ?_, ?_⟩
  · rw [hys]
    refine led_removeAll ys hnd hled hout (fun q hq x hx hxy hmut => ?_)
    obtain ⟨hreach, hleaf | ⟨_, hback⟩⟩ := hdrop q hq
    · rcases hmut.1.cases_head with he | ⟨z, hz, _⟩
      · exact hxy (he ▸ hq)
      · unfold Needs at hz
        rw [hleaf] at hz
        exact absurd hz (by simp)
    · exact hout x hx hxy (Mutual.trans ⟨hreach, hback⟩ hmut)
  · intro y hy hvis hc
    have hyr : y ∈ s.roots := by
      rw [hys] at hy
      rw [hr]
      exact List.mem_cons_of_mem _ (removeAll_subset ys _ hy)
    rcases hsi.visited y hvis with hq | hq
    · exact hoff y hyr hq hc
    · exact hS.cycle y (hhit.mutual hq hc) hy

/-- From an arranged list every search ends. -/
theorem arranged_step (hd : d.WellFormed) (ndebug : Bool) {n : Nat} {s : ReportState μ} {root : μ}
    {roots : List μ} (h : Arranged d n s) (hr : s.roots = root :: roots) :
    ∃ fuel s', depmodReportCyclesFromRoot d ndebug n fuel root { s with roots := roots }
      = .ok s' ∧ Arranged d n s' := by
  cases hvis : s.visited root with
  | true =>
    exact ⟨1, _, search_visited (s := { s with roots := roots }) hvis, arranged_visited h hr hvis _⟩
  | false =>
    have hnd := h.inv.nodup
    rw [hr, List.nodup_cons] at hnd
    have hroot := (h.inv.below root (by rw [hr]; simp)).mem hd
    obtain ⟨hhit, hfits⟩ := h.head hr
    obtain ⟨f, s', hf, hS⟩ := search_ends_of_fits hd ndebug n hroot hhit hfits
      (s := { s with roots := roots }) hvis hnd.2 hnd.1
    exact ⟨f, s', hf, arranged_searched h hr hf hS⟩

/-- How `c` comes to be printed alone: a search from `a` walks over it and leaves it in the list. -/
def WillLie (a c : μ) (s : ReportState μ) : Prop :=
  (∃ roots, s.roots = a :: roots ∧ c ∈ roots ∧ s.visited a = false) ∨
    (c ∈ s.roots ∧ s.visited c = true) ∨ [c] ∈ s.reports

theorem willLie_step (hd : d.WellFormed) {ndebug : Bool} {stackSize fuel : Nat} {a c : μ}
    (hac : ReflTransGen d.Needs a c) (hoff : ¬ OnCycle d.Needs c) (hdeps : d.deps c ≠ [])
    {s : ReportState μ} {root : μ} {roots : List μ} {s' : ReportState μ} (hinv : RootsInv d s)
    (hr : s.roots = root :: roots)
    (hs : depmodReportCyclesFromRoot d ndebug stackSize fuel root { s with roots := roots } = .ok s')
    (h : WillLie a c s) : WillLie a c s' := by
  have hnd := hinv.nodup
  rw [hr, List.nodup_cons] at hnd
  have hsi := search_inv hs
  -- no search drops `c`
  have hkeep : c ∈ roots → c ∈ s'.roots := by
    intro hc
    obtain ⟨ys, hys, hdrop⟩ := hsi.dropped
    rw [hys]
    refine (mem_removeAll hnd.2).mpr ⟨hc, fun hin => ?_⟩
    rcases (hdrop c hin).2 with hleaf | ⟨hcyc, _⟩
    · exact hdeps hleaf
    · exact hoff hcyc
  rcases h with ⟨roots', hr', hc, hvis⟩ | ⟨hc, hvis⟩ | hrep
  · rw [hr] at hr'
    obtain ⟨rfl, rfl⟩ := List.cons.inj hr'
    have hroot := (hinv.below root (by rw [hr]; simp)).mem hd
    obtain ⟨_, hS⟩ := searched_of_ok hd (s := { s with roots := roots }) hroot hvis hnd.2 hnd.1 hs
    exact .inr (.inl ⟨hkeep hc, hS.visited c hac⟩)
  · by_cases hcr : c = root
    · subst hcr
      cases fuel with
      | zero => exact absurd hs (by simp [depmodReportCyclesFromRoot, searchLoop])
      | succ fuel =>
        rw [search_visited (s := { s with roots := roots }) hvis] at hs
        injection hs with hs
        subst hs
        exact .inr (.inr (by simp))
    · rw [hr] at hc
      exact .inr (.inl ⟨hkeep ((List.mem_cons.mp hc).resolve_left hcr), hsi.kept c hvis⟩)
  · obtain ⟨rs, hrs, _⟩ := hsi.reports
    refine .inr (.inr ?_)
    rw [hrs]
    exact List.mem_append_left _ hrep

/-- The roots of a table whose array begins with `l`, if `l` is all that lies below cycles. -/
theorem cyclicRoots_append (hd : d.WellFormed) {s : SortState μ} (h : SortInv d [] s)
    (hnil : s.roots = []) {l rest : List μ} (hms : d.modules = l ++ rest)
    (hl : ∀ m ∈ l, Below d m) (hrest : ∀ m ∈ rest, ¬ Below d m) : cyclicRoots d s.users = l := by
  have hiff : ∀ m ∈ d.modules, 0 < (s.users[d.idx m]?).getD 0 ↔ Below d m := by
    intro m hm
    rw [← leftOver_iff_below hd h hnil, ← mem_cyclicRoots hd h hnil, cyclicRoots_eq hd h.len,
      List.mem_filter, decide_eq_true_eq]
    exact ⟨fun hp => ⟨hm, hp⟩, fun hp => hp.2⟩
  rw [cyclicRoots_eq hd h.len]
  rw [hms] at hiff ⊢
  rw [List.filter_append, List.filter_eq_self.mpr, List.filter_eq_nil_iff.mpr, List.append_nil]
  · intro m hm hp
    exact hrest m hm ((hiff m (List.mem_append_right _ hm)).mp (by simpa using hp))
  · intro m hm
    simpa using (hiff m (List.mem_append_left _ hm)).mpr (hl m hm)

/-- What lies below cycles can be listed component by component, beginning with a given one. -/
theorem exists_led_below (hd : d.WellFormed) (hrep : Reportable d) {a : μ} (ha : Below d a)
    (hends : Searchable d {m | Below d m}.ncard a) :
    ∃ l rest, (a :: l ++ rest).Perm d.modules ∧
      Led (Mutual d.Needs) (Searchable d {m | Below d m}.ncard) (a :: l) ∧
      (∀ m ∈ a :: l, Below d m) ∧ ∀ m ∈ rest, ¬ Below d m := by
  classical
  let below := d.modules.filter (fun m => Below d m)
  have hmem : ∀ m, m ∈ below ↔ Below d m := by
    intro m
    rw [List.mem_filter, decide_eq_true_eq]
    exact ⟨fun h => h.2, fun h => ⟨h.mem hd, h⟩⟩
  -- every component has a module from which the search ends
  have hgood : ∀ x ∈ below, ∃ q ∈ below, Mutual d.Needs x q ∧
      Searchable d {m | Below d m}.ncard q := by
    intro x hx
    have hb := (hmem x).mp hx
    by_cases hc : OnCycle d.Needs x
    · obtain ⟨q, hq, hends⟩ := hrep x (hb.mem hd) hc
      exact ⟨q, (hmem q).mpr (hb.reach hq.1), hq, hends⟩
    · exact ⟨x, hx, Mutual.refl x, searchable_of_not_onCycle hrep hb hc⟩
  obtain ⟨l, hl, hled⟩ := exists_led_perm (E := Mutual d.Needs)
    (Q := Searchable d {m | Below d m}.ncard) ⟨Mutual.refl, Mutual.symm, Mutual.trans⟩ _ below
    (Nat.le_refl _) hgood a ((hmem a).mpr ha) hends
  refine ⟨l, d.modules.filter (fun m => !decide (Below d m)), ?_, hled, ?_, ?_⟩
  · exact (hl.append_right _).trans (List.filter_append_perm _ _)
  · exact fun m hm => (hmem m).mp (hl.mem_iff.mp hm)
  · intro m hm
    simpa using (List.mem_filter.mp hm).2

/-- **Necessity.** A module below a cycle that is neither on one nor the end of a branch is
printed as a cycle in some order. -/
theorem exists_lie (hd : d.WellFormed) (hf : Fresh d) (hrep : Reportable d) {c : μ}
    (hb : Below d c) (hoff : ¬ OnCycle d.Needs c) (hdeps : d.deps c ≠ []) (ndebug : Bool) :
    ∃ d', Reordered d d' ∧ ¬ ReportsTruthful d' ndebug := by
  obtain ⟨w, hw, hwc, hwcc⟩ := hb
  obtain ⟨a, hwa, hends⟩ := hrep w hw hwc
  have hac : ReflTransGen d.Needs a c := hwa.2.trans hwcc
  have ha : Below d a := ⟨w, hw, hwc, hwa.1⟩
  obtain ⟨l, rest, hperm, hled, hl, hrest⟩ := exists_led_below hd hrep ha hends
  have hre := reorder_reordered hd hf hperm
  refine ⟨_, hre, fun htrue => ?_⟩
  obtain ⟨s, hs, hinv, hnil⟩ := sortModules_inv hre.wf (Nat.le_refl _)
  have hbelow : ∀ m, Below (reorder d (a :: l ++ rest)) m ↔ Below d m := fun m =>
    ⟨fun ⟨v, hv, h⟩ => ⟨v, hperm.mem_iff.mp hv, h⟩, fun ⟨v, hv, h⟩ => ⟨v, hperm.mem_iff.mpr hv, h⟩⟩
  have hroots : cyclicRoots (reorder d (a :: l ++ rest)) s.users = a :: l :=
    cyclicRoots_append hre.wf hinv hnil rfl (fun m hm => (hbelow m).mpr (hl m hm))
      (fun m hm h => hrest m hm ((hbelow m).mp h))
  have hsize : {m | Below d m}.ncard = (a :: l).length := by
    rw [← hroots, cyclicRoots_length hre.wf hinv hnil]
    exact congrArg Set.ncard (Set.ext fun m => (hbelow m).symm)
  rw [hsize] at hled
  let D : Depmod μ := { reorder d (a :: l ++ rest) with depSortIdx := s.depSortIdx }
  have hD : D.WellFormed := hre.wf.with_depSortIdx _
  have hfresh : ∀ y ∈ a :: l, d.visited y = false := fun y hy => hf y ((hl y hy).mem hd)
  have hinit : Arranged D (a :: l).length ⟨a :: l, d.visited, [], []⟩ := by
    refine ⟨⟨?_, fun m hm => (hbelow m).mpr (hl m hm)⟩, hled, fun y hy hv => ?_⟩
    · exact ((hperm.nodup_iff.mpr hd.nodup).sublist (List.sublist_append_left _ _))
    · exact absurd (show d.visited y = true from hv) (by rw [hfresh y hy]; simp)
  have hcl : c ∈ l := by
    have hin : c ∈ a :: l ++ rest := hperm.mem_iff.mpr (hd.mem_of_reach hw hwcc)
    have hcb : Below d c := ⟨w, hw, hwc, hwcc⟩
    rcases List.mem_append.mp hin with hin | hin
    · refine (List.mem_cons.mp hin).resolve_left (fun he => hoff ?_)
      exact he ▸ OnCycle.of_mutual hwa hwc
    · exact absurd hcb (hrest c hin)
  -- the report ends
  obtain ⟨fuel, r, hrun⟩ := rootsLoop_ends ndebug (a :: l).length (Arranged D (a :: l).length)
    (fun _ _ _ hP hr => arranged_step hD ndebug hP hr) (a :: l).length _ (Nat.le_refl _) hinit
  -- and prints `c` alone
  obtain ⟨⟨_, hlie⟩, hempty⟩ := rootsLoop_invariant (d := D)
    (fun st => RootsInv D st ∧ WillLie a c st)
    (fun st root roots st' hP hr hst => ⟨rootsInv_step hP.1 hr hst,
      willLie_step hD hac hoff hdeps hP.1 hr hst hP.2⟩) hrun
    ⟨hinit.inv, .inl ⟨l, rfl, hcl, hfresh a (List.mem_cons_self ..)⟩⟩
  have hprinted : [c] ∈ r.reports := by
    rcases hlie with ⟨roots, h, _⟩ | ⟨h, _⟩ | h
    · rw [hempty] at h; exact absurd h (by simp)
    · rw [hempty] at h; exact absurd h (by simp)
    · exact h
  have hreport : depmodReportCycles D ndebug (fuel + (a :: l).length) s.users = .ok r := by
    refine reportCycles_of_rootsLoop (d := D) ?_
    rw [show cyclicRoots D s.users = a :: l from hroots]
    exact hrun
  have hseq := (htrue s _ r hs hreport).cycles [c] hprinted
  exact absurd hseq.1 (by simp)

theorem Reordered.mutual {d' : Depmod μ} (h : Reordered d d') (hd : d.WellFormed) {a b : μ}
    (ha : a ∈ d.modules) (hab : Mutual d.Needs a b) : Mutual d'.Needs a b :=
  ⟨h.reach hd ha hab.1, h.reach hd (hd.mem_of_reach ha hab.1) hab.2⟩

theorem Reordered.below {d' : Depmod μ} (h : Reordered d d') (hd : d.WellFormed) {m : μ}
    (hb : Below d m) : Below d' m := by
  obtain ⟨w, hw, hc, hwm⟩ := hb
  exact ⟨w, h.modules.mem_iff.mpr hw, h.onCycle hd hw hc, h.reach hd hw hwm⟩

/--
**When the cycle report is truthful.** For every module table: in every order of
the module array and of the `deps` arrays, with or without assertions, a report
that runs to its end prints only cycles and counts only modules on cycles, if
and only if below a cycle there is nothing but cycles and ends of branches, or
in every order of the `deps` arrays some component has no module from which the
search ends.
-/
theorem reports_truthful_iff (hd : d.WellFormed) (hf : Fresh d) :
    (∀ d', Reordered d d' → ∀ ndebug, ReportsTruthful d' ndebug) ↔
      ((∃ d', Reordered d d' ∧ Reportable d') → OnlyCycles d) := by
  -- the condition is one on the graph, so it is the same in every order
  have honly : ∀ {d₁ d₂ : Depmod μ}, Reordered d₁ d₂ → d₁.WellFormed → Fresh d₁ →
      OnlyCycles d₁ → OnlyCycles d₂ := by
    intro d₁ d₂ hre hwf hfresh h m hb
    have hre' := hre.symm hwf hfresh
    have hb' := hre'.below hre.wf hb
    have hm := hb'.mem hwf
    refine (h m hb').imp (fun hc => hre.onCycle hwf hm hc) (fun hnil => ?_)
    have hperm := hre.deps m hm
    rw [hnil] at hperm
    exact hperm.eq_nil
  refine ⟨?_, ?_⟩
  · rintro htrue ⟨d₁, hre, hrep⟩
    refine honly (hre.symm hd hf) hre.wf hre.fresh (fun m hb => ?_)
    by_contra hbad
    obtain ⟨hoff, hdeps⟩ := not_or.mp hbad
    obtain ⟨d', hre', hlie⟩ := exists_lie hre.wf hre.fresh hrep hb hoff hdeps true
    exact hlie (htrue d' (hre.trans hre') true)
  · intro hcond d' hre ndebug
    exact reportsTruthful_of hre.wf hre.fresh
      (fun hrep => honly hre hd hf (hcond ⟨d', hre, hrep⟩)) ndebug

theorem reports_truthful_iff_oneCycle :
    (∀ d', Reordered oneCycle d' → ∀ ndebug, ReportsTruthful d' ndebug) ↔
      ((∃ d', Reordered oneCycle d' ∧ Reportable d') → OnlyCycles oneCycle) :=
  reports_truthful_iff (tableOf_wellFormed (by decide) (by decide)) (fun _ _ => rfl)

/-- A branch below a cycle: 0 and 1 need each other, 0 needs 2, and 2 needs 3. -/
def branchBelowCycle : Depmod (Fin 4) :=
  tableOf 4 ![[1, 2], [0], [3], []] (fun _ => []) (fun _ => []) (fun _ => none)

/-- The report on it ends, and prints module 2, which is on no cycle, as a cycle of no edges. -/
theorem branchBelowCycle_lies :
    (∃ s r, sortModules branchBelowCycle 4 = .ok s ∧
      depmodReportCycles { branchBelowCycle with depSortIdx := s.depSortIdx } false 9 s.users
        = .ok r ∧ r.reports = [[0, 1, 0], [2]]) ∧
    ¬ CycleSeq branchBelowCycle [2] ∧ ¬ OnCycle branchBelowCycle.Needs 2 ∧
    ¬ ReportsTruthful branchBelowCycle false := by
  have hrun : ∃ s r, sortModules branchBelowCycle 4 = .ok s ∧
      depmodReportCycles { branchBelowCycle with depSortIdx := s.depSortIdx } false 9 s.users
        = .ok r ∧ r.reports = [[0, 1, 0], [2]] :=
    ⟨_, _, rfl, rfl, rfl⟩
  have hseq : ¬ CycleSeq branchBelowCycle [2] := fun h => absurd h.1 (by simp)
  refine ⟨hrun, hseq, fun h => ?_, fun h => ?_⟩
  -- 2 reaches only 3, and 3 reaches nothing
  · obtain ⟨x, hx, hx2⟩ := TransGen.head'_iff.mp h
    have hx3 : x = 3 := List.mem_singleton.mp hx
    subst hx3
    rcases hx2.cases_head with he | ⟨y, hy, _⟩
    · exact absurd he (by decide)
    · exact absurd (show y ∈ [] from hy) (by simp)
  · obtain ⟨s, r, hs, hr, hreports⟩ := hrun
    exact hseq ((h s 9 r hs hr).cycles [2] (by rw [hreports]; simp))

end Kmod.Depmod
