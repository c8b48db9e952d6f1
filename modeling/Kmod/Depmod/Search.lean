import Kmod.Depmod.TopoSort

/-!
# One search of the cycle report

`depmod_report_cycles_from_root` walks the graph depth first from one root. The
`visited` flags do not prune it: a vertex is expanded every time it is popped,
unless it is the root itself coming round again. So the search enumerates the
walks out of the root that do not return to it, and this file says what that
means:

* what every search can do at most (`SearchInv`): it reaches only vertices below
  the root, drops from the root list only vertices without dependencies or on a
  cycle with the root, and, started from an unvisited root, prints only cycles;
* when it cannot end (`search_diverges`): a cycle within reach of the root that
  avoids the root is walked round and round;
* what it does when there is no such cycle (`drain`): it ends, and it has visited
  and dropped everything it should.
-/

set_option linter.unusedSectionVars false

namespace Kmod.Depmod

open Relation Kmod.Digraph Kmod.Lists

variable {μ : Type} [DecidableEq μ] {d : Depmod μ}

/-! ## The step as a relation -/

/-- The vertices pushed for the dependencies of `v`, the last dependency on top. -/
def children (d : Depmod μ) (v : Vertex μ) : List (Vertex μ) :=
  (d.deps v.mod).reverse.map (fun dep => ⟨dep, v.mod :: v.parents⟩)

/-- `m->visited = true`. -/
def ReportState.visit (s : ReportState μ) (m : μ) : ReportState μ :=
  { s with visited := Function.update s.visited m true }

@[simp] theorem visit_self (s : ReportState μ) (m : μ) : (s.visit m).visited m = true :=
  Function.update_self ..

theorem visit_of_visited {s : ReportState μ} {m y : μ} (h : s.visited y = true) :
    (s.visit m).visited y = true := by
  by_cases hy : y = m
  · subst hy; exact visit_self s y
  · show Function.update s.visited m true y = true
    rw [Function.update_of_ne hy]
    exact h

theorem visited_of_visit {s : ReportState μ} {m y : μ} (h : (s.visit m).visited y = true) :
    s.visited y = true ∨ y = m := by
  by_cases hy : y = m
  · exact .inr hy
  · refine .inl ?_
    rwa [show (s.visit m).visited y = s.visited y from Function.update_of_ne hy ..] at h

/-- One iteration of the search, case by case. -/
inductive SearchStep (d : Depmod μ) (root : μ) (v : Vertex μ) (stack : List (Vertex μ))
    (s : ReportState μ) : List (Vertex μ) → ReportState μ → Prop where
  /-- The root came round again. -/
  | report : s.visited v.mod = true → v.mod = root →
      SearchStep d root v stack s stack (depmodReportOneCycle d v s)
  /-- The end of a branch. -/
  | leaf : ¬(s.visited v.mod = true ∧ v.mod = root) → d.deps v.mod = [] →
      SearchStep d root v stack s stack
        { s.visit v.mod with roots := kmodListRemoveData s.roots v.mod }
  | expand : ¬(s.visited v.mod = true ∧ v.mod = root) → d.deps v.mod ≠ [] →
      SearchStep d root v stack s (children d v ++ stack) (s.visit v.mod)

theorem pushDeps_ok {ndebug : Bool} {stackSize : Nat} {v : Vertex μ} :
    ∀ {deps : List μ} {stack stack' : List (Vertex μ)},
      pushDeps ndebug stackSize v deps stack = .ok stack' →
      stack' = deps.reverse.map (fun dep => ⟨dep, v.mod :: v.parents⟩) ++ stack := by
  intro deps
  induction deps with
  | nil => intro stack stack' h; injection h with h; simp [h]
  | cons dep rest ih =>
    intro stack stack' h
    unfold pushDeps at h
    split at h
    · rw [ih h]; simp
    · exact absurd h (by simp)

theorem fullStack_ne (ndebug : Bool) : fullStack ndebug ≠ .outOfFuel := by
  cases ndebug <;> decide

theorem pushDeps_error {ndebug : Bool} {stackSize : Nat} {v : Vertex μ} {e : Fault} :
    ∀ {deps : List μ} {stack : List (Vertex μ)},
      pushDeps ndebug stackSize v deps stack = .error e → e = fullStack ndebug := by
  intro deps
  induction deps with
  | nil => intro stack h; exact absurd h (by simp [pushDeps])
  | cons dep rest ih =>
    intro stack h
    unfold pushDeps at h
    split at h
    · exact ih h
    · injection h with h
      exact h.symm

/-- What an iteration that does not fail has done. -/
theorem searchStep_ok {ndebug : Bool} {stackSize : Nat} {root : μ} {v : Vertex μ}
    {stack stack' : List (Vertex μ)} {s s' : ReportState μ}
    (h : searchStep d ndebug stackSize root v stack s = .ok (stack', s')) :
    SearchStep d root v stack s stack' s' := by
  simp only [searchStep] at h
  split at h
  · rename_i hc
    injection h with h
    obtain ⟨rfl, rfl⟩ := Prod.mk.inj h
    simp only [Bool.and_eq_true, decide_eq_true_eq] at hc
    exact .report hc.1 hc.2
  · rename_i hc
    simp only [Bool.and_eq_true, decide_eq_true_eq] at hc
    split at h
    · rename_i hd
      injection h with h
      obtain ⟨rfl, rfl⟩ := Prod.mk.inj h
      exact .leaf hc hd
    · rename_i hd
      cases hp : pushDeps ndebug stackSize v (d.deps v.mod) stack with
      | error e => rw [hp] at h; exact absurd h (by simp [bind, Except.bind])
      | ok st =>
        rw [hp] at h
        injection h with h
        obtain ⟨rfl, rfl⟩ := Prod.mk.inj h
        rw [pushDeps_ok hp]
        exact .expand hc (fun he => hd he)

/-- An iteration fails only on the full stack. -/
theorem searchStep_error {ndebug : Bool} {stackSize : Nat} {root : μ} {v : Vertex μ}
    {stack : List (Vertex μ)} {s : ReportState μ} {e : Fault}
    (h : searchStep d ndebug stackSize root v stack s = .error e) : e = fullStack ndebug := by
  simp only [searchStep] at h
  split at h
  · exact absurd h (by simp)
  · split at h
    · exact absurd h (by simp)
    -- only pushing the dependencies can fail
    · cases hp : pushDeps ndebug stackSize v (d.deps v.mod) stack with
      | error e' =>
        rw [hp] at h
        injection h with h
        exact h ▸ pushDeps_error hp
      | ok st => rw [hp] at h; exact absurd h (by simp [bind, Except.bind])

/-- The search loop, one iteration at a time. -/
theorem searchLoop_succ (d : Depmod μ) (ndebug : Bool) (stackSize : Nat) (root : μ) (v : Vertex μ)
    (stack : List (Vertex μ)) (s : ReportState μ) :
    (∃ stack' s', SearchStep d root v stack s stack' s' ∧
      ∀ fuel, searchLoop d ndebug stackSize root (fuel + 1) (v :: stack) s
        = searchLoop d ndebug stackSize root fuel stack' s') ∨
    ∀ fuel, searchLoop d ndebug stackSize root (fuel + 1) (v :: stack) s
      = .error (fullStack ndebug) := by
  cases h : searchStep d ndebug stackSize root v stack s with
  | error e =>
    obtain rfl := searchStep_error h
    exact .inr (fun fuel => by rw [searchLoop, h]; rfl)
  | ok p =>
    obtain ⟨stack', s'⟩ := p
    exact .inl ⟨stack', s', searchStep_ok h, fun fuel => by rw [searchLoop, h]; rfl⟩

/-- **Invariant rule.** What every step keeps holds when the search has ended. -/
theorem searchLoop_invariant {ndebug : Bool} {stackSize : Nat} {root : μ}
    (P : List (Vertex μ) → ReportState μ → Prop)
    (hstep : ∀ v stack s stack' s', P (v :: stack) s → SearchStep d root v stack s stack' s' →
      P stack' s') :
    ∀ {fuel : Nat} {stack : List (Vertex μ)} {s s' : ReportState μ},
      searchLoop d ndebug stackSize root fuel stack s = .ok s' → P stack s → P [] s' := by
  intro fuel
  -- on the number of iterations; the stack and the state vary
  induction fuel with
  | zero =>
    intro stack s s' h hP
    cases stack with
    | nil => injection h with h; exact h ▸ hP
    | cons v stack => exact absurd h (by simp [searchLoop])
  | succ fuel ih =>
    intro stack s s' h hP
    cases stack with
    | nil => injection h with h; exact h ▸ hP
    | cons v stack =>
      rcases searchLoop_succ d ndebug stackSize root v stack s with ⟨st, s1, hs, he⟩ | he
      · rw [he] at h
        exact ih h (hstep v stack s st s1 hP hs)
      · rw [he] at h
        exact absurd h (by simp)

/-- More fuel does not change the outcome of a search that did not run out of it. -/
theorem searchLoop_mono {ndebug : Bool} {stackSize : Nat} {root : μ} (k : Nat) :
    ∀ {fuel : Nat} {stack : List (Vertex μ)} {s : ReportState μ},
      searchLoop d ndebug stackSize root fuel stack s ≠ .error .outOfFuel →
      searchLoop d ndebug stackSize root (fuel + k) stack s
        = searchLoop d ndebug stackSize root fuel stack s := by
  intro fuel
  induction fuel with
  | zero =>
    intro stack s h
    cases stack with
    | nil => cases k <;> rfl
    | cons v stack => exact absurd rfl h
  | succ fuel ih =>
    intro stack s h
    cases stack with
    | nil => rw [Nat.add_right_comm]; rfl
    | cons v stack =>
      rw [Nat.add_right_comm]
      rw [searchLoop] at h ⊢
      rw [searchLoop]
      cases hs : searchStep d ndebug stackSize root v stack s with
      | error e => rfl
      | ok p =>
        rw [hs] at h
        exact ih h

theorem search_mono {ndebug : Bool} {stackSize fuel : Nat} {root : μ} {s : ReportState μ} (k : Nat)
    (h : depmodReportCyclesFromRoot d ndebug stackSize fuel root s ≠ .error .outOfFuel) :
    depmodReportCyclesFromRoot d ndebug stackSize (fuel + k) root s
      = depmodReportCyclesFromRoot d ndebug stackSize fuel root s := searchLoop_mono k h

/-- Two searches with enough fuel come out alike. -/
theorem search_unique {ndebug : Bool} {stackSize fuel fuel' : Nat} {root : μ} {s : ReportState μ}
    (h : depmodReportCyclesFromRoot d ndebug stackSize fuel root s ≠ .error .outOfFuel)
    (h' : depmodReportCyclesFromRoot d ndebug stackSize fuel' root s ≠ .error .outOfFuel) :
    depmodReportCyclesFromRoot d ndebug stackSize fuel root s
      = depmodReportCyclesFromRoot d ndebug stackSize fuel' root s := by
  rw [← search_mono fuel' h, ← search_mono fuel h', Nat.add_comm]

/-! ## What a search can do at most -/

/-- The chain of parents of a vertex is a walk from the root to it. -/
inductive Walk (d : Depmod μ) (root : μ) : μ → List μ → Prop where
  | root : Walk d root root []
  | dep {x y : μ} {ps : List μ} : Walk d root x ps → d.Needs x y → Walk d root y (x :: ps)

theorem Walk.reach {root x : μ} {ps : List μ} (h : Walk d root x ps) :
    ReflTransGen d.Needs root x := by
  induction h with
  | root => exact .refl
  | dep _ hxy ih => exact ih.tail hxy

theorem Walk.parent {root x : μ} {ps : List μ} (h : Walk d root x ps) :
    ∀ p ∈ ps, ReflTransGen d.Needs root p ∧ TransGen d.Needs p x := by
  induction h with
  | root => intro p hp; exact absurd hp (by simp)
  | dep hw hxy ih =>
    intro p hp
    rcases List.mem_cons.mp hp with rfl | hp
    · exact ⟨hw.reach, .single hxy⟩
    · exact ⟨(ih p hp).1, (ih p hp).2.tail hxy⟩

/-- The sequence printed for a vertex starts at the root and follows dependencies. -/
theorem Walk.isChain {root x : μ} {ps : List μ} (h : Walk d root x ps) :
    (ps.reverse ++ [x]).IsChain d.Needs ∧ (ps.reverse ++ [x]).head? = some root := by
  induction h with
  | root => exact ⟨.singleton _, rfl⟩
  | @dep x y ps hw hxy ih =>
    rw [List.reverse_cons]
    refine ⟨?_, ?_⟩
    · refine ih.1.append (.singleton _) ?_
      intro a ha b hb
      simp at ha hb
      subst ha; subst hb
      exact hxy
    · rw [List.head?_append, ih.2]
      rfl

/-- A printed sequence is a cycle: `k ≥ 1` edges, each a dependency, back to the start. -/
def CycleSeq (d : Depmod μ) (seq : List μ) : Prop :=
  2 ≤ seq.length ∧ seq.head? = seq.getLast? ∧ seq.IsChain d.Needs

/-- A walk that returns to the root is printed as a cycle. -/
theorem Walk.cycleSeq {root : μ} {ps : List μ} (h : Walk d root root ps) (hne : ps ≠ []) :
    CycleSeq d (ps.reverse ++ [root]) := by
  refine ⟨?_, ?_, h.isChain.1⟩
  · have : 0 < ps.length := List.length_pos_of_ne_nil hne
    simp only [List.length_append, List.length_reverse, List.length_singleton]
    omega
  · rw [h.isChain.2]
    simp

theorem mem_children {v w : Vertex μ} (h : w ∈ children d v) :
    d.Needs v.mod w.mod ∧ w.parents = v.mod :: v.parents := by
  obtain ⟨dep, hdep, rfl⟩ := List.mem_map.mp h
  exact ⟨List.mem_reverse.mp hdep, rfl⟩

theorem mem_foldl_hashAddKey {keys set : List CStr} {n : CStr} :
    n ∈ keys.foldl hashAddKey set ↔ n ∈ set ∨ n ∈ keys := by
  induction keys generalizing set with
  | nil => simp
  | cons k keys ih =>
    rw [List.foldl_cons, ih, hashAddKey]
    split
    · rename_i hk
      rw [List.mem_cons]
      refine ⟨?_, ?_⟩
      · rintro (h | h)
        · exact .inl h
        · exact .inr (.inr h)
      · rintro (h | rfl | h)
        · exact .inl h
        · exact .inl hk
        · exact .inr h
    · simp [or_assoc]

theorem nodup_foldl_hashAddKey {keys set : List CStr} (h : set.Nodup) :
    (keys.foldl hashAddKey set).Nodup := by
  induction keys generalizing set with
  | nil => exact h
  | cons k keys ih =>
    rw [List.foldl_cons]
    refine ih ?_
    unfold hashAddKey
    split
    · exact h
    · rename_i hk
      rw [List.nodup_append]
      refine ⟨h, by simp, ?_⟩
      rintro a ha b hb rfl
      exact hk ((List.mem_singleton.mp hb) ▸ ha)

/-- A search may drop from the root list the ends of branches and the cycles of its root. -/
def Droppable (d : Depmod μ) (root y : μ) : Prop :=
  ReflTransGen d.Needs root y ∧ (d.deps y = [] ∨ (OnCycle d.Needs y ∧ ReflTransGen d.Needs y root))

/-- The invariant of a search from `root` that was entered in state `s₀`. -/
structure SearchInv (d : Depmod μ) (root : μ) (s₀ : ReportState μ) (stack : List (Vertex μ))
    (s : ReportState μ) : Prop where
  walk : ∀ v ∈ stack, Walk d root v.mod v.parents
  /-- Only vertices below the root become visited. -/
  visited : ∀ y, s.visited y = true → s₀.visited y = true ∨ ReflTransGen d.Needs root y
  kept : ∀ y, s₀.visited y = true → s.visited y = true
  dropped : ∃ ys, s.roots = removeAll s₀.roots ys ∧ ∀ y ∈ ys, Droppable d root y
  /-- The root itself, the one vertex without parents, leaves the stack unvisited. -/
  fresh : s₀.visited root = false →
    (∃ v, stack = [v] ∧ v.parents = [] ∧ s.visited root = false) ∨ ∀ v ∈ stack, v.parents ≠ []
  reports : ∃ rs, s.reports = s₀.reports ++ rs ∧
    (s₀.visited root = false → ∀ seq ∈ rs, CycleSeq d seq)
  loopSet : ∀ n ∈ s.loopSet, n ∈ s₀.loopSet ∨
    ∃ m, ReflTransGen d.Needs root m ∧ OnCycle d.Needs m ∧ d.modname m = n
  nodup : s₀.loopSet.Nodup → s.loopSet.Nodup

theorem searchInv_init (root : μ) (s : ReportState μ) : SearchInv d root s [⟨root, []⟩] s where
  walk := by
    intro v hv
    rw [List.mem_singleton.mp hv]
    exact .root
  visited := fun y h => .inl h
  kept := fun y h => h
  dropped := ⟨[], rfl, by simp⟩
  fresh := fun h => .inl ⟨_, rfl, rfl, h⟩
  reports := ⟨[], by simp, by simp⟩
  loopSet := fun n h => .inl h
  nodup := fun h => h

section Step

variable {root : μ} {s₀ : ReportState μ} {v : Vertex μ} {stack : List (Vertex μ)}
  {s : ReportState μ}
  (h : SearchInv d root s₀ (v :: stack) s)
include h

/-- Below the top of the stack every vertex has parents. -/
theorem SearchInv.parents_below (hf : s₀.visited root = false) : ∀ w ∈ stack, w.parents ≠ [] := by
  intro w hw
  rcases h.fresh hf with ⟨x, hx, _, _⟩ | hne
  · obtain ⟨_, rfl⟩ := List.cons.inj hx
    exact absurd hw (by simp)
  · exact hne w (List.mem_cons_of_mem _ hw)

theorem SearchInv.visited_visit {y : μ} (hy : (s.visit v.mod).visited y = true) :
    s₀.visited y = true ∨ ReflTransGen d.Needs root y := by
  rcases visited_of_visit hy with hy | rfl
  · exact h.visited y hy
  · exact .inr (h.walk v (List.mem_cons_self ..)).reach

/-- When the search comes back to its root, it has walked around a cycle. -/
theorem SearchInv.cycleSeq (hvis : s.visited v.mod = true) (hroot : v.mod = root)
    (hf : s₀.visited root = false) : CycleSeq d (v.parents.reverse ++ [v.mod]) := by
  have hv := h.walk v (List.mem_cons_self ..)
  have hne : v.parents ≠ [] := by
    rcases h.fresh hf with ⟨x, hx, _, hnv⟩ | hne
    · obtain ⟨rfl, _⟩ := List.cons.inj hx
      rw [hroot, hnv] at hvis
      exact absurd hvis (by simp)
    · exact hne v (List.mem_cons_self ..)
  rw [hroot] at hv ⊢
  exact hv.cycleSeq hne

theorem searchInv_step {stack' : List (Vertex μ)} {s' : ReportState μ}
    (hs : SearchStep d root v stack s stack' s') : SearchInv d root s₀ stack' s' := by
  have hv := h.walk v (List.mem_cons_self ..)
  have hrest : ∀ w ∈ stack, Walk d root w.mod w.parents :=
    fun w hw => h.walk w (List.mem_cons_of_mem _ hw)
  obtain ⟨ys, hys, hdrop⟩ := h.dropped
  obtain ⟨rs, hrs, hcyc⟩ := h.reports
  cases hs with
  | report hvis hroot =>
    -- all parents of a vertex that came back to the root are on a cycle with it
    have hmut : ∀ p ∈ v.parents, ReflTransGen d.Needs root p ∧ OnCycle d.Needs p ∧
        ReflTransGen d.Needs p root := by
      intro p hp
      obtain ⟨h1, h2⟩ := hv.parent p hp
      rw [hroot] at h2
      exact ⟨h1, h2.trans_left h1, h2.to_reflTransGen⟩
    refine ⟨hrest, h.visited, h.kept, ?_, fun hf => .inr (h.parents_below hf), ?_, ?_,
      fun hn => nodup_foldl_hashAddKey (h.nodup hn)⟩
    · refine ⟨ys ++ v.parents.reverse, ?_, ?_⟩
      · rw [removeAll_append, ← hys]
        rfl
      · intro y hy
        rcases List.mem_append.mp hy with hy | hy
        · exact hdrop y hy
        · obtain ⟨h1, h2, h3⟩ := hmut y (List.mem_reverse.mp hy)
          exact ⟨h1, .inr ⟨h2, h3⟩⟩
    · refine ⟨rs ++ [v.parents.reverse ++ [v.mod]], ?_, ?_⟩
      · show s.reports ++ _ = _
        rw [hrs, List.append_assoc]
      · intro hf seq hseq
        rcases List.mem_append.mp hseq with hseq | hseq
        · exact hcyc hf seq hseq
        · rw [List.mem_singleton.mp hseq]
          exact h.cycleSeq hvis hroot hf
    · intro n hn
      rcases mem_foldl_hashAddKey.mp hn with hn | hn
      · exact h.loopSet n hn
      · obtain ⟨p, hp, rfl⟩ := List.mem_map.mp hn
        obtain ⟨h1, h2, _⟩ := hmut p hp
        exact .inr ⟨p, h1, h2, rfl⟩
  | leaf hc hd =>
    refine ⟨hrest, fun _ => h.visited_visit, fun y hy => visit_of_visited (h.kept y hy), ?_,
      fun hf => .inr (h.parents_below hf), ⟨rs, hrs, hcyc⟩, h.loopSet, h.nodup⟩
    refine ⟨ys ++ [v.mod], ?_, ?_⟩
    · rw [removeAll_append, ← hys]
      rfl
    · intro y hy
      rcases List.mem_append.mp hy with hy | hy
      · exact hdrop y hy
      · rw [List.mem_singleton.mp hy]
        exact ⟨hv.reach, .inl hd⟩
  | expand hc hd =>
    refine ⟨?_, fun _ => h.visited_visit, fun y hy => visit_of_visited (h.kept y hy),
      ⟨ys, hys, hdrop⟩, ?_, ⟨rs, hrs, hcyc⟩, h.loopSet, h.nodup⟩
    · intro w hw
      rcases List.mem_append.mp hw with hw | hw
      · obtain ⟨h1, h2⟩ := mem_children hw
        rw [h2]
        exact .dep hv h1
      · exact hrest w hw
    · intro hf
      refine .inr (fun w hw => ?_)
      rcases List.mem_append.mp hw with hw | hw
      · rw [(mem_children hw).2]
        simp
      · exact h.parents_below hf w hw

end Step

/-- **What a search that ended has done at most.** -/
theorem search_inv {ndebug : Bool} {stackSize fuel : Nat} {root : μ} {s s' : ReportState μ}
    (h : depmodReportCyclesFromRoot d ndebug stackSize fuel root s = .ok s') :
    SearchInv d root s [] s' :=
  searchLoop_invariant (SearchInv d root s) (fun _ _ _ _ _ hi hs => searchInv_step hi hs) h
    (searchInv_init root s)

/-! ## When a search cannot end -/

/-- From `x` a cycle can be reached, and walked round, without touching the root. -/
def Trap (d : Depmod μ) (root x : μ) : Prop :=
  x ≠ root ∧ ∃ u, ReflTransGen (Avoid d.Needs root) x u ∧ OnCycle (Avoid d.Needs root) u

/-- A trapped vertex has a trapped dependency. -/
theorem Trap.dep {root x : μ} (h : Trap d root x) : ∃ y, d.Needs x y ∧ Trap d root y := by
  obtain ⟨_, u, hxu, hu⟩ := h
  rcases hxu.cases_head with rfl | ⟨y, hxy, hyu⟩
  · obtain ⟨y, hxy, hyx⟩ := TransGen.head'_iff.mp hu
    exact ⟨y, hxy.1, hxy.2.2, x, hyx, hu⟩
  · exact ⟨y, hxy.1, hxy.2.2, u, hyu, hu⟩

/-- As long as a trapped vertex is on the stack, one stays there. -/
theorem trap_step {root : μ} {v : Vertex μ} {stack : List (Vertex μ)} {s : ReportState μ}
    {stack' : List (Vertex μ)} {s' : ReportState μ}
    (h : (∃ w ∈ v :: stack, Trap d root w.mod) ∨
      (s.visited root = false ∧ v.mod = root ∧ ∃ y, d.Needs root y ∧ Trap d root y))
    (hs : SearchStep d root v stack s stack' s') : ∃ w ∈ stack', Trap d root w.mod := by
  -- a trapped dependency of the popped vertex is pushed
  have hpush : ∀ y, d.Needs v.mod y → Trap d root y →
      ∃ w ∈ children d v ++ stack, Trap d root w.mod := by
    intro y hy ht
    refine ⟨⟨y, v.mod :: v.parents⟩, List.mem_append_left _ ?_, ht⟩
    exact List.mem_map.mpr ⟨y, List.mem_reverse.mpr hy, rfl⟩
  have hcase : (∃ w ∈ stack, Trap d root w.mod) ∨
      (¬(s.visited v.mod = true ∧ v.mod = root) ∧ ∃ y, d.Needs v.mod y ∧ Trap d root y) := by
    rcases h with ⟨w, hw, ht⟩ | ⟨hf, hroot, y, hy, ht⟩
    · rcases List.mem_cons.mp hw with rfl | hw
      · exact .inr ⟨fun hc => ht.1 hc.2, ht.dep⟩
      · exact .inl ⟨w, hw, ht⟩
    · exact .inr ⟨fun hc => by rw [hroot, hf] at hc; simp at hc, y, hroot ▸ hy, ht⟩
  cases hs with
  | report hvis hroot =>
    rcases hcase with hw | ⟨hc, _⟩
    · exact hw
    · exact absurd ⟨hvis, hroot⟩ hc
  | leaf hc hd =>
    rcases hcase with hw | ⟨_, y, hy, _⟩
    · exact hw
    · unfold Needs at hy
      rw [hd] at hy
      exact absurd hy (by simp)
  | expand hc hd =>
    rcases hcase with ⟨w, hw, ht⟩ | ⟨_, y, hy, ht⟩
    · exact ⟨w, List.mem_append_right _ hw, ht⟩
    · exact hpush y hy ht

/-- **A search from an unvisited root that can reach a cycle avoiding it never ends.** -/
theorem search_diverges {ndebug : Bool} {stackSize fuel : Nat} {root : μ} {s s' : ReportState μ}
    (hf : s.visited root = false) (hbad : ¬ HitsAll d.Needs root) :
    depmodReportCyclesFromRoot d ndebug stackSize fuel root s ≠ .ok s' := by
  intro h
  have hstart : ∃ y, d.Needs root y ∧ Trap d root y := by
    unfold HitsAll at hbad
    push Not at hbad
    obtain ⟨u, hru, hu⟩ := hbad
    obtain ⟨y, hy, hne, hyu⟩ := exists_avoid_walk hru (onCycle_avoid_ne hu)
    exact ⟨y, hy, hne, u, hyu, hu⟩
  -- from its first iteration on, the stack holds a vertex that has a trap below it
  have hinv := searchLoop_invariant (d := d)
    (fun stack s => (∃ w ∈ stack, Trap d root w.mod) ∨
      (stack = [⟨root, []⟩] ∧ s.visited root = false))
    (by
      intro v stack s1 stack' s2 hP hs
      refine .inl (trap_step ?_ hs)
      rcases hP with hw | ⟨hst, hf1⟩
      · exact .inl hw
      · obtain ⟨rfl, _⟩ := List.cons.inj hst
        exact .inr ⟨hf1, rfl, hstart⟩) h (.inr ⟨rfl, hf⟩)
  rcases hinv with ⟨w, hw, _⟩ | ⟨hnil, _⟩
  · exact absurd hw (by simp)
  · exact absurd hnil (by simp)

/-! ## What a search does when it can end -/

/-- Flags are only set and roots only dropped. -/
structure Keeps (s s' : ReportState μ) : Prop where
  visited : ∀ y, s.visited y = true → s'.visited y = true
  roots : s'.roots ⊆ s.roots
  nodup : s.roots.Nodup → s'.roots.Nodup

theorem Keeps.refl (s : ReportState μ) : Keeps s s := ⟨fun _ h => h, List.Subset.refl _, fun h => h⟩

theorem Keeps.trans {s s' s'' : ReportState μ} (h : Keeps s s') (h' : Keeps s' s'') : Keeps s s'' :=
  ⟨fun y hy => h'.visited y (h.visited y hy), List.Subset.trans h'.roots h.roots,
    fun hn => h'.nodup (h.nodup hn)⟩

theorem keeps_step {root : μ} {v : Vertex μ} {stack : List (Vertex μ)} {s : ReportState μ}
    {stack' : List (Vertex μ)} {s' : ReportState μ} (hs : SearchStep d root v stack s stack' s') :
    Keeps s s' := by
  cases hs with
  | report _ _ =>
    exact ⟨fun _ h => h, removeAll_subset v.parents.reverse s.roots,
      fun hn => nodup_removeAll hn v.parents.reverse⟩
  | leaf _ _ => exact ⟨fun _ h => visit_of_visited h, ringRemove_subset,
      fun hn => nodup_ringRemove hn⟩
  | expand _ _ => exact ⟨fun _ h => visit_of_visited h, List.Subset.refl _, fun hn => hn⟩

/--
The vertex `x` with parents `ps` has been dealt with: everything that can be
reached from it without passing the root is visited, the ends of branches among
that are dropped from the root list, and so is every vertex on a cycle with the
root, the parents included.
-/
structure Done (d : Depmod μ) (root x : μ) (ps : List μ) (s : ReportState μ) : Prop where
  visited : ∀ y, ReflTransGen (Avoid d.Needs root) x y → s.visited y = true
  leaf : ∀ y, ReflTransGen (Avoid d.Needs root) x y → y ≠ root → d.deps y = [] → y ∉ s.roots
  parents : ReflTransGen d.Needs x root → ∀ p ∈ ps, p ∉ s.roots
  cycle : ∀ y, ReflTransGen (Avoid d.Needs root) x y → y ≠ root →
    ReflTransGen d.Needs y root → y ∉ s.roots

theorem Done.mono {root x : μ} {ps : List μ} {s s' : ReportState μ} (h : Done d root x ps s)
    (hk : Keeps s s') : Done d root x ps s' where
  visited := fun y hy => hk.visited y (h.visited y hy)
  leaf := fun y hy hne hd hin => h.leaf y hy hne hd (hk.roots hin)
  parents := fun hr p hp hin => h.parents hr p hp (hk.roots hin)
  cycle := fun y hy hne hr hin => h.cycle y hy hne hr (hk.roots hin)

/--
The search deals with the vertex on top of the stack and comes back to the rest, or the stack
gets full.
-/
def Drains (d : Depmod μ) (ndebug : Bool) (stackSize : Nat) (root : μ) (v : Vertex μ) : Prop :=
  ∀ (stack : List (Vertex μ)) (s : ReportState μ), s.visited root = true → s.roots.Nodup →
    (∃ k, ∀ f, searchLoop d ndebug stackSize root (k + f) (v :: stack) s
        = .error (fullStack ndebug)) ∨
    ∃ k s', Keeps s s' ∧ Done d root v.mod v.parents s' ∧
      ∀ f, searchLoop d ndebug stackSize root (k + f) (v :: stack) s
        = searchLoop d ndebug stackSize root f stack s'

/-- Vertices that drain one by one drain as the top of one stack. -/
theorem drains_list {ndebug : Bool} {stackSize : Nat} {root : μ} :
    ∀ (vs : List (Vertex μ)), (∀ v ∈ vs, Drains d ndebug stackSize root v) →
    ∀ (stack : List (Vertex μ)) (s : ReportState μ), s.visited root = true → s.roots.Nodup →
      (∃ k, ∀ f, searchLoop d ndebug stackSize root (k + f) (vs ++ stack) s
          = .error (fullStack ndebug)) ∨
      ∃ k s', Keeps s s' ∧ (∀ v ∈ vs, Done d root v.mod v.parents s') ∧
        ∀ f, searchLoop d ndebug stackSize root (k + f) (vs ++ stack) s
          = searchLoop d ndebug stackSize root f stack s' := by
  intro vs
  induction vs with
  | nil =>
    intro _ stack s _ _
    exact .inr ⟨0, s, Keeps.refl s, by simp, fun f => by rw [Nat.zero_add]; rfl⟩
  | cons v vs ih =>
    intro hv stack s hr hnd
    -- first `v` with the rest of the list below it, then the rest from the state `v` leaves
    rcases hv v (List.mem_cons_self ..) (vs ++ stack) s hr hnd with h | ⟨k1, s1, hk1, hd1, he1⟩
    · exact .inl h
    · rcases ih (fun w hw => hv w (List.mem_cons_of_mem _ hw)) stack s1 (hk1.visited root hr)
        (hk1.nodup hnd) with ⟨k2, he2⟩ | ⟨k2, s2, hk2, hd2, he2⟩
      · refine .inl ⟨k1 + k2, fun f => ?_⟩
        rw [Nat.add_assoc]
        exact (he1 (k2 + f)).trans (he2 f)
      · refine .inr ⟨k1 + k2, s2, hk1.trans hk2, ?_, fun f => ?_⟩
        · intro w hw
          rcases List.mem_cons.mp hw with rfl | hw
          · exact hd1.mono hk2
          · exact hd2 w hw
        · rw [Nat.add_assoc]
          exact (he1 (k2 + f)).trans (he2 f)

/-- The children of a vertex other than the root make it done. -/
theorem done_of_children {root x : μ} {ps : List μ} {s : ReportState μ} (hx : x ≠ root)
    (hvis : s.visited x = true) (hne : d.deps x ≠ [])
    (hch : ∀ y, d.Needs x y → Done d root y (x :: ps) s) : Done d root x ps s := by
  -- a walk back to the root leaves `x` by one of its children
  have hparents : ReflTransGen d.Needs x root → ∀ p ∈ x :: ps, p ∉ s.roots := by
    intro hr
    rcases hr.cases_head with he | ⟨y, hxy, hyr⟩
    · exact absurd he hx
    · exact (hch y hxy).parents hyr
  refine ⟨?_, ?_, fun hr p hp => hparents hr p (List.mem_cons_of_mem _ hp), ?_⟩
  · intro y hy
    rcases hy.cases_head with rfl | ⟨z, hxz, hzy⟩
    · exact hvis
    · exact (hch z hxz.1).visited y hzy
  · intro y hy hyr hd
    rcases hy.cases_head with rfl | ⟨z, hxz, hzy⟩
    · exact absurd hd hne
    · exact (hch z hxz.1).leaf y hzy hyr hd
  · intro y hy hyr hback
    rcases hy.cases_head with rfl | ⟨z, hxz, hzy⟩
    · exact hparents hback x (List.mem_cons_self ..)
    · exact (hch z hxz.1).cycle y hzy hyr hback

/-- The end of a branch is done once it is visited and dropped. -/
theorem done_of_leaf {root x : μ} {ps : List μ} {s : ReportState μ} (hx : x ≠ root)
    (hleaf : d.deps x = []) (hvis : s.visited x = true) (hdrop : x ∉ s.roots) :
    Done d root x ps s := by
  -- no walk leaves `x`
  have honly : ∀ {r : μ → μ → Prop} {y : μ}, (∀ a b, r a b → d.Needs a b) →
      ReflTransGen r x y → y = x := by
    intro r y hr hy
    rcases hy.cases_head with h | ⟨z, hz, _⟩
    · exact h.symm
    · have := hr _ _ hz
      unfold Needs at this
      rw [hleaf] at this
      exact absurd this (by simp)
  have hav : ∀ a b, Avoid d.Needs root a b → d.Needs a b := fun _ _ => avoid_le
  refine ⟨?_, ?_, ?_, ?_⟩
  · intro y hy; rw [honly hav hy]; exact hvis
  · intro y hy _ _; rw [honly hav hy]; exact hdrop
  · intro hr; exact absurd (honly (fun _ _ h => h) hr).symm hx
  · intro y hy _ _; rw [honly hav hy]; exact hdrop

/-- The root coming round again drains in one step. -/
theorem drains_root {ndebug : Bool} {stackSize : Nat} {root : μ} (ps : List μ) :
    Drains d ndebug stackSize root ⟨root, ps⟩ := by
  intro stack s hr hnd
  have hloop : ∀ f, searchLoop d ndebug stackSize root (1 + f) (⟨root, ps⟩ :: stack) s
      = searchLoop d ndebug stackSize root f stack (depmodReportOneCycle d ⟨root, ps⟩ s) := by
    intro f
    rw [Nat.add_comm, searchLoop]
    simp only [searchStep, hr, decide_true, Bool.and_true, if_true]
    rfl
  refine .inr ⟨1, _, keeps_step
    (show SearchStep d root ⟨root, ps⟩ stack s stack _ from .report hr rfl), ?_, hloop⟩
  -- off the root, no walk leaves the root
  have havoid : ∀ y, ReflTransGen (Avoid d.Needs root) root y → y = root := by
    intro y hy
    rcases hy.cases_head with he | ⟨z, hz, _⟩
    · exact he.symm
    · exact absurd rfl hz.2.1
  refine ⟨fun y hy => by rw [havoid y hy]; exact hr, fun y hy hne => absurd (havoid y hy) hne, ?_,
    fun y hy hne => absurd (havoid y hy) hne⟩
  intro _ p hp hin
  exact ((mem_removeAll hnd).mp hin).2 (List.mem_reverse.mpr hp)

/-- **Without a cycle that avoids the root, every vertex below the root drains.** -/
theorem drain {ndebug : Bool} {stackSize : Nat} {root : μ} (hd : d.WellFormed)
    (hroot : root ∈ d.modules) (hhit : HitsAll d.Needs root) :
    ∀ x, ReflTransGen d.Needs root x → ∀ ps, Drains d ndebug stackSize root ⟨x, ps⟩ := by
  let S : Set μ := {x | ReflTransGen d.Needs root x}
  have hfin : S.Finite :=
    (List.finite_toSet d.modules).subset (fun x hx => hd.mem_of_reach hroot hx)
  -- off the root there is no cycle, so the children may be taken to drain
  refine acyclic_induction (r := Avoid d.Needs root) hfin (fun v hv => hhit v hv) ?_
  intro x hx ih ps
  by_cases hxr : x = root
  · subst hxr
    exact drains_root ps
  -- the root among the children drains by itself, the others by induction
  · have hchild : ∀ w ∈ children d ⟨x, ps⟩, Drains d ndebug stackSize root w := by
      intro w hw
      obtain ⟨hxw, hps⟩ := mem_children hw
      by_cases hwr : w.mod = root
      · have : w = ⟨root, x :: ps⟩ := by cases w; simp_all
        rw [this]
        exact drains_root _
      · have hw' : w = ⟨w.mod, x :: ps⟩ := by cases w; simp_all
        rw [hw']
        exact ih w.mod (ReflTransGen.tail hx hxw) ⟨hxw, hxr, hwr⟩ _
    intro stack s hr hnd
    rcases searchLoop_succ d ndebug stackSize root ⟨x, ps⟩ stack s with ⟨st, s1, hs, he⟩ | he
    · have hk1 := keeps_step hs
      cases hs with
      | report _ h => exact absurd h hxr
      | leaf _ hleaf =>
        refine .inr ⟨1, _, hk1, ?_, fun f => by rw [Nat.add_comm]; exact he f⟩
        exact done_of_leaf hxr hleaf (visit_self s x) (notMem_ringRemove hnd)
      | expand _ hne =>
        rcases drains_list _ hchild stack (s.visit x) (hk1.visited root hr) hnd with
          ⟨k, hk⟩ | ⟨k, s', hk, hdone, hloop⟩
        · refine .inl ⟨k + 1, fun f => ?_⟩
          rw [Nat.add_right_comm]
          exact (he (k + f)).trans (hk f)
        · refine .inr ⟨k + 1, s', hk1.trans hk, ?_, fun f => ?_⟩
          · refine done_of_children hxr (hk.visited x (visit_self s x)) hne (fun y hy => ?_)
            exact hdone ⟨y, x :: ps⟩ (List.mem_map.mpr ⟨y, List.mem_reverse.mpr hy, rfl⟩)
          · rw [Nat.add_right_comm]
            exact (he (k + f)).trans (hloop f)
    · exact .inl ⟨1, fun f => by rw [Nat.add_comm]; exact he f⟩

/-! ## The search as a whole -/

/-- What a search from an unvisited root leaves behind: everything below the root is visited, and
the ends of branches and the cycles of the root are dropped from the list. -/
structure Searched (d : Depmod μ) (root : μ) (s : ReportState μ) : Prop where
  visited : ∀ y, ReflTransGen d.Needs root y → s.visited y = true
  leaf : ∀ y, ReflTransGen d.Needs root y → d.deps y = [] → y ∉ s.roots
  cycle : ∀ y, Mutual d.Needs root y → y ∉ s.roots

/--
**A search whose root hits every cycle within reach ends.** It returns a state
that is `Searched`, or stops at the full stack.
-/
theorem search_ends (hd : d.WellFormed) (ndebug : Bool) (stackSize : Nat) {root : μ}
    (hroot : root ∈ d.modules) (hhit : HitsAll d.Needs root) {s : ReportState μ}
    (hf : s.visited root = false) (hnd : s.roots.Nodup) (hnot : root ∉ s.roots) :
    (∃ fuel, depmodReportCyclesFromRoot d ndebug stackSize fuel root s
      = .error (fullStack ndebug)) ∨
    ∃ fuel s', depmodReportCyclesFromRoot d ndebug stackSize fuel root s = .ok s' ∧
      Searched d root s' := by
  rcases searchLoop_succ d ndebug stackSize root ⟨root, []⟩ [] s with ⟨st, s1, hs, he⟩ | he
  · have hk1 := keeps_step hs
    cases hs with
    | report hvis _ => rw [hf] at hvis; exact absurd hvis (by simp)
    -- a root without dependencies: nothing else can be reached
    | leaf _ hleaf =>
      have honly : ∀ y, ReflTransGen d.Needs root y → y = root := by
        intro y hy
        rcases hy.cases_head with h | ⟨z, hz, _⟩
        · exact h.symm
        · rw [Needs, hleaf] at hz; exact absurd hz (by simp)
      refine .inr ⟨1, _, he 0, ?_, ?_, ?_⟩
      · intro y hy; rw [honly y hy]; exact visit_self s root
      · intro y hy _ hin; exact hnot (honly y hy ▸ hk1.roots hin)
      · intro y hy hin; exact hnot (honly y hy.1 ▸ hk1.roots hin)
    | expand _ hne =>
      have hchild : ∀ w ∈ children d ⟨root, []⟩, Drains d ndebug stackSize root w := by
        intro w hw
        obtain ⟨hxw, _⟩ := mem_children hw
        exact drain hd hroot hhit w.mod (.single hxw) w.parents
      rcases drains_list _ hchild [] (s.visit root) (visit_self s root) hnd with
        ⟨k, hk⟩ | ⟨k, s', hk, hdone, hloop⟩
      · refine .inl ⟨k + 1, ?_⟩
        exact (he k).trans (hk 0)
      · refine .inr ⟨k + 1, s', ?_, ?_⟩
        · have := (he k).trans (hloop 0)
          cases k <;> exact this
        -- every walk off the root starts with one of its children
        · have hdone' : ∀ y, d.Needs root y → Done d root y [root] s' := fun y hy =>
            hdone ⟨y, [root]⟩ (List.mem_map.mpr ⟨y, List.mem_reverse.mpr hy, rfl⟩)
          have hroot' : root ∉ s'.roots := fun hin => hnot (hk.roots hin)
          refine ⟨?_, ?_, ?_⟩
          · intro y hy
            by_cases hyr : y = root
            · subst hyr; exact hk.visited y (visit_self s y)
            · obtain ⟨x, hx, _, hxy⟩ := exists_avoid_walk hy hyr
              exact (hdone' x hx).visited y hxy
          · intro y hy hleaf
            by_cases hyr : y = root
            · subst hyr; exact hroot'
            · obtain ⟨x, hx, _, hxy⟩ := exists_avoid_walk hy hyr
              exact (hdone' x hx).leaf y hxy hyr hleaf
          · intro y hy
            by_cases hyr : y = root
            · subst hyr; exact hroot'
            · obtain ⟨x, hx, _, hxy⟩ := exists_avoid_walk hy.1 hyr
              exact (hdone' x hx).cycle y hxy hyr hy.2
  · exact .inl ⟨1, he 0⟩

/-- A search from a root that an earlier search visited prints the root alone and stops. -/
theorem search_visited {ndebug : Bool} {stackSize fuel : Nat} {root : μ} {s : ReportState μ}
    (hv : s.visited root = true) :
    depmodReportCyclesFromRoot d ndebug stackSize (fuel + 1) root s
      = .ok { s with reports := s.reports ++ [[root]] } := by
  unfold depmodReportCyclesFromRoot searchLoop
  simp only [searchStep, hv, decide_true, Bool.and_true, if_true]
  cases fuel <;> rfl

end Kmod.Depmod
