import Kmod.Depmod.Calculate
import Mathlib.Tactic.Ring
import Mathlib.Tactic.Linarith

/-!
# The topological sort is sound and complete

The loop keeps one balance: the counter of a module is the number of modules that
depend on it and have not been emitted yet. A module is emitted or waiting on the
stack exactly when its counter is zero. From that everything follows: a counter
about to be decremented is positive, no module is pushed twice, so the two arrays
are long enough, and a module is emitted after all its users.

What the sort leaves over is a set in which every module has a user that is also
left over. Such a set, when it is not empty, contains a cycle.
-/

namespace Kmod.Depmod

open Relation Kmod.Digraph Kmod.Lists

variable {μ : Type} [DecidableEq μ]

/-! ## The invariant -/

/-- The number of modules that depend on `m` and have not been emitted. -/
def openUsers (d : Depmod μ) (sorted : List Nat) (m : μ) : Nat :=
  d.modules.countP (fun x => decide (d.idx x ∉ sorted) && decide (m ∈ d.deps x))

/--
The invariant of the sort loop. `pending` are the dependencies of the module
emitted last whose counters have not been lowered yet.
-/
structure SortInv (d : Depmod μ) (pending : List μ) (s : SortState μ) : Prop where
  nodup : (s.sorted ++ s.roots).Nodup
  lt : ∀ i ∈ s.sorted ++ s.roots, i < d.modules.length
  /-- A counter is the number of dependents still to come, plus the decrement still owed. -/
  users : ∀ m ∈ d.modules,
    s.users[d.idx m]? = some (openUsers d s.sorted m + pending.count m)
  /-- Exactly the modules with a zero counter are emitted or on the stack. -/
  zero : ∀ m ∈ d.modules, d.idx m ∈ s.sorted ++ s.roots ↔ s.users[d.idx m]? = some 0
  /-- Users are emitted first. -/
  order : ∀ (k : Nat) (m x : μ), s.sorted[k]? = some (d.idx m) → m ∈ d.modules → x ∈ d.modules →
    m ∈ d.deps x → ∃ k' < k, s.sorted[k']? = some (d.idx x)
  /-- Emitted modules carry their position. -/
  depSortIdx : ∀ (k : Nat) (m : μ), m ∈ d.modules → s.sorted[k]? = some (d.idx m) →
    s.depSortIdx m = k
  len : s.users.length = d.modules.length

/-- There is always room to push a root that is neither emitted nor on the stack. -/
theorem SortInv.room {d : Depmod μ} {pending : List μ} {s : SortState μ}
    (h : SortInv d pending s) {i : Nat} (hi : i ∉ s.sorted ++ s.roots)
    (hlt : i < d.modules.length) :
    s.sorted.length + s.roots.length < d.modules.length := by
  have hnd : (i :: (s.sorted ++ s.roots)).Nodup := List.nodup_cons.mpr ⟨hi, h.nodup⟩
  have := length_le_of_nodup_lt hnd (by
    intro j hj
    rcases List.mem_cons.mp hj with rfl | hj
    · exact hlt
    · exact h.lt j hj)
  simp only [List.length_cons, List.length_append] at this
  omega

/-! ## The inner loop -/

/-- Lowering one counter. The module joins the stack exactly when its counter reaches zero. -/
theorem SortInv.release {d : Depmod μ} (hd : d.WellFormed) {dst : μ} {rest : List μ}
    {s : SortState μ} (h : SortInv d (dst :: rest) s) (hdst : dst ∈ d.modules)
    (hnd : (dst :: rest).Nodup) :
    ∃ u, s.users[d.idx dst]? = some (u + 1) ∧
      (u ≠ 0 → SortInv d rest { s with users := s.users.set (d.idx dst) u }) ∧
      (u = 0 → s.roots.length < d.modules.length ∧
        SortInv d rest
          { s with users := s.users.set (d.idx dst) u, roots := d.idx dst :: s.roots }) := by
  have hrest : rest.count dst = 0 := List.count_eq_zero.mpr (List.nodup_cons.mp hnd).1
  have hu := h.users dst hdst
  rw [List.count_cons_self, hrest] at hu
  have hlt := hd.idx_lt hdst
  -- the counter array after the decrement
  have hset : ∀ m ∈ d.modules, (s.users.set (d.idx dst) (openUsers d s.sorted dst))[d.idx m]?
      = some (openUsers d s.sorted m + rest.count m) := by
    intro m hm
    by_cases hmd : m = dst
    · subst hmd
      rw [List.getElem?_set_self (by rw [h.len]; exact hlt), hrest]
      rfl
    · have hne : d.idx dst ≠ d.idx m := fun he => hmd (hd.idx_inj hm hdst he.symm)
      rw [List.getElem?_set_ne hne, h.users m hm, List.count_cons_of_ne (fun he => hmd he.symm)]
  have hother : ∀ m ∈ d.modules, m ≠ dst →
      (s.users.set (d.idx dst) (openUsers d s.sorted dst))[d.idx m]? = s.users[d.idx m]? := by
    intro m hm hmd
    exact List.getElem?_set_ne (fun he => hmd (hd.idx_inj hm hdst he.symm))
  have hnot : d.idx dst ∉ s.sorted ++ s.roots := by
    intro hin
    have := (h.zero dst hdst).mp hin
    rw [hu] at this
    exact absurd (Option.some.inj this) (by omega)
  refine ⟨openUsers d s.sorted dst, hu, fun hu0 => ?_, fun hu0 => ⟨?_, ?_⟩⟩
  · refine ⟨h.nodup, h.lt, hset, ?_, h.order, h.depSortIdx, by simpa using h.len⟩
    intro m hm
    by_cases hmd : m = dst
    · subst hmd
      rw [hset m hm, hrest]
      exact ⟨fun hin => absurd hin hnot, fun he => absurd (Option.some.inj he) (by omega)⟩
    · show _ ↔ (s.users.set (d.idx dst) (openUsers d s.sorted dst))[d.idx m]? = some 0
      rw [hother m hm hmd]
      exact h.zero m hm
  · have := h.room hnot hlt
    omega
  · refine ⟨?_, ?_, hset, ?_, h.order, h.depSortIdx, by simpa using h.len⟩
    · have hperm : (s.sorted ++ d.idx dst :: s.roots).Perm (d.idx dst :: (s.sorted ++ s.roots)) :=
        List.perm_middle
      exact hperm.nodup_iff.mpr (List.nodup_cons.mpr ⟨hnot, h.nodup⟩)
    · intro i hi
      rcases List.mem_append.mp hi with hi | hi
      · exact h.lt i (List.mem_append_left _ hi)
      · rcases List.mem_cons.mp hi with rfl | hi
        · exact hlt
        · exact h.lt i (List.mem_append_right _ hi)
    · intro m hm
      by_cases hmd : m = dst
      · subst hmd
        rw [hset m hm, hrest, hu0]
        exact ⟨fun _ => rfl, fun _ => by simp⟩
      · have hne : d.idx m ≠ d.idx dst := fun he => hmd (hd.idx_inj hm hdst he)
        show d.idx m ∈ s.sorted ++ d.idx dst :: s.roots ↔
          (s.users.set (d.idx dst) (openUsers d s.sorted dst))[d.idx m]? = some 0
        rw [hother m hm hmd, ← h.zero m hm]
        simp [hne]

/-- The inner loop ends without a fault, pays every pending decrement and emits nothing. -/
theorem releaseDeps_inv {d : Depmod μ} (hd : d.WellFormed) :
    ∀ (pending : List μ) (s : SortState μ), SortInv d pending s → pending.Nodup →
      (∀ m ∈ pending, m ∈ d.modules) →
      ∃ s', releaseDeps d pending s = .ok s' ∧ SortInv d [] s' ∧ s'.sorted = s.sorted := by
  intro pending
  induction pending with
  | nil => intro s h _ _; exact ⟨s, rfl, h, rfl⟩
  | cons dst rest ih =>
    intro s h hnd hmem
    obtain ⟨u, hu, hpos, hzero⟩ := h.release hd (hmem dst (List.mem_cons_self ..)) hnd
    have hnd' := (List.nodup_cons.mp hnd).2
    have hmem' : ∀ m ∈ rest, m ∈ d.modules := fun m hm => hmem m (List.mem_cons_of_mem _ hm)
    unfold releaseDeps
    rw [hu]
    -- a counter that reaches zero puts the module on the stack
    by_cases hu0 : u = 0
    · obtain ⟨hroom, hinv⟩ := hzero hu0
      obtain ⟨s', hs', hinv', hsorted⟩ := ih _ hinv hnd' hmem'
      refine ⟨s', ?_, hinv', hsorted⟩
      simp only [hu0, if_true, pushRoot]
      rw [if_pos hroom, ← hu0]
      exact hs'
    · obtain ⟨s', hs', hinv', hsorted⟩ := ih _ (hpos hu0) hnd' hmem'
      refine ⟨s', ?_, hinv', hsorted⟩
      simp only [hu0, if_false]
      exact hs'

/-! ## The outer loop -/

/-- A module that is emitted leaves the open users of its dependencies. -/
theorem openUsers_concat {d : Depmod μ} (hd : d.WellFormed) {m : μ} (hm : m ∈ d.modules)
    {sorted : List Nat} (hnew : d.idx m ∉ sorted) (x : μ) :
    openUsers d sorted x = openUsers d (sorted ++ [d.idx m]) x + (d.deps m).count x := by
  have hcount : (d.deps m).count x = if x ∈ d.deps m then 1 else 0 := by
    by_cases hxm : x ∈ d.deps m
    · rw [List.count_eq_one_of_mem (hd.deps_nodup m hm) hxm, if_pos hxm]
    · rw [List.count_eq_zero.mpr hxm, if_neg hxm]
  have hsplit := countP_ne_add hd.nodup hm
    (fun y => decide (d.idx y ∉ sorted) && decide (x ∈ d.deps y))
  -- the open users are those of before without `m`
  have hcong : openUsers d (sorted ++ [d.idx m]) x
      = d.modules.countP (fun y => decide (y ≠ m) &&
          (decide (d.idx y ∉ sorted) && decide (x ∈ d.deps y))) := by
    refine List.countP_congr (fun y hy => ?_)
    have hiff : d.idx y = d.idx m ↔ y = m :=
      ⟨fun he => hd.idx_inj hy hm he, fun he => he ▸ rfl⟩
    simp only [List.mem_append, List.mem_singleton, not_or, hiff, Bool.and_eq_true,
      decide_eq_true_eq, ne_eq]
    tauto
  simp only [hnew, not_false_eq_true, decide_true, Bool.true_and, decide_eq_true_eq] at hsplit
  rw [hcong, hcount]
  exact hsplit.symm

/-- A position was taken before, or it is the one of the module just emitted. -/
theorem sorted_concat_cases {d : Depmod μ} (hd : d.WellFormed) {m x : μ} (hm : m ∈ d.modules)
    (hx : x ∈ d.modules) {sorted : List Nat} {k : Nat}
    (hk : (sorted ++ [d.idx m])[k]? = some (d.idx x)) :
    sorted[k]? = some (d.idx x) ∨ (k = sorted.length ∧ x = m) := by
  rw [List.getElem?_append] at hk
  split at hk
  · exact .inl hk
  · obtain ⟨hlt, he⟩ := List.getElem?_eq_some_iff.mp hk
    rw [List.length_singleton] at hlt
    exact .inr ⟨by omega, hd.idx_inj hx hm (by simpa using he.symm)⟩

/-- Emitting the module on top of the stack turns its dependencies into pending decrements. -/
theorem SortInv.emit {d : Depmod μ} (hd : d.WellFormed) {m : μ} {roots : List Nat}
    {s : SortState μ} (h : SortInv d [] s) (hm : m ∈ d.modules)
    (hroots : s.roots = d.idx m :: roots) :
    s.sorted.length < d.modules.length ∧
    SortInv d (d.deps m)
      { users := s.users, roots := roots, sorted := s.sorted ++ [d.idx m],
        depSortIdx := Function.update s.depSortIdx m s.sorted.length } := by
  have hnd := h.nodup
  rw [hroots] at hnd
  have hin : d.idx m ∈ s.sorted ++ s.roots := by rw [hroots]; simp
  have hnew : d.idx m ∉ s.sorted := by
    intro hin
    exact (List.nodup_append.mp hnd).2.2 _ hin _ (List.mem_cons_self ..) rfl
  have hmem : ∀ i, i ∈ (s.sorted ++ [d.idx m]) ++ roots ↔ i ∈ s.sorted ++ s.roots := by
    intro i; rw [hroots]; simp
  have hopen : openUsers d s.sorted m = 0 := by
    have h0 := (h.zero m hm).mp hin
    rw [h.users m hm] at h0
    simpa using Option.some.inj h0
  refine ⟨?_, ?_, ?_, ?_, ?_, ?_, ?_, h.len⟩
  · have := length_le_of_nodup_lt h.nodup h.lt
    rw [hroots] at this
    simp only [List.length_append, List.length_cons] at this
    omega
  · simpa using hnd
  · intro i hi; exact h.lt i ((hmem i).mp hi)
  · intro x hx
    rw [h.users x hx, openUsers_concat hd hm hnew x]
    rfl
  · intro x hx
    rw [← h.zero x hx]
    exact hmem _
  · intro k x y hk hx hy hxy
    rcases sorted_concat_cases hd hm hx hk with hk | ⟨rfl, rfl⟩
    · have hlt : k < s.sorted.length := (List.getElem?_eq_some_iff.mp hk).1
      obtain ⟨k', hk', hyk⟩ := h.order k x y hk hx hy hxy
      exact ⟨k', hk', by rw [List.getElem?_append_left (by omega)]; exact hyk⟩
    · -- the module just emitted: every user has been emitted before it
      have hemitted : d.idx y ∈ s.sorted := by
        by_contra hno
        unfold openUsers at hopen
        rw [List.countP_eq_zero] at hopen
        exact hopen y hy (by simp [hno, hxy])
      obtain ⟨k', hk'⟩ := List.mem_iff_getElem?.mp hemitted
      have hlt' : k' < s.sorted.length := (List.getElem?_eq_some_iff.mp hk').1
      exact ⟨k', hlt', by rw [List.getElem?_append_left hlt']; exact hk'⟩
  · intro k x hx hk
    rcases sorted_concat_cases hd hm hx hk with hk | ⟨rfl, rfl⟩
    · have hne : x ≠ m := fun he => hnew (he ▸ List.mem_of_getElem? hk)
      show Function.update s.depSortIdx m _ x = k
      rw [Function.update_of_ne hne]
      exact h.depSortIdx k x hx hk
    · exact Function.update_self ..

/-- One iteration of the loop: no fault, one more module emitted, the invariant kept. -/
theorem emitRoot_inv {d : Depmod μ} (hd : d.WellFormed) {src : Nat} {roots : List Nat}
    {s : SortState μ} (h : SortInv d [] s) (hroots : s.roots = src :: roots) :
    ∃ s', emitRoot d src { s with roots := roots } = .ok s' ∧ SortInv d [] s' ∧
      s'.sorted.length = s.sorted.length + 1 := by
  have hlt : src < d.modules.length := h.lt src (by rw [hroots]; simp)
  have hsrc : d.modules[src]? = some d.modules[src] := List.getElem?_eq_getElem hlt
  have hm : d.modules[src] ∈ d.modules := List.getElem_mem hlt
  have hidx : d.idx d.modules[src] = src := hd.idx_eq src _ hsrc
  obtain ⟨hroom, hinv⟩ := h.emit hd hm (by rw [hidx]; exact hroots)
  obtain ⟨s', hs', hinv', hsorted⟩ := releaseDeps_inv hd _ _ hinv (hd.deps_nodup _ hm)
    (fun x hx => hd.deps_mem _ hm x hx)
  refine ⟨s', ?_, hinv', by rw [hsorted]; simp⟩
  unfold emitRoot
  rw [hsrc]
  simp only [hroom, if_true]
  rw [hidx] at hs'
  exact hs'

/-- The sort loop ends after at most as many iterations as there are modules. -/
theorem sortLoop_inv {d : Depmod μ} (hd : d.WellFormed) :
    ∀ (fuel : Nat) (s : SortState μ), SortInv d [] s →
      d.modules.length ≤ s.sorted.length + fuel →
      ∃ s', sortLoop d fuel s = .ok s' ∧ SortInv d [] s' ∧ s'.roots = [] := by
  intro fuel
  induction fuel with
  | zero =>
    intro s h hfuel
    have hle := length_le_of_nodup_lt h.nodup h.lt
    simp only [List.length_append] at hle
    have hnil : s.roots = [] := List.length_eq_zero_iff.mp (by omega)
    exact ⟨s, by rw [sortLoop, hnil], h, hnil⟩
  | succ fuel ih =>
    intro s h hfuel
    cases hroots : s.roots with
    | nil => exact ⟨s, by rw [sortLoop, hroots], h, hroots⟩
    | cons src roots =>
      obtain ⟨s1, hs1, hinv1, hlen⟩ := emitRoot_inv hd h hroots
      obtain ⟨s', hs', hinv', hnil⟩ := ih s1 hinv1 (by omega)
      refine ⟨s', ?_, hinv', hnil⟩
      unfold sortLoop
      rw [hroots]
      simp only [hs1]
      exact hs'

/-! ## Populating the counters -/

/-- After `i` modules the counters are filled in and the roots are those without users. -/
theorem populateUsers_spec {d : Depmod μ} (hd : d.WellFormed) :
    ∀ (ms pre : List μ) (s : SortState μ), d.modules = pre ++ ms →
      s.users = pre.map d.users → s.roots.Nodup →
      (∀ i, i ∈ s.roots ↔ ∃ m ∈ pre, d.idx m = i ∧ d.users m = 0) →
      ∃ s', populateUsers d pre.length ms s = .ok s' ∧ s'.users = d.modules.map d.users ∧
        s'.roots.Nodup ∧ (∀ i, i ∈ s'.roots ↔ ∃ m ∈ d.modules, d.idx m = i ∧ d.users m = 0) ∧
        s'.sorted = s.sorted ∧ s'.depSortIdx = s.depSortIdx := by
  intro ms
  induction ms with
  | nil =>
    intro pre s hsplit husers hnd hroots
    rw [List.append_nil] at hsplit
    exact ⟨s, rfl, by rw [hsplit, husers], hnd, by rw [hsplit]; exact hroots, rfl, rfl⟩
  | cons m ms ih =>
    intro pre s hsplit husers hnd hroots
    have hsplit' : d.modules = (pre ++ [m]) ++ ms := by rw [hsplit]; simp
    have hidx : d.idx m = pre.length := hd.idx_eq pre.length m (by rw [hsplit]; simp)
    have hbelow : ∀ i ∈ s.roots, i < pre.length := by
      intro i hi
      obtain ⟨x, hx, hxi, _⟩ := (hroots i).mp hi
      obtain ⟨k, hk⟩ := List.mem_iff_getElem?.mp hx
      have hklt : k < pre.length := (List.getElem?_eq_some_iff.mp hk).1
      have := hd.idx_eq k x (by rw [hsplit, List.getElem?_append_left hklt]; exact hk)
      omega
    have hmnew : pre.length ∉ s.roots := fun hin => Nat.lt_irrefl _ (hbelow _ hin)
    have hlen : pre.length < d.modules.length := by rw [hsplit]; simp
    have hroom : s.roots.length < d.modules.length :=
      Nat.lt_of_le_of_lt (length_le_of_nodup_lt hnd hbelow) hlen
    unfold populateUsers
    -- a module without users becomes a root at its position
    by_cases hu : d.users m = 0
    · have hstep := ih (pre ++ [m])
        { s with users := s.users ++ [d.users m], roots := pre.length :: s.roots } hsplit'
        (by simp [husers]) (List.nodup_cons.mpr ⟨hmnew, hnd⟩) (by
          intro i
          simp only [List.mem_cons, hroots, List.mem_append, List.not_mem_nil, or_false]
          refine ⟨?_, ?_⟩
          · rintro (rfl | ⟨x, hx, hxi, hxu⟩)
            · exact ⟨m, Or.inr rfl, hidx, hu⟩
            · exact ⟨x, Or.inl hx, hxi, hxu⟩
          · rintro ⟨x, hx | hx, hxi, hxu⟩
            · exact Or.inr ⟨x, hx, hxi, hxu⟩
            · rw [hx, hidx] at hxi
              exact Or.inl hxi.symm)
      obtain ⟨s', hs', hrest⟩ := hstep
      refine ⟨s', ?_, hrest⟩
      simp only [hu, if_true, pushRoot, hroom]
      rw [List.length_append, List.length_singleton, hu] at hs'
      exact hs'
    · have hstep := ih (pre ++ [m]) { s with users := s.users ++ [d.users m] } hsplit'
        (by simp [husers]) hnd (by
          intro i
          rw [show ({ s with users := s.users ++ [d.users m] } : SortState μ).roots = s.roots
            from rfl, hroots]
          refine ⟨?_, ?_⟩
          · rintro ⟨x, hx, hxi, hxu⟩
            exact ⟨x, List.mem_append_left _ hx, hxi, hxu⟩
          · rintro ⟨x, hx, hxi, hxu⟩
            rcases List.mem_append.mp hx with hx | hx
            · exact ⟨x, hx, hxi, hxu⟩
            · rw [List.mem_singleton.mp hx] at hxu
              exact absurd hxu hu)
      obtain ⟨s', hs', hrest⟩ := hstep
      refine ⟨s', ?_, hrest⟩
      simp only [hu, if_false]
      rw [List.length_append, List.length_singleton] at hs'
      exact hs'

/-- The invariant holds when the loop is entered. -/
theorem populateUsers_inv {d : Depmod μ} (hd : d.WellFormed) :
    ∃ s, populateUsers d 0 d.modules ⟨[], [], [], d.depSortIdx⟩ = .ok s ∧ SortInv d [] s ∧
      s.sorted = [] := by
  obtain ⟨s, hs, husers, hnd, hroots, hsorted, _⟩ :=
    populateUsers_spec hd d.modules [] ⟨[], [], [], d.depSortIdx⟩ rfl rfl (by simp) (by simp)
  have hsorted' : s.sorted = [] := hsorted
  have hget : ∀ m ∈ d.modules, s.users[d.idx m]? = some (d.users m) := by
    intro m hm
    rw [husers, List.getElem?_map, hd.getElem?_idx hm]
    rfl
  refine ⟨s, hs, ⟨?_, ?_, ?_, ?_, ?_, ?_, by rw [husers, List.length_map]⟩, hsorted'⟩
  · rw [hsorted']; simpa using hnd
  · intro i hi
    rw [hsorted', List.nil_append] at hi
    obtain ⟨m, hm, rfl, _⟩ := (hroots i).mp hi
    exact hd.idx_lt hm
  · intro m hm
    rw [hget m hm, hd.users_eq m hm, openUsers, hsorted', List.countP_eq_length_filter]
    simp
  · intro m hm
    rw [hget m hm, hsorted', List.nil_append, hroots]
    refine ⟨?_, ?_⟩
    · rintro ⟨x, hx, hxi, hxu⟩
      rw [← hd.idx_inj hx hm hxi, hxu]
    · intro he
      exact ⟨m, hm, rfl, Option.some.inj he⟩
  · intro k m x hk; rw [hsorted'] at hk; simp at hk
  · intro k m _ hk; rw [hsorted'] at hk; simp at hk

/-- **The sort never faults and ends**, in a state with an empty root stack. -/
theorem sortModules_inv {d : Depmod μ} (hd : d.WellFormed) {fuel : Nat}
    (hfuel : d.modules.length ≤ fuel) :
    ∃ s, sortModules d fuel = .ok s ∧ SortInv d [] s ∧ s.roots = [] := by
  obtain ⟨s0, hs0, hinv0, hsorted⟩ := populateUsers_inv hd
  obtain ⟨s, hs, hinv, hnil⟩ := sortLoop_inv hd fuel s0 hinv0 (by rw [hsorted]; simpa using hfuel)
  refine ⟨s, ?_, hinv, hnil⟩
  unfold sortModules
  rw [if_pos hd.count_lt, hs0]
  exact hs

/-! ## What the sort leaves over -/

/-- The modules the sort could not emit. -/
def LeftOver (d : Depmod μ) (s : SortState μ) (m : μ) : Prop :=
  m ∈ d.modules ∧ d.idx m ∉ s.sorted

section Final

variable {d : Depmod μ} {s : SortState μ}

/-- A module is left over exactly when its final counter is positive. -/
theorem leftOver_iff (h : SortInv d [] s) (hnil : s.roots = []) {m : μ} (hm : m ∈ d.modules) :
    LeftOver d s m ↔ ∃ u, s.users[d.idx m]? = some (u + 1) := by
  have hz := h.zero m hm
  rw [hnil, List.append_nil, h.users m hm] at hz
  unfold LeftOver
  rw [h.users m hm, hz]
  refine ⟨?_, ?_⟩
  · rintro ⟨_, hne⟩
    cases hc : openUsers d s.sorted m with
    | zero => exact absurd (by simp [hc]) hne
    | succ u => exact ⟨u, by simp⟩
  · rintro ⟨u, hu⟩
    exact ⟨hm, by rw [hu]; simp⟩

/-- A module left over has a user that is left over too. -/
theorem leftOver_pred (h : SortInv d [] s) (hnil : s.roots = []) {m : μ} (hm : LeftOver d s m) :
    ∃ x, LeftOver d s x ∧ d.Needs x m := by
  obtain ⟨u, hu⟩ := (leftOver_iff h hnil hm.1).mp hm
  rw [h.users m hm.1, List.count_nil, Nat.add_zero] at hu
  have hpos : 0 < openUsers d s.sorted m := by rw [Option.some.inj hu]; omega
  obtain ⟨x, hx, hp⟩ := List.countP_pos_iff.mp hpos
  simp only [Bool.and_eq_true, decide_eq_true_eq] at hp
  exact ⟨x, ⟨hx, hp.1⟩, hp.2⟩

/-- An emitted module has only emitted users. -/
theorem leftOver_dep (hd : d.WellFormed) (h : SortInv d [] s) {m x : μ} (hx : LeftOver d s x)
    (hxm : d.Needs x m) : LeftOver d s m := by
  have hm : m ∈ d.modules := hd.deps_mem x hx.1 m hxm
  refine ⟨hm, fun hin => hx.2 ?_⟩
  obtain ⟨k, hk⟩ := List.mem_iff_getElem?.mp hin
  obtain ⟨k', _, hk'⟩ := h.order k m x hk hm hx.1 hxm
  exact List.mem_of_getElem? hk'

theorem leftOver_reach (hd : d.WellFormed) (h : SortInv d [] s) {m x : μ} (hx : LeftOver d s x)
    (hxm : ReflTransGen d.Needs x m) : LeftOver d s m := by
  induction hxm with
  | refl => exact hx
  | tail _ hbc ih => exact leftOver_dep hd h ih hbc

/-- Along a walk, emitted positions strictly increase. -/
theorem emitted_before (hd : d.WellFormed) (h : SortInv d [] s) {x m : μ} (hx : x ∈ d.modules)
    (hxm : TransGen d.Needs x m) {k : Nat} (hk : s.sorted[k]? = some (d.idx m)) :
    ∃ k' < k, s.sorted[k']? = some (d.idx x) := by
  induction hxm using TransGen.head_induction_on with
  | single hab => exact h.order k m _ hk (hd.deps_mem _ hx _ hab) hx hab
  | head hab _ ih =>
    have hb := hd.deps_mem _ hx _ hab
    obtain ⟨k1, hk1, hs1⟩ := ih hb
    obtain ⟨k2, hk2, hs2⟩ := h.order k1 _ _ hs1 hb hx hab
    exact ⟨k2, by omega, hs2⟩

/-- A position holds one module, and a module has one position. -/
theorem sorted_pos_unique (h : SortInv d [] s) {i k k' : Nat} (hk : s.sorted[k]? = some i)
    (hk' : s.sorted[k']? = some i) : k = k' := by
  have hnd := (List.nodup_append.mp h.nodup).1
  obtain ⟨h1, e1⟩ := List.getElem?_eq_some_iff.mp hk
  obtain ⟨h2, e2⟩ := List.getElem?_eq_some_iff.mp hk'
  exact (List.Nodup.getElem_inj_iff hnd).mp (e1.trans e2.symm)

/-- Modules on a cycle are left over. -/
theorem leftOver_of_onCycle (hd : d.WellFormed) (h : SortInv d [] s) {m : μ} (hm : m ∈ d.modules)
    (hc : OnCycle d.Needs m) : LeftOver d s m := by
  refine ⟨hm, fun hin => ?_⟩
  obtain ⟨k, hk⟩ := List.mem_iff_getElem?.mp hin
  obtain ⟨k', hlt, hk'⟩ := emitted_before hd h hm hc hk
  have := sorted_pos_unique h hk hk'
  omega

/-- Every module left over lies on a cycle or below one. -/
theorem leftOver_below_cycle (h : SortInv d [] s) (hnil : s.roots = []) {m : μ}
    (hm : LeftOver d s m) : ∃ w, LeftOver d s w ∧ OnCycle d.Needs w ∧ ReflTransGen d.Needs w m := by
  by_contra hno
  -- the modules above `m` that are below no cycle: every one of them has a user among them
  let S : Set μ := {x | LeftOver d s x ∧ ReflTransGen d.Needs x m}
  have hfin : S.Finite := (List.finite_toSet d.modules).subset (fun x hx => hx.1.1)
  obtain ⟨v, hv, hc⟩ := exists_onCycle_of_pred hfin (show m ∈ S from ⟨hm, .refl⟩) (by
    rintro x ⟨hx, hxm⟩
    obtain ⟨u, hu, hux⟩ := leftOver_pred h hnil hx
    exact ⟨u, ⟨hu, .head hux hxm⟩, hux⟩)
  exact hno ⟨v, hv.1, hc, hv.2⟩

/-- The sort is complete exactly when nothing is left over. -/
theorem sorted_length_eq_iff (hd : d.WellFormed) (h : SortInv d [] s) :
    s.sorted.length = d.modules.length ↔ ∀ m, ¬ LeftOver d s m := by
  have hnd := (List.nodup_append.mp h.nodup).1
  have hlt : ∀ i ∈ s.sorted, i < d.modules.length := fun i hi => h.lt i (List.mem_append_left _ hi)
  have hsub : s.sorted ⊆ List.range d.modules.length := fun i hi => List.mem_range.mpr (hlt i hi)
  refine ⟨?_, ?_⟩
  · intro hlen m hm
    have hperm := (hnd.subperm hsub).perm_of_length_le (by simp [hlen])
    exact hm.2 (hperm.mem_iff.mpr (List.mem_range.mpr (hd.idx_lt hm.1)))
  · intro hno
    have hle := length_le_of_nodup_lt hnd hlt
    have hge : (List.range d.modules.length).length ≤ s.sorted.length := by
      refine (List.nodup_range.subperm (fun i hi => ?_)).length_le
      have hi' := List.mem_range.mp hi
      have hget := List.getElem?_eq_getElem hi'
      by_contra hni
      exact hno d.modules[i] ⟨List.getElem_mem hi', by rw [hd.idx_eq i _ hget]; exact hni⟩
    rw [List.length_range] at hge
    omega

/-- **Completeness.** Nothing is left over exactly when the graph is acyclic. -/
theorem no_leftOver_iff_acyclic (hd : d.WellFormed) (h : SortInv d [] s) (hnil : s.roots = []) :
    (∀ m, ¬ LeftOver d s m) ↔ d.Acyclic := by
  refine ⟨?_, ?_⟩
  · intro hno m hm hc
    exact hno m (leftOver_of_onCycle hd h hm hc)
  · intro hac m hm
    obtain ⟨w, hw, hc, _⟩ := leftOver_below_cycle h hnil hm
    exact hac w hw.1 hc

/-- When nothing is left over, `dep_sort_idx` numbers the modules, users before dependencies. -/
theorem depSortIdx_bijOn (hd : d.WellFormed) (h : SortInv d [] s)
    (hlen : s.sorted.length = d.modules.length) :
    Set.BijOn s.depSortIdx {m | m ∈ d.modules} {k | 0 ≤ k ∧ k < (d.modules.length : Int)} := by
  have hpos : ∀ m ∈ d.modules, ∃ k < s.sorted.length, s.sorted[k]? = some (d.idx m) := by
    intro m hm
    have hin : d.idx m ∈ s.sorted := by
      by_contra hni
      exact (sorted_length_eq_iff hd h).mp hlen m ⟨hm, hni⟩
    obtain ⟨k, hk⟩ := List.mem_iff_getElem?.mp hin
    exact ⟨k, (List.getElem?_eq_some_iff.mp hk).1, hk⟩
  -- into the range, one to one, and onto it: position `k` is that of the module with index `sorted[k]`
  refine ⟨?_, ?_, ?_⟩
  · intro m hm
    obtain ⟨k, hlt, hk⟩ := hpos m hm
    show 0 ≤ s.depSortIdx m ∧ s.depSortIdx m < _
    rw [h.depSortIdx k m hm hk]
    omega
  · intro a ha b hb hab
    obtain ⟨ka, _, hka⟩ := hpos a ha
    obtain ⟨kb, _, hkb⟩ := hpos b hb
    rw [h.depSortIdx ka a ha hka, h.depSortIdx kb b hb hkb] at hab
    have hkk : ka = kb := by omega
    subst hkk
    exact hd.idx_inj ha hb (Option.some.inj (hka.symm.trans hkb))
  · rintro k ⟨h0, hk⟩
    obtain ⟨n, rfl⟩ := Int.eq_ofNat_of_zero_le h0
    have hn : n < s.sorted.length := by omega
    have hget := List.getElem?_eq_getElem hn
    have hlt := h.lt s.sorted[n] (List.mem_append_left _ (List.getElem_mem hn))
    have hm := List.getElem?_eq_getElem hlt
    refine ⟨d.modules[s.sorted[n]], List.getElem_mem hlt, ?_⟩
    exact h.depSortIdx n _ (List.getElem_mem hlt) (by rw [hd.idx_eq _ _ hm]; exact hget)

theorem depSortIdx_lt (hd : d.WellFormed) (h : SortInv d [] s)
    (hlen : s.sorted.length = d.modules.length) {m x : μ} (hm : m ∈ d.modules)
    (hx : x ∈ d.deps m) : s.depSortIdx m < s.depSortIdx x := by
  have hxm := hd.deps_mem m hm x hx
  have hin : d.idx x ∈ s.sorted := by
    by_contra hni
    exact (sorted_length_eq_iff hd h).mp hlen x ⟨hxm, hni⟩
  obtain ⟨k, hk⟩ := List.mem_iff_getElem?.mp hin
  obtain ⟨k', hlt, hk'⟩ := h.order k x m hk hxm hm hx
  rw [h.depSortIdx k x hxm hk, h.depSortIdx k' m hm hk']
  omega

end Final

/-! ## The pass as a whole -/

/-- What the pass returns once the sort loop has ended in `s`. -/
theorem calculate_of_sort {d : Depmod μ} {s : SortState μ} {fuel : Nat} (ndebug : Bool)
    (hs : sortModules d fuel = .ok s) :
    depmodCalculateDependencies d ndebug fuel =
      (if s.sorted.length < d.modules.length then
        (depmodReportCycles { d with depSortIdx := s.depSortIdx } ndebug fuel s.users).bind
          (fun report => .ok ⟨-EINVAL,
            { d with depSortIdx := s.depSortIdx, visited := report.visited }, some report⟩)
      else .ok ⟨0, depmodSortDependencies { d with depSortIdx := s.depSortIdx }, none⟩) := by
  unfold depmodCalculateDependencies
  rw [hs]
  rfl

/--
**The topological sort is sound and complete.** With as many iterations as there
are modules the sort loop ends, without a failed assertion and without an access
outside its arrays. It emits every module, and the pass returns 0, exactly when
the dependency graph is acyclic; then `dep_sort_idx` numbers the modules from 0
on, every module before its dependencies.
-/
theorem depmodCalculateDependencies_sort {d : Depmod μ} (hd : d.WellFormed) (ndebug : Bool)
    {fuel : Nat} (hfuel : d.modules.length ≤ fuel) :
    ∃ s, sortModules d fuel = .ok s ∧
      (s.sorted.length = d.modules.length ↔ d.Acyclic) ∧
      (∀ c, depmodCalculateDependencies d ndebug fuel = .ok c → (c.ret = 0 ↔ d.Acyclic)) ∧
      (d.Acyclic → ∃ c, depmodCalculateDependencies d ndebug fuel = .ok c ∧ c.ret = 0 ∧
        Set.BijOn c.depmod.depSortIdx {m | m ∈ d.modules}
          {k | 0 ≤ k ∧ k < (d.modules.length : Int)} ∧
        ∀ m ∈ d.modules, ∀ x ∈ d.deps m, c.depmod.depSortIdx m < c.depmod.depSortIdx x) := by
  obtain ⟨s, hs, hinv, hnil⟩ := sortModules_inv hd hfuel
  have hiff : s.sorted.length = d.modules.length ↔ d.Acyclic :=
    (sorted_length_eq_iff hd hinv).trans (no_leftOver_iff_acyclic hd hinv hnil)
  have hle : s.sorted.length ≤ d.modules.length :=
    length_le_of_nodup_lt (List.nodup_append.mp hinv.nodup).1
      (fun i hi => hinv.lt i (List.mem_append_left _ hi))
  have hcalc := calculate_of_sort ndebug hs
  refine ⟨s, hs, hiff, ?_, ?_⟩
  · intro c hc
    rw [hcalc] at hc
    split at hc
    · rename_i hlt
      cases hr : depmodReportCycles { d with depSortIdx := s.depSortIdx } ndebug fuel s.users with
      | error e => rw [hr] at hc; exact absurd hc (by simp [Except.bind])
      | ok report =>
        rw [hr] at hc
        injection hc with hc
        rw [← hc, ← hiff]
        exact ⟨fun he => absurd (show -EINVAL = 0 from he) (by decide), fun he => by omega⟩
    · rename_i hge
      injection hc with hc
      rw [← hc]
      exact ⟨fun _ => hiff.mp (by omega), fun _ => rfl⟩
  · intro hac
    have hlen := hiff.mpr hac
    refine ⟨_, by rw [hcalc, if_neg (by omega)], rfl, ?_, ?_⟩
    · exact depSortIdx_bijOn hd hinv hlen
    · exact fun m hm x hx => depSortIdx_lt hd hinv hlen hm hx

/-- A diamond: 0 needs 1 and 2, which both need 3. -/
def diamond : Depmod (Fin 4) :=
  tableOf 4 ![[1, 2], [3], [3], []] (fun _ => []) (fun _ => []) (fun _ => none)

theorem diamond_wellFormed : diamond.WellFormed := tableOf_wellFormed (by decide) (by decide)

theorem depmodCalculateDependencies_sort_diamond :
    ∃ s, sortModules diamond 4 = .ok s ∧
      (s.sorted.length = diamond.modules.length ↔ diamond.Acyclic) ∧
      (∀ c, depmodCalculateDependencies diamond false 4 = .ok c → (c.ret = 0 ↔ diamond.Acyclic)) ∧
      (diamond.Acyclic → ∃ c, depmodCalculateDependencies diamond false 4 = .ok c ∧ c.ret = 0 ∧
        Set.BijOn c.depmod.depSortIdx {m | m ∈ diamond.modules}
          {k | 0 ≤ k ∧ k < (diamond.modules.length : Int)} ∧
        ∀ m ∈ diamond.modules, ∀ x ∈ diamond.deps m,
          c.depmod.depSortIdx m < c.depmod.depSortIdx x) :=
  depmodCalculateDependencies_sort diamond_wellFormed false (by decide)

end Kmod.Depmod
