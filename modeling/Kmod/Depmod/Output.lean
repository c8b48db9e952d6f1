import Kmod.Depmod.TopoSort
import Kmod.Index.Search
import Kmod.Lib.Explore

/-!
# Writing `modules.dep` and `modules.dep.bin`

For every module depmod collects all modules it depends on, by a depth-first
search that uses the array it fills as its set of visited modules, sorts them by
`dep_sort_idx` and writes their paths behind its own: as a line of `modules.dep`,
and as the value of the module's name in `modules.dep.bin`.

`dep_sort_idx` numbers users before their dependencies, so that is the order of
the paths in a line (`SortedDeps`).
-/

namespace Kmod.Depmod

open Relation Kmod.Digraph Explore Index

variable {μ : Type} [DecidableEq μ]

/-! ## The model -/

/-- `mod_fill_all_unique_dependencies`, with `array_append_unique` for a module not in the array. -/
def modFillAllUniqueDependencies (d : Depmod μ) : Nat → μ → List μ → Except Fault (List μ)
  | 0, _, _ => .error .outOfFuel
  | fuel + 1, mod, deps =>
    (d.deps mod).foldlM (fun deps x =>
      if x ∈ deps then .ok deps else modFillAllUniqueDependencies d fuel x (deps ++ [x])) deps

/-- `mod_get_all_sorted_dependencies`. -/
def modGetAllSortedDependencies (d : Depmod μ) (fuel : Nat) (mod : μ) : Except Fault (List μ) := do
  let deps ← modFillAllUniqueDependencies d fuel mod []
  .ok (if 1 < deps.length then arraySort deps (depCmp d.depSortIdx) else deps)

omit [DecidableEq μ] in
/-- `mod_get_compressed_path`. -/
def modGetCompressedPath (d : Depmod μ) (mod : μ) : CStr := (d.relpath mod).getD (d.path mod)

/-- The paths of some modules, each behind a space. -/
def spacedPaths (d : Depmod μ) (deps : List μ) : CStr :=
  deps.flatMap (fun x => cstr " " ++ modGetCompressedPath d x)

/-- What `output_deps` writes for a module, without the newline. -/
def outputDepsLine (d : Depmod μ) (fuel : Nat) (mod : μ) : Except Fault CStr :=
  let p := modGetCompressedPath d mod ++ cstr ":"
  if (d.deps mod).length = 0 then .ok p
  else do
    let deps ← modGetAllSortedDependencies d fuel mod
    .ok (p ++ spacedPaths d deps)

/-- `output_deps`: the bytes written. -/
def outputDeps (d : Depmod μ) (fuel : Nat) : Except Fault (List UInt8) := do
  let lines ← d.modules.mapM (outputDepsLine d fuel)
  .ok (lines.flatMap (fun line => line ++ cstr "\n"))

/-- What `output_deps_bin` inserts for a module. -/
def outputDepsEntry (d : Depmod μ) (fuel : Nat) (mod : μ) : Except Fault Entry := do
  let array ← modGetAllSortedDependencies d fuel mod
  let line := modGetCompressedPath d mod ++ cstr ":" ++ spacedPaths d array
  .ok ⟨d.modname mod, line, UInt32.ofNat (d.idx mod)⟩

/-- `output_deps_bin`: the bytes written. -/
def outputDepsBin (d : Depmod μ) (fuel : Nat) : Except Fault (List UInt8) := do
  let entries ← d.modules.mapM (outputDepsEntry d fuel)
  let idx ← insertEntries indexCreate entries
  .ok (indexWrite idx)

/-! ## Collecting all dependencies -/

section Fill

variable {d : Depmod μ}

/-- How many modules are not in the array. -/
def missing (d : Depmod μ) (deps : List μ) : Nat := d.modules.countP (fun x => x ∉ deps)

theorem missing_append_le (deps news : List μ) : missing d (deps ++ news) ≤ missing d deps := by
  refine List.countP_mono_left (fun x _ hx => ?_)
  simp only [decide_eq_true_eq, List.mem_append, not_or] at hx ⊢
  exact hx.1

theorem missing_append_lt {deps : List μ} {x : μ} (hx : x ∈ d.modules) (hn : x ∉ deps) :
    missing d (deps ++ [x]) < missing d deps := by
  obtain ⟨before, after, heq⟩ := List.append_of_mem hx
  have hle : ∀ l : List μ, l.countP (fun y => y ∉ deps ++ [x]) ≤ l.countP (fun y => y ∉ deps) := by
    intro l
    refine List.countP_mono_left (fun y _ hy => ?_)
    simp only [decide_eq_true_eq, List.mem_append, not_or] at hy ⊢
    exact hy.1
  have h1 := hle before
  have h2 := hle after
  rw [missing, missing, heq, List.countP_append, List.countP_append,
    List.countP_cons_of_neg (by simp),
    List.countP_cons_of_pos (by simpa using hn)]
  omega

/-- One module of the loop: it is in the array, or it is entered. -/
theorem fill_one (fuel : Nat) (x : μ) (deps : List μ)
    (ih : x ∉ deps → ∃ news, modFillAllUniqueDependencies d fuel x (deps ++ [x])
        = .ok ((deps ++ [x]) ++ news) ∧ Explored d.Needs (· ∈ deps ++ [x]) (d.deps x) news) :
    ∃ news, (if x ∈ deps then .ok deps
        else modFillAllUniqueDependencies d fuel x (deps ++ [x]) : Except Fault (List μ))
        = .ok (deps ++ news) ∧ Explored d.Needs (· ∈ deps) [x] news := by
  by_cases hx : x ∈ deps
  · exact ⟨[], by rw [if_pos hx, List.append_nil], explored_old hx⟩
  · obtain ⟨news, hfill, hexp⟩ := ih hx
    refine ⟨x :: news, by rw [if_neg hx, hfill]; simp, Explored.enter hx (fun _ => Iff.rfl) ?_⟩
    exact hexp.congr (fun v => by simp)

/-- **The array collects what can be reached**, and the recursion ends. -/
theorem modFillAllUniqueDependencies_explored
    (hmem : ∀ m ∈ d.modules, ∀ x ∈ d.deps m, x ∈ d.modules) :
    ∀ {fuel : Nat} {mod : μ} {deps : List μ}, mod ∈ d.modules → missing d deps < fuel →
      ∃ news, modFillAllUniqueDependencies d fuel mod deps = .ok (deps ++ news) ∧
        Explored d.Needs (· ∈ deps) (d.deps mod) news := by
  intro fuel
  induction fuel with
  | zero => intro mod deps _ hfuel; omega
  | succ fuel ih =>
    -- the loop, over any modules of the table
    have hloop : ∀ (xs deps : List μ), (∀ x ∈ xs, x ∈ d.modules) → missing d deps < fuel + 1 →
        ∃ news, xs.foldlM (fun deps x =>
            if x ∈ deps then .ok deps else modFillAllUniqueDependencies d fuel x (deps ++ [x])) deps
            = (.ok (deps ++ news) : Except Fault (List μ)) ∧
          Explored d.Needs (· ∈ deps) xs news := by
      intro xs
      induction xs with
      | nil => intro deps _ _; exact ⟨[], by rw [List.append_nil]; rfl, explored_nil⟩
      | cons x xs ihx =>
        intro deps hxs hfuel
        have hx := hxs x (List.mem_cons_self ..)
        obtain ⟨news, hone, hexp⟩ := fill_one (d := d) fuel x deps
          (fun hn => ih hx (by have := missing_append_lt hx hn; omega))
        have hle := missing_append_le (d := d) deps news
        obtain ⟨news', hrest, hexp'⟩ := ihx (deps ++ news)
          (fun y hy => hxs y (List.mem_cons_of_mem _ hy)) (by omega)
        refine ⟨news ++ news', ?_, hexp.append (hexp'.congr (fun v => by simp))⟩
        rw [List.foldlM_cons, hone, ← List.append_assoc]
        exact hrest
    intro mod deps hm hfuel
    unfold modFillAllUniqueDependencies
    exact hloop (d.deps mod) deps (hmem mod hm) hfuel

end Fill

/-! ## Sorting them -/

/-- All modules that `m` depends on, each once, users before their dependencies. -/
structure SortedDeps (d : Depmod μ) (m : μ) (deps : List μ) : Prop where
  mem : ∀ x, x ∈ deps ↔ TransGen d.Needs m x
  nodup : deps.Nodup
  sorted : deps.Pairwise (fun a b => d.depSortIdx a ≤ d.depSortIdx b)

omit [DecidableEq μ] in
theorem arraySort_perm (deps : List μ) (idx : μ → Int) : (arraySort deps (depCmp idx)).Perm deps :=
  List.perm_insertionSort _ deps

omit [DecidableEq μ] in
theorem arraySort_sorted (deps : List μ) (idx : μ → Int) :
    (arraySort deps (depCmp idx)).Pairwise (fun a b => idx a ≤ idx b) := by
  have htotal : Std.Total (fun a b : μ => depCmp idx a b ≤ 0) :=
    ⟨fun a b => by simp only [depCmp]; omega⟩
  have htrans : IsTrans μ (fun a b => depCmp idx a b ≤ 0) :=
    ⟨fun a b c hab hbc => by simp only [depCmp] at *; omega⟩
  refine List.Pairwise.imp ?_ (List.pairwise_insertionSort (fun a b => depCmp idx a b ≤ 0) deps)
  intro a b hab
  simp only [depCmp] at hab
  omega

omit [DecidableEq μ] in
/-- What can be reached from a direct dependency. -/
theorem exists_dep_reach {d : Depmod μ} {m x : μ} :
    (∃ s ∈ d.deps m, ReflTransGen d.Needs s x) ↔ TransGen d.Needs m x := by
  rw [TransGen.head'_iff]
  rfl

/-- **`mod_get_all_sorted_dependencies`.** -/
theorem modGetAllSortedDependencies_sorted {d : Depmod μ}
    (hmem : ∀ m ∈ d.modules, ∀ x ∈ d.deps m, x ∈ d.modules) {fuel : Nat}
    (hfuel : d.modules.length < fuel) {m : μ} (hm : m ∈ d.modules) :
    ∃ deps, modGetAllSortedDependencies d fuel m = .ok deps ∧ SortedDeps d m deps := by
  have hmissing : missing d [] < fuel := Nat.lt_of_le_of_lt (List.countP_le_length ..) hfuel
  obtain ⟨deps, hfill, hexp⟩ := modFillAllUniqueDependencies_explored hmem hm hmissing
  have hreach : ∀ x, x ∈ deps ↔ TransGen d.Needs m x := by
    intro x
    have hout : Outside d.Needs (· ∈ ([] : List μ)) = d.Needs := by
      funext a b
      simp [Outside]
    rw [hexp.mem_iff, hout, ← exists_dep_reach]
    simp
  refine ⟨_, by rw [modGetAllSortedDependencies, hfill]; rfl, ?_⟩
  rw [List.nil_append]
  by_cases hlen : 1 < deps.length
  · have hperm := arraySort_perm deps d.depSortIdx
    rw [if_pos hlen]
    exact ⟨fun x => hperm.mem_iff.trans (hreach x), hperm.nodup_iff.mpr hexp.nodup,
      arraySort_sorted deps d.depSortIdx⟩
  · rw [if_neg hlen]
    refine ⟨hreach, hexp.nodup, ?_⟩
    match deps, hlen with
    | [], _ => exact List.Pairwise.nil
    | [a], _ => exact List.pairwise_singleton _ a
    | _ :: _ :: _, hlen => exact absurd (by simp) hlen

/-! ## Reading a line backwards -/

/-- All modules that `m` depends on, each once, dependencies first. -/
structure LoadOrder (d : Depmod μ) (m : μ) (deps : List μ) : Prop where
  mem : ∀ x, x ∈ deps ↔ TransGen d.Needs m x
  nodup : deps.Nodup
  first : ∀ {before x after}, deps = before ++ x :: after → ∀ y, TransGen d.Needs x y → y ∈ before

omit [DecidableEq μ] in
/-- **In reverse, every module stands behind all it depends on.** -/
theorem SortedDeps.loadOrder {d : Depmod μ} {m : μ} {deps : List μ} (h : SortedDeps d m deps)
    (hidx : ∀ x y, TransGen d.Needs m x → TransGen d.Needs x y → d.depSortIdx x < d.depSortIdx y) :
    LoadOrder d m deps.reverse where
  mem := by simpa using h.mem
  nodup := List.nodup_reverse.mpr h.nodup
  -- what `x` depends on has a larger index, so it stands before `x` in reverse
  first := by
    intro before x after heq y hxy
    have hdeps : deps = after.reverse ++ x :: before.reverse := by
      rw [← List.reverse_reverse deps, heq]
      simp
    have hsorted := h.sorted
    rw [hdeps, List.pairwise_append] at hsorted
    have hx : TransGen d.Needs m x := (h.mem x).mp (hdeps ▸ by simp)
    have hlt := hidx x y hx hxy
    have hy : y ∈ deps := (h.mem y).mpr (hx.trans hxy)
    rw [hdeps, List.mem_append, List.mem_cons] at hy
    rcases hy with hy | rfl | hy
    · have := hsorted.2.2 y hy x (List.mem_cons_self ..)
      omega
    · omega
    · exact List.mem_reverse.mp hy

/-! ## After the dependencies are calculated -/

theorem needs_sortDependencies (d : Depmod μ) :
    (depmodSortDependencies d).Needs = d.Needs := by
  funext a b
  refine propext ?_
  show b ∈ (if a ∈ d.modules ∧ 1 < (d.deps a).length then
    arraySort (d.deps a) (depCmp d.depSortIdx) else d.deps a) ↔ b ∈ d.deps a
  split
  · exact (arraySort_perm _ _).mem_iff
  · exact Iff.rfl

/-- **The pass succeeds on an acyclic table**, and numbers users before their dependencies. -/
theorem calculate_acyclic {d : Depmod μ} (hd : d.WellFormed) (hac : d.Acyclic) (ndebug : Bool)
    {fuel : Nat} (hfuel : d.modules.length ≤ fuel) :
    ∃ idx, depmodCalculateDependencies d ndebug fuel
        = .ok ⟨0, depmodSortDependencies { d with depSortIdx := idx }, none⟩ ∧
      ∀ m ∈ d.modules, ∀ x, TransGen d.Needs m x → idx m < idx x := by
  obtain ⟨s, hs, hinv, hnil⟩ := sortModules_inv hd hfuel
  have hlen : s.sorted.length = d.modules.length :=
    (sorted_length_eq_iff hd hinv).mpr ((no_leftOver_iff_acyclic hd hinv hnil).mpr hac)
  refine ⟨s.depSortIdx, by rw [calculate_of_sort ndebug hs, if_neg (by omega)], ?_⟩
  intro m hm x hpath
  induction hpath with
  | single h => exact depSortIdx_lt hd hinv hlen hm h
  | tail hpath h ih =>
    have hmid := hd.mem_of_reach hm hpath.to_reflTransGen
    exact ih.trans (depSortIdx_lt hd hinv hlen hmid h)

/-- The line of a module, with its dependencies in the order of loading. -/
def depLine (d : Depmod μ) (m : μ) (deps : List μ) : CStr :=
  modGetCompressedPath d m ++ cstr ":" ++ spacedPaths d deps.reverse

omit [DecidableEq μ] in
/-- A module without direct dependencies has none. -/
theorem LoadOrder.eq_nil {d : Depmod μ} {m : μ} {deps : List μ} (h : LoadOrder d m deps)
    (hno : ∀ x, ¬ d.Needs m x) : deps = [] := by
  rw [List.eq_nil_iff_forall_not_mem]
  intro x hx
  obtain ⟨y, hy, _⟩ := TransGen.head'_iff.mp ((h.mem x).mp hx)
  exact hno y hy

/--
**The two files.** On an acyclic table the pass succeeds, and there are lists in
the order of loading such that `output_deps` writes the lines of these lists, and
`output_deps_bin` inserts the same lines.
-/
theorem output_lines {d : Depmod μ} (hd : d.WellFormed) (hac : d.Acyclic) (ndebug : Bool)
    {fuel : Nat} (hfuel : d.modules.length < fuel) :
    ∃ (d' : Depmod μ) (deps : μ → List μ),
      depmodCalculateDependencies d ndebug fuel = .ok ⟨0, d', none⟩ ∧
      (∀ m ∈ d.modules, LoadOrder d m (deps m)) ∧
      outputDeps d' fuel = .ok (d.modules.flatMap (fun m => depLine d m (deps m) ++ cstr "\n")) ∧
      d'.modules.mapM (outputDepsEntry d' fuel) = .ok (d.modules.map (fun m =>
        ⟨d.modname m, depLine d m (deps m), UInt32.ofNat (d.idx m)⟩)) := by
  obtain ⟨idx, hcalc, hidx⟩ := calculate_acyclic hd hac ndebug (Nat.le_of_lt hfuel)
  generalize hd' : depmodSortDependencies { d with depSortIdx := idx } = d' at hcalc
  have hneeds : d'.Needs = d.Needs := by
    rw [← hd', needs_sortDependencies]
    rfl
  have hmodules : d'.modules = d.modules := by rw [← hd']; rfl
  have hline : ∀ m deps, depLine d' m deps = depLine d m deps := by rw [← hd']; exact fun _ _ => rfl
  -- the sorted dependencies of every module, read backwards
  have hdeps : ∀ m, ∃ deps, m ∈ d.modules →
      modGetAllSortedDependencies d' fuel m = .ok deps.reverse ∧ LoadOrder d m deps := by
    intro m
    by_cases hm : m ∈ d.modules
    · have hclosed : ∀ a ∈ d'.modules, ∀ x ∈ d'.deps a, x ∈ d'.modules := by
        intro a ha x hx
        have hax : d'.Needs a x := hx
        rw [hmodules] at ha ⊢
        rw [hneeds] at hax
        exact hd.deps_mem a ha x hax
      obtain ⟨deps, hget, hsorted⟩ := modGetAllSortedDependencies_sorted hclosed
        (hmodules ▸ hfuel) (hmodules ▸ hm)
      have horder := hsorted.loadOrder (fun x y hx hxy => by
        rw [hneeds] at hx hxy
        rw [← hd']
        exact hidx x (hd.mem_of_reach hm hx.to_reflTransGen) y hxy)
      refine ⟨deps.reverse, fun _ => ⟨by rw [hget, List.reverse_reverse], ?_⟩⟩
      exact ⟨hneeds ▸ horder.mem, horder.nodup, hneeds ▸ horder.first⟩
    · exact ⟨[], fun h => absurd h hm⟩
  choose deps hdeps using hdeps
  refine ⟨d', deps, hcalc, fun m hm => (hdeps m hm).2, ?_, ?_⟩
  · unfold outputDeps
    rw [hmodules, mapM_ok (g := fun m => depLine d m (deps m))]
    · show Except.ok _ = _
      rw [List.flatMap_map]
    · intro m hm
      obtain ⟨hget, horder⟩ := hdeps m hm
      unfold outputDepsLine
      rw [← hline]
      by_cases hnone : (d'.deps m).length = 0
      · have hempty : deps m = [] := horder.eq_nil (fun x hx => by
          rw [← hneeds, Needs, List.length_eq_zero_iff.mp hnone] at hx
          exact absurd hx (by simp))
        rw [if_pos hnone, hempty, depLine]
        simp [spacedPaths]
      · rw [if_neg hnone, hget]
        rfl
  · rw [hmodules]
    refine mapM_ok (fun m hm => ?_)
    unfold outputDepsEntry
    rw [(hdeps m hm).1, ← hline, ← hd']
    rfl

end Kmod.Depmod
