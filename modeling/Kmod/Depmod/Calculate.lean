import Kmod.Depmod.Modules
import Kmod.Lib.Lists
import Mathlib.Data.List.Sort
import Mathlib.Logic.Function.Basic

/-!
# Ordering the modules

`depmod_calculate_dependencies` sorts the module table topologically, modules
without users first, and reports the dependency cycles when it cannot. This file
is the pass as the source writes it: the three `uint16_t` arrays it carves out of
one allocation, the loop over the root stack, the depth-first search behind the
cycle report, and the sort of every `deps` array at the end.

The array `roots` is used as a stack and `sorted` only ever grows, so both are
kept as lists of their used part; a write past the end of either is the fault
`outOfBounds`.
-/

namespace Kmod.Depmod

variable {μ : Type} [DecidableEq μ]

/-! ## The topological sort -/

/--
The three arrays of `depmod_calculate_dependencies`, and the indexes it stores in the modules.
-/
structure SortState (μ : Type) where
  /-- `users[]`, one counter per module. -/
  users : List Nat
  /-- `roots[0 .. n_roots)`, the top of the stack first. -/
  roots : List Nat
  /-- `sorted[0 .. n_sorted)`. -/
  sorted : List Nat
  /-- `mod->dep_sort_idx` of every module. -/
  depSortIdx : μ → Int

/-- `roots[n_roots] = i; n_roots++;` in an array of `nMods` entries. -/
def pushRoot (nMods : Nat) (s : SortState μ) (i : Nat) : Except Fault (SortState μ) :=
  if s.roots.length < nMods then .ok { s with roots := i :: s.roots } else .error .outOfBounds

/-- Populate `users` and collect the modules without users; `i` is the loop counter. -/
def populateUsers (d : Depmod μ) : Nat → List μ → SortState μ → Except Fault (SortState μ)
  | _, [], s => .ok s
  | i, m :: ms, s => do
    let s := { s with users := s.users ++ [d.users m] }
    let s ← if d.users m = 0 then pushRoot d.modules.length s i else .ok s
    populateUsers d (i + 1) ms s

/-- The inner loop: one user less for every dependency of the module just emitted. -/
def releaseDeps (d : Depmod μ) : List μ → SortState μ → Except Fault (SortState μ)
  | [], s => .ok s
  | dst :: rest, s =>
    match s.users[d.idx dst]? with
    | none => .error .outOfBounds
    | some 0 => .error .assertFailed
    | some (u + 1) => do
      let s := { s with users := s.users.set (d.idx dst) u }
      let s ← if u = 0 then pushRoot d.modules.length s (d.idx dst) else .ok s
      releaseDeps d rest s

/-- One iteration of `while (n_roots > 0)`, for the root `src` popped off the stack. -/
def emitRoot (d : Depmod μ) (src : Nat) (s : SortState μ) : Except Fault (SortState μ) :=
  match d.modules[src]? with
  | none => .error .outOfBounds
  | some m =>
    if s.sorted.length < d.modules.length then
      releaseDeps d (d.deps m)
        { s with
          depSortIdx := Function.update s.depSortIdx m s.sorted.length
          sorted := s.sorted ++ [src] }
    else .error .outOfBounds

/-- `while (n_roots > 0)`, for at most `fuel` iterations. -/
def sortLoop (d : Depmod μ) : Nat → SortState μ → Except Fault (SortState μ)
  | fuel, s =>
    match s.roots with
    | [] => .ok s
    | src :: roots =>
      match fuel with
      | 0 => .error .outOfFuel
      | fuel + 1 => do
        let s ← emitRoot d src { s with roots := roots }
        sortLoop d fuel s

/-- The part of `depmod_calculate_dependencies` up to the end of the sort loop. -/
def sortModules (d : Depmod μ) (fuel : Nat) : Except Fault (SortState μ) :=
  if d.modules.length < UINT16_MAX then do
    let s ← populateUsers d 0 d.modules ⟨[], [], [], d.depSortIdx⟩
    sortLoop d fuel s
  else .error .assertFailed

/-! ## The cycle report -/

/-- A `struct vertex`: the module, and the modules of its chain of parents up to the root. -/
structure Vertex (μ : Type) where
  mod : μ
  parents : List μ

/-- What `depmod_report_cycles` and its helpers change. -/
structure ReportState (μ : Type) where
  /-- The list `roots`, read from its head. -/
  roots : List μ
  /-- `mod->visited` of every module. -/
  visited : μ → Bool
  /-- The keys of the hash `loop_set`. -/
  loopSet : List CStr
  /-- The sequences printed after `Cycle detected: `, oldest first. -/
  reports : List (List μ)

/--
`kmod_list_remove_data`. The list is a ring and the function returns the
successor of the removed node, so what is left is read from there on.
-/
def kmodListRemoveData (list : List μ) (data : μ) : List μ := Lists.ringRemove list data

/-- `hash_add` of a key: present keys stay as they are. -/
def hashAddKey (set : List CStr) (key : CStr) : List CStr := if key ∈ set then set else set ++ [key]

/--
`depmod_report_one_cycle`: collect the chain of parents into `loop_set`, print it
from the root down to the vertex itself, and drop its modules from the roots.
-/
def depmodReportOneCycle (d : Depmod μ) (vertex : Vertex μ) (s : ReportState μ) : ReportState μ :=
  { s with
    loopSet := (vertex.parents.map d.modname).foldl hashAddKey s.loopSet
    roots := vertex.parents.reverse.foldl kmodListRemoveData s.roots
    reports := s.reports ++ [vertex.parents.reverse ++ [vertex.mod]] }

/--
What becomes of a push on the full stack: `assert(is < stack_size)` fails, and in a build with
`NDEBUG` the vertex is written behind the stack.
-/
def fullStack (ndebug : Bool) : Fault := if ndebug then .outOfBounds else .assertFailed

/-- Push the dependencies of `vertex` on the search stack, which has `stackSize` entries. -/
def pushDeps (ndebug : Bool) (stackSize : Nat) (vertex : Vertex μ) :
    List μ → List (Vertex μ) → Except Fault (List (Vertex μ))
  | [], stack => .ok stack
  | dep :: rest, stack =>
    if stack.length < stackSize then
      pushDeps ndebug stackSize vertex rest (⟨dep, vertex.mod :: vertex.parents⟩ :: stack)
    else .error (fullStack ndebug)

/-- One iteration of the search of `depmod_report_cycles_from_root`, for the popped `vertex`. -/
def searchStep (d : Depmod μ) (ndebug : Bool) (stackSize : Nat) (root : μ) (vertex : Vertex μ)
    (stack : List (Vertex μ)) (s : ReportState μ) :
    Except Fault (List (Vertex μ) × ReportState μ) :=
  let m := vertex.mod
  if s.visited m && m = root then .ok (stack, depmodReportOneCycle d vertex s)
  else
    let s := { s with visited := Function.update s.visited m true }
    match d.deps m with
    | [] => .ok (stack, { s with roots := kmodListRemoveData s.roots m })
    | deps => do
      let stack ← pushDeps ndebug stackSize vertex deps stack
      .ok (stack, s)

/-- `while (is > 0)`, for at most `fuel` iterations. -/
def searchLoop (d : Depmod μ) (ndebug : Bool) (stackSize : Nat) (root : μ) :
    Nat → List (Vertex μ) → ReportState μ → Except Fault (ReportState μ)
  | _, [], s => .ok s
  | 0, _ :: _, _ => .error .outOfFuel
  | fuel + 1, vertex :: stack, s => do
    let (stack, s) ← searchStep d ndebug stackSize root vertex stack s
    searchLoop d ndebug stackSize root fuel stack s

/-- `depmod_report_cycles_from_root`. -/
def depmodReportCyclesFromRoot (d : Depmod μ) (ndebug : Bool) (stackSize fuel : Nat) (root : μ)
    (s : ReportState μ) : Except Fault (ReportState μ) :=
  searchLoop d ndebug stackSize root fuel [⟨root, []⟩] s

/-- `while (roots != NULL)`: at most `fuel` searches of at most `fuel` iterations each. -/
def rootsLoop (d : Depmod μ) (ndebug : Bool) (stackSize fuel : Nat) :
    Nat → ReportState μ → Except Fault (ReportState μ)
  | n, s =>
    match s.roots with
    | [] => .ok s
    | root :: roots =>
      match n with
      | 0 => .error .outOfFuel
      | n + 1 => do
        let s ← depmodReportCyclesFromRoot d ndebug stackSize fuel root { s with roots := roots }
        rootsLoop d ndebug stackSize fuel n s

/-- The modules the sort left with users, in array order. -/
def cyclicRoots (d : Depmod μ) (users : List Nat) : List μ :=
  ((d.modules.zip users).filter (fun p => 0 < p.2)).map Prod.fst

/--
`depmod_report_cycles`, for at most `fuel` searches of at most `fuel` iterations.
The final message is `Found N modules in dependency cycles!` with `N` the number
of keys in `loopSet`.
-/
def depmodReportCycles (d : Depmod μ) (ndebug : Bool) (fuel : Nat) (users : List Nat) :
    Except Fault (ReportState μ) :=
  let roots := cyclicRoots d users
  rootsLoop d ndebug roots.length fuel fuel ⟨roots, d.visited, [], []⟩

/-! ## The whole pass -/

/-- `dep_cmp`. -/
def depCmp (depSortIdx : μ → Int) (a b : μ) : Int := depSortIdx a - depSortIdx b

/-- `array_sort`: `qsort` with a comparison function. -/
def arraySort {α : Type} (array : List α) (cmp : α → α → Int) : List α :=
  array.insertionSort (fun a b => cmp a b ≤ 0)

/-- `depmod_sort_dependencies`. -/
def depmodSortDependencies (d : Depmod μ) : Depmod μ :=
  { d with
    deps := fun m =>
      if m ∈ d.modules ∧ 1 < (d.deps m).length then arraySort (d.deps m) (depCmp d.depSortIdx)
      else d.deps m }

/-- The outcome of `depmod_calculate_dependencies`: its return value, and what it leaves behind. -/
structure Calculated (μ : Type) where
  ret : Int
  depmod : Depmod μ
  /-- What the cycle report printed and counted, if it ran. -/
  report : Option (ReportState μ)

/-- `depmod_calculate_dependencies`. -/
def depmodCalculateDependencies (d : Depmod μ) (ndebug : Bool) (fuel : Nat) :
    Except Fault (Calculated μ) := do
  let s ← sortModules d fuel
  let d := { d with depSortIdx := s.depSortIdx }
  if s.sorted.length < d.modules.length then
    let report ← depmodReportCycles d ndebug fuel s.users
    .ok ⟨-EINVAL, { d with visited := report.visited }, some report⟩
  else .ok ⟨0, depmodSortDependencies d, none⟩

end Kmod.Depmod
