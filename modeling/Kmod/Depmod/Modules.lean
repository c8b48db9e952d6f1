import Kmod.Base
import Kmod.Lib.Digraph
import Mathlib.Data.Fin.VecNotation
import Mathlib.Data.Fintype.Basic
import Mathlib.Data.List.FinRange

/-!
# The module table of depmod

`struct depmod` holds an array of `struct mod *`; a `struct mod` points at the
modules it needs. The pointers are an arbitrary type `μ` here: nothing in the
dependency passes looks at an address except to compare it with another.
-/

namespace Kmod

/-- What the dependency passes use of `struct depmod` and of its `struct mod`s. -/
structure Depmod (μ : Type) where
  /-- `depmod->modules.array`, in array order. -/
  modules : List μ
  /-- `mod->modname`. -/
  modname : μ → CStr
  /-- `mod->path`. -/
  path : μ → CStr
  /-- `mod->relpath`, or `NULL` for a module outside the module directory. -/
  relpath : μ → Option CStr
  /-- `mod->deps`, the modules this one needs symbols from. -/
  deps : μ → List μ
  /-- `mod->users`, how many modules depend on this one. -/
  users : μ → Nat
  /-- `mod->idx`, the position in `depmod->modules.array`. -/
  idx : μ → Nat
  /-- `mod->dep_sort_idx`, the topological sort index. -/
  depSortIdx : μ → Int
  /-- `mod->visited`, the helper flag of the cycle report. -/
  visited : μ → Bool

namespace Depmod

open Relation Kmod.Digraph

variable {μ : Type}

/-- `a` depends directly on `b`. -/
def Needs (d : Depmod μ) (a b : μ) : Prop := b ∈ d.deps a

/-- No module of the table is on a dependency cycle. -/
def Acyclic (d : Depmod μ) : Prop := ∀ m ∈ d.modules, ¬ OnCycle d.Needs m

/--
The table as `depmod_modules_build_array` and `mod_add_dependency` leave it:
positions are recorded in the modules, dependencies are duplicate free and stay
inside the table, and `users` counts the dependents.
-/
structure WellFormed [DecidableEq μ] (d : Depmod μ) : Prop where
  /-- `depmod_modules_build_array` refuses larger tables. -/
  count_lt : d.modules.length < UINT16_MAX
  /-- `mod->idx` is the module's array position. -/
  idx_eq : ∀ i m, d.modules[i]? = some m → d.idx m = i
  deps_nodup : ∀ m ∈ d.modules, (d.deps m).Nodup
  deps_mem : ∀ m ∈ d.modules, ∀ x ∈ d.deps m, x ∈ d.modules
  users_eq : ∀ m ∈ d.modules, d.users m = (d.modules.filter (fun x => m ∈ d.deps x)).length

section WellFormed

variable [DecidableEq μ] {d : Depmod μ}

theorem WellFormed.nodup (h : d.WellFormed) : d.modules.Nodup := by
  rw [List.nodup_iff_injective_getElem]
  intro i j hij
  have hi := h.idx_eq i d.modules[i] (List.getElem?_eq_getElem i.2)
  have hj := h.idx_eq j d.modules[j] (List.getElem?_eq_getElem j.2)
  exact Fin.ext (by rw [← hi, ← hj]; exact congrArg d.idx hij)

theorem WellFormed.getElem?_idx (h : d.WellFormed) {m : μ} (hm : m ∈ d.modules) :
    d.modules[d.idx m]? = some m := by
  obtain ⟨i, hi⟩ := List.mem_iff_getElem?.mp hm
  rw [h.idx_eq i m hi]
  exact hi

theorem WellFormed.idx_lt (h : d.WellFormed) {m : μ} (hm : m ∈ d.modules) :
    d.idx m < d.modules.length :=
  (List.getElem?_eq_some_iff.mp (h.getElem?_idx hm)).1

theorem WellFormed.idx_inj (h : d.WellFormed) {a b : μ} (ha : a ∈ d.modules)
    (hb : b ∈ d.modules) (hab : d.idx a = d.idx b) : a = b := by
  have h1 := h.getElem?_idx ha
  rw [hab, h.getElem?_idx hb] at h1
  exact (Option.some.inj h1).symm

/-- The table is closed under dependencies. -/
theorem WellFormed.mem_of_reach (h : d.WellFormed) {a b : μ} (ha : a ∈ d.modules)
    (hab : ReflTransGen d.Needs a b) : b ∈ d.modules := by
  induction hab with
  | refl => exact ha
  | tail _ hbc ih => exact h.deps_mem _ ih _ hbc

/-- The sort writes `dep_sort_idx` and nothing else. -/
theorem WellFormed.with_depSortIdx (h : d.WellFormed) (f : μ → Int) :
    ({ d with depSortIdx := f } : Depmod μ).WellFormed :=
  ⟨h.count_lt, h.idx_eq, h.deps_nodup, h.deps_mem, h.users_eq⟩

end WellFormed

/-! ## Tables given by their edges -/

-- the numerals in the small tables
scoped instance neZero_two : @NeZero Nat Zero.ofOfNat0 2 := ⟨Nat.succ_ne_zero 1⟩
scoped instance neZero_four : @NeZero Nat Zero.ofOfNat0 4 := ⟨Nat.succ_ne_zero 3⟩

/-- The table of `n` modules with the given dependencies, as the earlier passes fill it in. -/
def tableOf (n : Nat) (deps : Fin n → List (Fin n)) (modname path : Fin n → CStr)
    (relpath : Fin n → Option CStr) : Depmod (Fin n) where
  modules := List.finRange n
  modname := modname
  path := path
  relpath := relpath
  deps := deps
  users := fun m => ((List.finRange n).filter (fun x => m ∈ deps x)).length
  idx := Fin.val
  depSortIdx := fun _ => INT32_MAX
  visited := fun _ => false

theorem tableOf_wellFormed {n : Nat} {deps : Fin n → List (Fin n)} {modname path : Fin n → CStr}
    {relpath : Fin n → Option CStr} (hn : n < UINT16_MAX) (hdeps : ∀ m, (deps m).Nodup) :
    (tableOf n deps modname path relpath).WellFormed where
  count_lt := by simpa [tableOf] using hn
  idx_eq := by
    intro i m hi
    obtain ⟨_, he⟩ := List.getElem?_eq_some_iff.mp hi
    rw [← he]
    simp [tableOf]
  deps_nodup := fun m _ => hdeps m
  deps_mem := fun _ _ x _ => List.mem_finRange x
  users_eq := fun _ _ => rfl

end Depmod

end Kmod
