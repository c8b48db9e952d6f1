import Kmod.Depmod.Priority
import Kmod.Shared.HashMap

/-!
# Registering modules

depmod keeps the modules it has found in two tables, by name and by the path that the
file has without compression. `depmod_modules_search_file` enters a file, and takes out a
module with the same name and a lower priority before it does.

Whatever fails on the way, the tables fit together after a call. But a module that has been
taken out is not put back when the new one cannot be entered, so a call that fails leaves
the tables as they were just if it did not replace a module
(`depmodModulesSearchFile_atomic_iff`).

The tables and the pool of libkmod are finite maps here (`Kmod.Shared.HashMap`); an
insertion fails if the bucket has to grow and cannot.
-/

namespace Kmod.Register

/-! ## The model -/

/-- A `struct mod` in the tables; `addr` is where it is. -/
structure RegisteredMod where
  addr : Nat
  mod : Mod
  relpath : Option CStr
  uncrelpath : Option CStr
  deriving DecidableEq

/-- A `struct kmod_module` in the pool of the context. -/
structure PoolModule where
  path : Option CStr
  refcount : Nat
  deriving DecidableEq

/-- What depmod has registered, and the pool. -/
structure Registry where
  modulesByName : StrMap RegisteredMod
  modulesByUncrelpath : StrMap RegisteredMod
  pool : StrMap PoolModule
  /-- The address of the next module. -/
  next : Nat

/-- What the system says during a call, and which of its allocations succeed. -/
structure Attempt where
  cwd : CStr
  /-- `stat`: 0, or a negative error number. -/
  stat : CStr → Int
  /-- In `path_make_absolute_cwd`. -/
  abspath : Bool
  /-- In `kmod_module_new`: the module, and its place in the pool. -/
  kmod : Bool
  poolEntry : Bool
  /-- In `depmod_module_add`: the module, its path, and its place in the first table. -/
  mod : Bool
  path : Bool
  nameEntry : Bool
  /-- The path without compression, and its place in the second table. -/
  uncrelpath : Bool
  uncrelEntry : Bool

/-- `hash_add_unique`. -/
def hashAddUnique {V : Type} (realloc : Bool) (table : StrMap V) (key : CStr) (value : V) :
    Int × StrMap V :=
  if !realloc then (-ENOMEM, table)
  else if key ∈ table then (-EEXIST, table)
  else (0, table.insert key value)

/-- `kmod_module_unref`. -/
def kmodModuleUnref (pool : StrMap PoolModule) (name : CStr) : StrMap PoolModule :=
  match pool.lookup name with
  | none => pool
  | some m =>
    if m.refcount - 1 > 0 then pool.insert name { m with refcount := m.refcount - 1 }
    else pool.erase name

/-- `kmod_module_new`: the module of the pool, with a reference more, or a new one. -/
def kmodModuleNew (a : Attempt) (pool : StrMap PoolModule) (name : CStr) : Except Int PoolModule :=
  match pool.lookup name with
  | some m => .ok { m with refcount := m.refcount + 1 }
  | none =>
    if !a.kmod then .error (-ENOMEM)
    else if !a.poolEntry then .error (-ENOMEM)
    else .ok ⟨none, 1⟩

/-- `kmod_module_new_from_path`: an error, or the name and the path of the module; and the pool. -/
def kmodModuleNewFromPath (a : Attempt) (pool : StrMap PoolModule) (path : CStr) :
    Except Int (CStr × CStr) × StrMap PoolModule :=
  let abspath := pathMakeAbsoluteCwd a.cwd path
  if !a.abspath then (.error (-ENOMEM), pool)
  else if a.stat abspath < 0 then (.error (a.stat abspath), pool)
  else
    match pathToModname path with
    | none => (.error (-ENOENT), pool)
    | some name =>
      match kmodModuleNew a pool name with
      | .error err => (.error err, pool)
      | .ok m =>
        match m.path with
        | none => (.ok (name, abspath), pool.insert name { m with path := some abspath })
        | some old =>
          if old = abspath then (.ok (name, abspath), pool.insert name m)
          else (.error (-EEXIST), kmodModuleUnref (pool.insert name m) name)

/-- `mod->relpath`: only modules in the module directory have one. -/
def modRelpath (cfg : Cfg) (path : CStr) : Option CStr :=
  if path.take cfg.dirname.length = cfg.dirname ∧ path[cfg.dirname.length]? = some 47 then
    some (path.drop (cfg.dirname.length + 1))
  else none

/-- `mod->uncrelpath` for a `mod->relpath`: up to the name, and `.ko`. -/
def modUncrelpath (cfg : Cfg) (path modname relpath : CStr) : CStr :=
  relpath.take (modBaselen path + (modname.length + 1) + (cstr ".ko").length
    - (cfg.dirname.length + 1))

/-- The module that `depmod_module_add` makes. -/
def newMod (cfg : Cfg) (addr : Nat) (modname path : CStr) : RegisteredMod where
  addr := addr
  mod := ⟨path, modBaselen path, modname⟩
  relpath := modRelpath cfg path
  uncrelpath := (modRelpath cfg path).map (modUncrelpath cfg path modname)

/-- `depmod_module_add`, for the name and the path of a module of libkmod. -/
def depmodModuleAdd (a : Attempt) (cfg : Cfg) (reg : Registry) (modname path : CStr) :
    Int × Registry :=
  if !a.mod then (-ENOMEM, reg)
  else if !a.path then (-ENOMEM, reg)
  else
    let mod := newMod cfg reg.next modname path
    let (err, byName) := hashAddUnique a.nameEntry reg.modulesByName modname mod
    if err < 0 then (err, reg)
    else
      let undone := { reg with modulesByName := byName.erase modname }
      match mod.uncrelpath with
      | none => (0, { reg with modulesByName := byName, next := reg.next + 1 })
      | some uncrelpath =>
        if !a.uncrelpath then (-ENOMEM, undone)
        else
          let (err, byUncrelpath) :=
            hashAddUnique a.uncrelEntry reg.modulesByUncrelpath uncrelpath mod
          if err < 0 then (err, undone)
          else
            (0, { reg with
              modulesByName := byName
              modulesByUncrelpath := byUncrelpath
              next := reg.next + 1 })

/-- `depmod_module_del`. -/
def depmodModuleDel (reg : Registry) (m : RegisteredMod) : Registry :=
  { reg with
    modulesByUncrelpath :=
      match m.uncrelpath with
      | none => reg.modulesByUncrelpath
      | some uncrelpath => reg.modulesByUncrelpath.erase uncrelpath
    modulesByName := reg.modulesByName.erase m.mod.modname
    pool := kmodModuleUnref reg.pool m.mod.modname }

/-- `depmod_modules_search_file` from the label `add` on. -/
def addPath (a : Attempt) (cfg : Cfg) (reg : Registry) (path : CStr) : Int × Registry :=
  match kmodModuleNewFromPath a reg.pool path with
  | (.error err, pool) => (err, { reg with pool := pool })
  | (.ok (name, path), pool) =>
    let (err, reg) := depmodModuleAdd a cfg { reg with pool := pool } name path
    if err < 0 then (err, { reg with pool := kmodModuleUnref reg.pool name }) else (0, reg)

/-- `depmod_modules_search_file`: what it returns, and what is registered then. -/
def depmodModulesSearchFile (kmodExts : List CStr) (cfg : Cfg) (a : Attempt) (reg : Registry)
    (f : FoundFile) : Int × Registry :=
  if !pathEndsWithKmodExt kmodExts f.name then (0, reg)
  else
    match pathToModname f.path with
    | none => (-EINVAL, reg)
    | some modname =>
      match reg.modulesByName.lookup modname with
      | none => addPath a cfg reg f.path
      | some m =>
        if depmodModuleIsHigherPriority cfg m.mod f.baselen modname.length f.path then (0, reg)
        else addPath a cfg (depmodModuleDel reg m) f.path

/-- A call: the file, and what happens during it. -/
structure Call where
  file : FoundFile
  attempt : Attempt

/-- Nothing has been found yet. -/
def Registry.empty : Registry := ⟨∅, ∅, ∅, 0⟩

/-- The files of all directories, one after the other; an error is only logged. -/
def searchFiles (kmodExts : List CStr) (cfg : Cfg) (calls : List Call) : Registry :=
  calls.foldl (fun reg c => (depmodModulesSearchFile kmodExts cfg c.attempt reg c.file).2) .empty

/-! ## Tables that fit, steps that fail -/

/--
The tables fit together: the second has exactly the registered modules with a path of its
kind, each under this path, and they are those that the first has under their names.
-/
structure Consistent (reg : Registry) : Prop where
  named : ∀ n m, reg.modulesByName.lookup n = some m → m.mod.modname = n
  uncrelpath_iff : ∀ u m, reg.modulesByUncrelpath.lookup u = some m ↔
    m.uncrelpath = some u ∧ reg.modulesByName.lookup m.mod.modname = some m

/-- The file replaces a module: one with its name is registered, and has a lower priority. -/
def Replaces (kmodExts : List CStr) (cfg : Cfg) (reg : Registry) (f : FoundFile) : Prop :=
  pathEndsWithKmodExt kmodExts f.name = true ∧
    ∃ modname m, pathToModname f.path = some modname ∧ reg.modulesByName.lookup modname = some m ∧
      depmodModuleIsHigherPriority cfg m.mod f.baselen modname.length f.path = false

/--
A step on the way to the new module fails: the file cannot be looked at, or memory is missing.
-/
def CreationFails (cfg : Cfg) (a : Attempt) (path : CStr) : Prop :=
  a.abspath = false ∨ a.stat (pathMakeAbsoluteCwd a.cwd path) < 0 ∨
    a.kmod = false ∨ a.poolEntry = false ∨ a.mod = false ∨ a.path = false ∨ a.nameEntry = false ∨
    ((modRelpath cfg (pathMakeAbsoluteCwd a.cwd path)).isSome ∧
      (a.uncrelpath = false ∨ a.uncrelEntry = false))

/-! ## Tables -/

section Tables

variable {V : Type} {table : StrMap V} {key : CStr}

theorem hashAddUnique_of_notMem (h : key ∉ table) (realloc : Bool) (value : V) :
    hashAddUnique realloc table key value
      = if realloc then (0, table.insert key value) else (-ENOMEM, table) := by
  unfold hashAddUnique
  cases realloc with
  | true => rw [if_neg h]; rfl
  | false => rfl

theorem erase_insert_of_notMem (h : key ∉ table) (value : V) :
    (table.insert key value).erase key = table := by
  refine Finmap.ext_lookup (fun k => ?_)
  rw [StrMap.lookup_erase, StrMap.lookup_insert]
  split
  · next hk => rw [hk, Finmap.lookup_eq_none.2 h]
  · rfl

end Tables

/-! ## Adding a module -/

/-- What is registered when a module has been added. -/
def Registry.added (reg : Registry) (cfg : Cfg) (modname path : CStr) : Registry where
  modulesByName := reg.modulesByName.insert modname (newMod cfg reg.next modname path)
  modulesByUncrelpath :=
    match (newMod cfg reg.next modname path).uncrelpath with
    | none => reg.modulesByUncrelpath
    | some u => reg.modulesByUncrelpath.insert u (newMod cfg reg.next modname path)
  pool := reg.pool.insert modname ⟨some path, 1⟩
  next := reg.next + 1

/-- A name that is not in the pool: a module is made, unless a step fails. -/
theorem kmodModuleNewFromPath_free {a : Attempt} {pool : StrMap PoolModule} {path name : CStr}
    (hname : pathToModname path = some name) (hfree : name ∉ pool) :
    ((a.abspath = false ∨ a.stat (pathMakeAbsoluteCwd a.cwd path) < 0 ∨ a.kmod = false ∨
        a.poolEntry = false) ∧
      ∃ err < 0, kmodModuleNewFromPath a pool path = (.error err, pool)) ∨
    (¬ (a.abspath = false ∨ a.stat (pathMakeAbsoluteCwd a.cwd path) < 0 ∨ a.kmod = false ∨
        a.poolEntry = false) ∧
      kmodModuleNewFromPath a pool path = (.ok (name, pathMakeAbsoluteCwd a.cwd path),
        pool.insert name ⟨some (pathMakeAbsoluteCwd a.cwd path), 1⟩)) := by
  unfold kmodModuleNewFromPath kmodModuleNew
  simp only [hname, Finmap.lookup_eq_none.2 hfree]
  cases a.abspath with
  | false => exact .inl ⟨.inl rfl, -ENOMEM, by decide, rfl⟩
  | true =>
    by_cases hstat : a.stat (pathMakeAbsoluteCwd a.cwd path) < 0
    · exact .inl ⟨.inr (.inl hstat), _, hstat, by simp [hstat]⟩
    · cases a.kmod with
      | false => exact .inl ⟨by simp, -ENOMEM, by decide, by simp [hstat]⟩
      | true =>
        cases a.poolEntry with
        | false => exact .inl ⟨by simp, -ENOMEM, by decide, by simp [hstat]⟩
        | true => exact .inr ⟨by simpa using hstat, by simp [hstat]⟩

/-- A module whose name and path are not registered: it is entered, unless a step fails. -/
theorem depmodModuleAdd_free (a : Attempt) {cfg : Cfg} (reg : Registry) {modname path : CStr}
    (hname : modname ∉ reg.modulesByName)
    (huncrel : ∀ u, (newMod cfg reg.next modname path).uncrelpath = some u →
      u ∉ reg.modulesByUncrelpath) :
    ((a.mod = false ∨ a.path = false ∨ a.nameEntry = false ∨
        ((modRelpath cfg path).isSome ∧ (a.uncrelpath = false ∨ a.uncrelEntry = false))) ∧
      ∃ err < 0, depmodModuleAdd a cfg reg modname path = (err, reg)) ∨
    (¬ (a.mod = false ∨ a.path = false ∨ a.nameEntry = false ∨
        ((modRelpath cfg path).isSome ∧ (a.uncrelpath = false ∨ a.uncrelEntry = false))) ∧
      depmodModuleAdd a cfg reg modname path
        = (0, { reg.added cfg modname path with pool := reg.pool })) := by
  have hundone : ({ reg with modulesByName :=
      (reg.modulesByName.insert modname (newMod cfg reg.next modname path)).erase modname } : Registry)
      = reg := by
    rw [erase_insert_of_notMem hname]
  unfold depmodModuleAdd
  simp only [hashAddUnique_of_notMem hname]
  cases a.mod with
  | false => exact .inl ⟨.inl rfl, -ENOMEM, by decide, rfl⟩
  | true =>
  cases a.path with
  | false => exact .inl ⟨.inr (.inl rfl), -ENOMEM, by decide, rfl⟩
  | true =>
  cases a.nameEntry with
  | false => exact .inl ⟨.inr (.inr (.inl rfl)), -ENOMEM, by decide, rfl⟩
  | true =>
    simp only [Bool.not_true, Bool.false_eq_true, if_false, if_true, Int.lt_irrefl, Registry.added]
    cases hrel : (newMod cfg reg.next modname path).uncrelpath with
    | none =>
      have hnone : modRelpath cfg path = none := Option.map_eq_none_iff.1 hrel
      exact .inr ⟨by simp [hnone], rfl⟩
    | some u =>
      have hsome : (modRelpath cfg path).isSome := by
        obtain ⟨r, hr, -⟩ := Option.map_eq_some_iff.1 hrel
        rw [hr]
        rfl
      simp only [hashAddUnique_of_notMem (huncrel u hrel)]
      cases a.uncrelpath with
      | false => exact .inl ⟨by simp [hsome], -ENOMEM, by decide, by simp [hundone]⟩
      | true =>
        cases a.uncrelEntry with
        | false => exact .inl ⟨by simp [hsome], -ENOMEM, by decide, by simp [hundone, ENOMEM]⟩
        | true => exact .inr ⟨by simp, by simp⟩

/--
**A file that is not registered is entered as a whole or not at all.** If a step fails,
everything is as it was.
-/
theorem addPath_free (a : Attempt) (cfg : Cfg) {reg : Registry} {path name : CStr}
    (hname : pathToModname path = some name) (hfree : name ∉ reg.modulesByName)
    (hpool : name ∉ reg.pool)
    (huncrel : ∀ u, (newMod cfg reg.next name (pathMakeAbsoluteCwd a.cwd path)).uncrelpath = some u →
      u ∉ reg.modulesByUncrelpath) :
    (CreationFails cfg a path ∧ ∃ err < 0, addPath a cfg reg path = (err, reg)) ∨
      (¬ CreationFails cfg a path ∧
        addPath a cfg reg path = (0, reg.added cfg name (pathMakeAbsoluteCwd a.cwd path))) := by
  unfold addPath CreationFails
  rcases kmodModuleNewFromPath_free (a := a) hname hpool with ⟨hfails, err, herr, hnew⟩ | ⟨hok, hnew⟩
  · rw [hnew]
    refine .inl ⟨?_, err, herr, rfl⟩
    tauto
  · rw [hnew]
    have hadd := depmodModuleAdd_free a
      { reg with pool := reg.pool.insert name ⟨some (pathMakeAbsoluteCwd a.cwd path), 1⟩ }
      hfree huncrel
    have hunref : kmodModuleUnref (reg.pool.insert name ⟨some (pathMakeAbsoluteCwd a.cwd path), 1⟩) name
        = reg.pool := by
      unfold kmodModuleUnref
      rw [Finmap.lookup_insert]
      exact erase_insert_of_notMem hpool _
    rcases hadd with ⟨hfails, err, herr, hadd⟩ | ⟨hok', hadd⟩
    · refine .inl ⟨?_, err, herr, ?_⟩
      · tauto
      · dsimp only
        rw [hadd]
        dsimp only
        rw [if_pos herr, hunref]
    · refine .inr ⟨?_, ?_⟩
      · tauto
      · dsimp only
        rw [hadd]
        rfl

/-! ## Names from paths -/

/-- A name depends on no more than itself and three characters of the last component. -/
theorem modnameNormalize_take (b : CStr) :
    modnameNormalize (b.take ((modnameNormalize b).length + 3)) = modnameNormalize b := by
  have hlen : (modnameNormalize b).length = ((b.take (PATH_MAX - 1)).takeWhile (· ≠ 46)).length := by
    rw [modnameNormalize, List.length_map]
  rw [hlen, modnameNormalize, modnameNormalize, List.take_take, Nat.min_comm, ← List.take_take,
    ← List.take_takeWhile, List.take_of_length_le (Nat.le_add_right _ _)]

/-- The path without compression leads to the name of the module. -/
theorem pathToModname_uncrelpath {cfg : Cfg} {path modname relpath : CStr}
    (hname : pathToModname path = some modname) (hrel : modRelpath cfg path = some relpath) :
    pathToModname (modUncrelpath cfg path modname relpath) = some modname := by
  have hpath : path = cfg.dirname ++ 47 :: relpath := by
    unfold modRelpath at hrel
    split at hrel
    · next h =>
      cases hrel
      obtain ⟨hlt, hget⟩ := List.getElem?_eq_some_iff.1 h.2
      have hcut := List.take_append_drop cfg.dirname.length path
      rw [h.1, List.drop_eq_getElem_cons hlt, hget] at hcut
      exact hcut.symm
    · cases hrel
  have hbase : basename path = basename relpath := by rw [hpath, basename_append]
  obtain ⟨front, hfront, hlast⟩ : ∃ front, relpath = front ++ basename path ∧
      ∀ x, 47 ∉ x → basename (front ++ x) = x := by
    rw [hbase]
    by_cases hslash : 47 ∈ relpath
    · obtain ⟨dir, hdir⟩ := basename_split hslash
      refine ⟨dir ++ [47], by rw [List.append_assoc]; exact hdir, fun x hx => ?_⟩
      rw [List.append_assoc]
      exact (basename_append dir x).trans (basename_of_notMem hx)
    · exact ⟨[], (basename_of_notMem hslash).symm, fun x hx => basename_of_notMem hx⟩
  have hlen : modBaselen path + (modname.length + 1) + 3 - (cfg.dirname.length + 1)
      = front.length + (modname.length + 3) := by
    have hpathlen := congrArg List.length hpath
    have hrellen := congrArg List.length hfront
    simp only [List.length_append, List.length_cons] at hpathlen hrellen
    unfold modBaselen
    omega
  have hshort : modUncrelpath cfg path modname relpath
      = front ++ (basename path).take (modname.length + 3) := by
    show relpath.take (modBaselen path + (modname.length + 1) + 3 - (cfg.dirname.length + 1)) = _
    rw [hlen, hfront, List.take_length_add_append]
  have hnoslash : 47 ∉ (basename path).take (modname.length + 3) :=
    fun h => slash_notMem_basename path (List.mem_of_mem_take h)
  unfold pathToModname at hname ⊢
  rw [hshort, hlast _ hnoslash]
  cases hb : basename path with
  | nil =>
    rw [hb] at hname
    cases hname
  | cons c rest =>
    rw [hb] at hname
    cases hname
    exact congrArg some (modnameNormalize_take (c :: rest))

theorem pathToModname_absolute (cwd path : CStr) :
    pathToModname (pathMakeAbsoluteCwd cwd path) = pathToModname path := by
  unfold pathMakeAbsoluteCwd
  split
  · rfl
  · exact pathToModname_append cwd path

/-! ## The invariant -/

/-- What holds between the calls. -/
structure Inv (reg : Registry) : Prop extends Consistent reg where
  /-- The pool has the modules that are registered, with one reference each. -/
  pooled : ∀ n, reg.pool.lookup n
    = (reg.modulesByName.lookup n).map (fun m => ⟨some m.mod.path, 1⟩)
  /-- Different names have different paths. -/
  uncrelpath_name : ∀ n m u, reg.modulesByName.lookup n = some m → m.uncrelpath = some u →
    pathToModname u = some n

theorem inv_empty : Inv .empty where
  named := by
    intro n m h
    cases h
  uncrelpath_iff := by
    intro u m
    exact iff_of_false (fun h => by cases h) (fun h => by cases h.2)
  pooled := fun n => rfl
  uncrelpath_name := by
    intro n m u h
    cases h

section Steps

variable {reg : Registry}

theorem del_byUncrelpath (m : RegisteredMod) (u : CStr) :
    (depmodModuleDel reg m).modulesByUncrelpath.lookup u
      = if m.uncrelpath = some u then none else reg.modulesByUncrelpath.lookup u := by
  unfold depmodModuleDel
  cases m.uncrelpath with
  | none => rfl
  | some u' =>
    exact (StrMap.lookup_erase ..).trans
      (if_congr (eq_comm.trans Option.some_inj.symm) rfl rfl)

theorem Inv.del_pool (h : Inv reg) {n : CStr} {m : RegisteredMod}
    (hm : reg.modulesByName.lookup n = some m) :
    (depmodModuleDel reg m).pool = reg.pool.erase n := by
  have hlookup : reg.pool.lookup n = some ⟨some m.mod.path, 1⟩ := by
    rw [h.pooled n, hm]
    rfl
  show kmodModuleUnref reg.pool m.mod.modname = _
  rw [h.named n m hm, kmodModuleUnref, hlookup]
  rfl

/-- Taking out a module that is registered. -/
theorem Inv.del (h : Inv reg) {n : CStr} {m : RegisteredMod}
    (hm : reg.modulesByName.lookup n = some m) : Inv (depmodModuleDel reg m) := by
  have hname : m.mod.modname = n := h.named n m hm
  have hold : ∀ k, (depmodModuleDel reg m).modulesByName.lookup k
      = if k = n then none else reg.modulesByName.lookup k := by
    intro k
    rw [← hname]
    exact StrMap.lookup_erase ..
  refine { named := ?_, uncrelpath_iff := ?_, pooled := ?_, uncrelpath_name := ?_ }
  · intro k m' hk
    rw [hold] at hk
    split at hk
    · cases hk
    · exact h.named k m' hk
  · intro u m'
    rw [del_byUncrelpath, hold]
    by_cases hu : m.uncrelpath = some u
    · rw [if_pos hu]
      refine iff_of_false (fun h => by cases h) (fun ⟨hu', hk⟩ => ?_)
      split at hk
      · cases hk
      · -- it would be under the path of the module that goes
        next hne =>
        have hm' := (h.uncrelpath_iff u m').2 ⟨hu', hk⟩
        have hmm := (h.uncrelpath_iff u m).2 ⟨hu, hname.symm ▸ hm⟩
        rw [hm'] at hmm
        exact hne (Option.some.inj hmm ▸ hname)
    · rw [if_neg hu, h.uncrelpath_iff]
      refine and_congr_right (fun hu' => ?_)
      split
      · next hk =>
        refine iff_of_false (fun hm' => ?_) (fun h => by cases h)
        rw [hk, hm] at hm'
        exact hu (Option.some.inj hm' ▸ hu')
      · exact Iff.rfl
  · intro k
    rw [h.del_pool hm, hold, StrMap.lookup_erase, h.pooled k]
    split <;> rfl
  · intro k m' u hk hu
    rw [hold] at hk
    split at hk
    · cases hk
    · exact h.uncrelpath_name k m' u hk hu

/-- A name that is not registered has a path that is not registered. -/
theorem Inv.uncrelpath_free (h : Inv reg) {cfg : Cfg} {n path : CStr}
    (hname : pathToModname path = some n) (hfree : n ∉ reg.modulesByName) (addr : Nat) {u : CStr}
    (hu : (newMod cfg addr n path).uncrelpath = some u) : u ∉ reg.modulesByUncrelpath := by
  intro hmem
  obtain ⟨m, hm⟩ := Finmap.mem_iff.1 hmem
  obtain ⟨r, hr, rfl⟩ := Option.map_eq_some_iff.1 hu
  obtain ⟨hmu, hmn⟩ := (h.uncrelpath_iff _ m).1 hm
  have hsame := h.uncrelpath_name m.mod.modname m _ hmn hmu
  rw [pathToModname_uncrelpath hname hr] at hsame
  exact hfree (Finmap.mem_of_lookup_eq_some ((Option.some.inj hsame).symm ▸ hmn))

theorem added_byUncrelpath (cfg : Cfg) (n path u : CStr) :
    (reg.added cfg n path).modulesByUncrelpath.lookup u
      = if (newMod cfg reg.next n path).uncrelpath = some u then some (newMod cfg reg.next n path)
        else reg.modulesByUncrelpath.lookup u := by
  unfold Registry.added
  cases (newMod cfg reg.next n path).uncrelpath with
  | none => rfl
  | some u' =>
    exact (StrMap.lookup_insert ..).trans
      (if_congr (eq_comm.trans Option.some_inj.symm) rfl rfl)

/-- Entering a module that is not registered. -/
theorem Inv.added (h : Inv reg) {cfg : Cfg} {n path : CStr} (hname : pathToModname path = some n)
    (hfree : n ∉ reg.modulesByName) : Inv (reg.added cfg n path) := by
  have hnew : ∀ k, (reg.added cfg n path).modulesByName.lookup k
      = if k = n then some (newMod cfg reg.next n path) else reg.modulesByName.lookup k :=
    fun k => StrMap.lookup_insert ..
  refine { named := ?_, uncrelpath_iff := ?_, pooled := ?_, uncrelpath_name := ?_ }
  · intro k m hk
    rw [hnew] at hk
    split at hk
    · next hkn => rw [← Option.some.inj hk, hkn]; rfl
    · exact h.named k m hk
  · intro u m
    rw [added_byUncrelpath, hnew]
    by_cases hu : (newMod cfg reg.next n path).uncrelpath = some u
    · rw [if_pos hu]
      constructor
      · intro hm
        cases hm
        exact ⟨hu, if_pos rfl⟩
      · rintro ⟨hmu, hm⟩
        split at hm
        · exact hm
        · -- the path would have been registered before
          have hin := (h.uncrelpath_iff u m).2 ⟨hmu, hm⟩
          exact absurd (Finmap.mem_of_lookup_eq_some hin)
            (h.uncrelpath_free hname hfree reg.next hu)
    · rw [if_neg hu, h.uncrelpath_iff]
      refine and_congr_right (fun hmu => ?_)
      split
      · next hk =>
        refine iff_of_false (fun hm => ?_) (fun hm => ?_)
        · exact hfree (Finmap.mem_of_lookup_eq_some (hk ▸ hm))
        · exact hu (Option.some.inj hm ▸ hmu)
      · exact Iff.rfl
  · intro k
    show (reg.pool.insert n _).lookup k = _
    rw [hnew, StrMap.lookup_insert, h.pooled k]
    split <;> rfl
  · intro k m u hk hu
    rw [hnew] at hk
    split at hk
    · next hkn =>
      rw [← Option.some.inj hk] at hu
      obtain ⟨r, hr, rfl⟩ := Option.map_eq_some_iff.1 hu
      rw [hkn, pathToModname_uncrelpath hname hr]
    · exact h.uncrelpath_name k m u hk hu

/-- The label `add`, for a name that is not registered. -/
theorem Inv.addPath (h : Inv reg) (a : Attempt) (cfg : Cfg) {path n : CStr}
    (hname : pathToModname path = some n) (hfree : n ∉ reg.modulesByName) :
    (CreationFails cfg a path ∧ ∃ err < 0, Register.addPath a cfg reg path = (err, reg)) ∨
      (¬ CreationFails cfg a path ∧ ∃ reg', Register.addPath a cfg reg path = (0, reg') ∧
        reg' = reg.added cfg n (pathMakeAbsoluteCwd a.cwd path) ∧ Inv reg') := by
  have habs : pathToModname (pathMakeAbsoluteCwd a.cwd path) = some n := by
    rw [pathToModname_absolute, hname]
  have hpool : n ∉ reg.pool := by
    rw [← Finmap.lookup_eq_none, h.pooled n, Finmap.lookup_eq_none.2 hfree]
    rfl
  rcases addPath_free a cfg hname hfree hpool
      (fun u hu => h.uncrelpath_free habs hfree reg.next hu) with ⟨hfails, hrun⟩ | ⟨hok, hrun⟩
  · exact .inl ⟨hfails, hrun⟩
  · exact .inr ⟨hok, _, hrun, rfl, h.added habs hfree⟩

end Steps

/-! ## Calls and runs -/

/--
**One call**: it ignores the file; or it enters it, or fails and leaves everything as it
was; or it takes out a module and then enters the file, or fails without it.
-/
theorem depmodModulesSearchFile_cases (kmodExts : List CStr) (cfg : Cfg) (a : Attempt)
    {reg : Registry}
    (h : Inv reg) (f : FoundFile) :
    (¬ Replaces kmodExts cfg reg f ∧ ∃ err,
        depmodModulesSearchFile kmodExts cfg a reg f = (err, reg)) ∨
      (∃ reg', depmodModulesSearchFile kmodExts cfg a reg f = (0, reg') ∧ Inv reg' ∧
        (Replaces kmodExts cfg reg f → ¬ CreationFails cfg a f.path)) ∨
      (Replaces kmodExts cfg reg f ∧ CreationFails cfg a f.path ∧ ∃ err < 0, ∃ n m,
        reg.modulesByName.lookup n = some m ∧
        depmodModulesSearchFile kmodExts cfg a reg f = (err, depmodModuleDel reg m)) := by
  unfold depmodModulesSearchFile Replaces
  cases hext : pathEndsWithKmodExt kmodExts f.name with
  | false => exact .inl ⟨by simp, 0, rfl⟩
  | true =>
    cases hname : pathToModname f.path with
    | none => exact .inl ⟨by simp, -EINVAL, rfl⟩
    | some n =>
      cases hm : reg.modulesByName.lookup n with
      | none =>
        have hnot : ¬ (true = true ∧ ∃ modname m, some n = some modname ∧
            reg.modulesByName.lookup modname = some m ∧
            depmodModuleIsHigherPriority cfg m.mod f.baselen modname.length f.path = false) := by
          rintro ⟨-, n', m, hn', hm', -⟩
          cases hn'
          rw [hm] at hm'
          cases hm'
        rcases h.addPath a cfg hname (Finmap.lookup_eq_none.1 hm) with
          ⟨-, err, -, hrun⟩ | ⟨-, reg', hrun, -, hinv⟩
        · refine .inl ⟨hnot, err, ?_⟩
          simp [hm, hrun]
        · refine .inr (.inl ⟨reg', ?_, hinv, fun hrep => absurd hrep hnot⟩)
          simp [hm, hrun]
      | some m =>
        cases hprio : depmodModuleIsHigherPriority cfg m.mod f.baselen n.length f.path with
        | true =>
          refine .inl ⟨?_, 0, ?_⟩
          · rintro ⟨-, n', m', hn', hm', hprio'⟩
            cases hn'
            rw [hm] at hm'
            cases hm'
            rw [hprio] at hprio'
            cases hprio'
          · simp [hm, hprio]
        | false =>
          have hgone : n ∉ (depmodModuleDel reg m).modulesByName := by
            show n ∉ reg.modulesByName.erase m.mod.modname
            rw [h.named n m hm]
            exact Finmap.notMem_erase_self
          rcases (h.del hm).addPath a cfg hname hgone with
            ⟨hfails, err, herr, hrun⟩ | ⟨hok, reg', hrun, -, hinv⟩
          · refine .inr (.inr ⟨⟨rfl, n, m, rfl, hm, hprio⟩, hfails, err, herr, n, m, hm, ?_⟩)
            simp [hm, hprio, hrun]
          · refine .inr (.inl ⟨reg', ?_, hinv, fun _ => hok⟩)
            simp [hm, hprio, hrun]

/-- The invariant holds after every call. -/
theorem Inv.searchFile {reg : Registry} (h : Inv reg) (kmodExts : List CStr)
    (cfg : Cfg) (a : Attempt)
    (f : FoundFile) : Inv (depmodModulesSearchFile kmodExts cfg a reg f).2 := by
  rcases depmodModulesSearchFile_cases kmodExts cfg a h f with
    ⟨-, err, hrun⟩ | ⟨reg', hrun, hinv, -⟩ | ⟨-, -, err, -, n, m, hm, hrun⟩
  · rw [hrun]
    exact h
  · rw [hrun]
    exact hinv
  · rw [hrun]
    exact h.del hm

/-- The invariant holds in every run. -/
theorem inv_searchFiles (kmodExts : List CStr) (cfg : Cfg) (calls : List Call) :
    Inv (searchFiles kmodExts cfg calls) := by
  unfold searchFiles
  induction calls using List.reverseRecOn with
  | nil => exact inv_empty
  | append_singleton calls c ih =>
    rw [List.foldl_append]
    exact ih.searchFile kmodExts cfg c.attempt c.file

/--
A call that fails leaves the tables as they were; and after every call, failed or not, the
tables fit together.
-/
def Atomic (kmodExts : List CStr) (cfg : Cfg) (reg : Registry) (c : Call) : Prop :=
  ((depmodModulesSearchFile kmodExts cfg c.attempt reg c.file).1 < 0 →
    (depmodModulesSearchFile kmodExts cfg c.attempt reg c.file).2.modulesByName =
      reg.modulesByName ∧
      (depmodModulesSearchFile kmodExts cfg c.attempt reg c.file).2.modulesByUncrelpath
        = reg.modulesByUncrelpath) ∧
    Consistent (depmodModulesSearchFile kmodExts cfg c.attempt reg c.file).2

/--
**When a call is atomic.** After every run, a call is atomic if and only if it does not
replace a module, or all the steps to the new one succeed.
-/
theorem depmodModulesSearchFile_atomic_iff (kmodExts : List CStr) (cfg : Cfg) (calls : List Call)
    (c : Call) :
    Atomic kmodExts cfg (searchFiles kmodExts cfg calls) c ↔
      ¬ (Replaces kmodExts cfg (searchFiles kmodExts cfg calls) c.file ∧
        CreationFails cfg c.attempt c.file.path) := by
  have h := inv_searchFiles kmodExts cfg calls
  have hafter := (h.searchFile kmodExts cfg c.attempt c.file).toConsistent
  unfold Atomic
  rw [and_iff_left hafter]
  rcases depmodModulesSearchFile_cases kmodExts cfg c.attempt h c.file with
    ⟨hnot, err, hrun⟩ | ⟨reg', hrun, -, hok⟩ | ⟨hrep, hfails, err, herr, n, m, hm, hrun⟩
  · rw [hrun]
    exact iff_of_true (fun _ => ⟨rfl, rfl⟩) (fun hboth => hnot hboth.1)
  · rw [hrun]
    exact iff_of_true (fun hneg => absurd hneg (Int.lt_irrefl 0)) (fun hboth => hok hboth.1 hboth.2)
  · rw [hrun]
    refine iff_of_false (fun hsame => ?_) (fun hnot => hnot ⟨hrep, hfails⟩)
    -- the module that was to be replaced is missing
    have hgone : (depmodModuleDel (searchFiles kmodExts cfg calls) m).modulesByName.lookup n
        = none := by
      show (Finmap.erase m.mod.modname _).lookup n = none
      rw [h.named n m hm]
      exact Finmap.lookup_erase n _
    have hbyName : (depmodModuleDel (searchFiles kmodExts cfg calls) m).modulesByName = _ :=
      (hsame herr).1
    rw [hbyName, hm] at hgone
    cases hgone

/-- The extension of a module that is not compressed. -/
def koOnly : List CStr := [cstr ".ko"]

/-- A search list with `updates` only. -/
def updatesCfg : Cfg := cfgLoad (cstr "/m") []

def kernelFoo : FoundFile := ⟨cstr "/m/kernel", cstr "foo.ko", by decide, by decide⟩

def updatesFoo : FoundFile := ⟨cstr "/m/updates", cstr "foo.ko", by decide, by decide⟩

/-- There is memory, and files can be looked at unless they are in `updates`. -/
def updatesUnreadable : Attempt where
  cwd := cstr "/"
  stat := fun path => if path = cstr "/m/updates/foo.ko" then -ENOENT else 0
  abspath := true
  kmod := true
  poolEntry := true
  mod := true
  path := true
  nameEntry := true
  uncrelpath := true
  uncrelEntry := true

/-- The file in `updates` goes away while depmod looks at it: no module `foo` is left. -/
theorem depmodModulesSearchFile_atomic_lost :
    ¬ Atomic koOnly updatesCfg (searchFiles koOnly updatesCfg [⟨kernelFoo, updatesUnreadable⟩])
        ⟨updatesFoo, updatesUnreadable⟩ := by
  have hneg : (depmodModulesSearchFile koOnly updatesCfg updatesUnreadable
      (searchFiles koOnly updatesCfg [⟨kernelFoo, updatesUnreadable⟩]) updatesFoo).1 < 0 := by
    decide +kernel
  have hbefore : ((searchFiles koOnly updatesCfg
      [⟨kernelFoo, updatesUnreadable⟩]).modulesByName.lookup (cstr "foo")).isSome = true := by
    decide +kernel
  have hafter : ((depmodModulesSearchFile koOnly updatesCfg updatesUnreadable
      (searchFiles koOnly updatesCfg [⟨kernelFoo, updatesUnreadable⟩])
      updatesFoo).2.modulesByName.lookup (cstr "foo")).isSome = false := by
    decide +kernel
  intro h
  rw [(h.1 hneg).1, hbefore] at hafter
  cases hafter

/-! ## Without failures -/

/-- What the selection of files sees of the tables. -/
def Registry.mods (reg : Registry) : ModulesByName :=
  fun n => (reg.modulesByName.lookup n).map RegisteredMod.mod

theorem added_mods (reg : Registry) (cfg : Cfg) (n path : CStr) :
    (reg.added cfg n path).mods = Kmod.depmodModuleAdd reg.mods path n := by
  funext k
  show ((reg.modulesByName.insert n _).lookup k).map RegisteredMod.mod = _
  rw [StrMap.lookup_insert]
  unfold Kmod.depmodModuleAdd
  split <;> rfl

/-- The module that was taken out is entered anew, so nothing of it is left to see. -/
theorem del_added_mods (reg : Registry) {m : RegisteredMod} {n : CStr} (hname : m.mod.modname = n)
    (cfg : Cfg) (path : CStr) :
    ((depmodModuleDel reg m).added cfg n path).mods = Kmod.depmodModuleAdd reg.mods path n := by
  rw [added_mods]
  funext k
  unfold Kmod.depmodModuleAdd
  split
  · rfl
  · next hk =>
    show ((reg.modulesByName.erase m.mod.modname).lookup k).map RegisteredMod.mod = _
    rw [hname, StrMap.lookup_erase, if_neg hk]
    rfl

/-- **A call in which nothing fails** registers the file that the selection takes. -/
theorem depmodModulesSearchFile_refines (kmodExts : List CStr) (cfg : Cfg) {a : Attempt}
    {reg : Registry} (h : Inv reg) {f : FoundFile} (hok : ¬ CreationFails cfg a f.path) :
    (depmodModulesSearchFile kmodExts cfg a reg f).2.mods
      = Kmod.depmodModulesSearchFile kmodExts a.cwd cfg reg.mods f := by
  unfold depmodModulesSearchFile Kmod.depmodModulesSearchFile
  cases pathEndsWithKmodExt kmodExts f.name with
  | false => rfl
  | true =>
    cases hname : pathToModname f.path with
    | none => rfl
    | some n =>
      cases hm : reg.modulesByName.lookup n with
      | none =>
        have hmods : reg.mods n = none := by rw [Registry.mods, hm]; rfl
        rcases h.addPath a cfg hname (Finmap.lookup_eq_none.1 hm) with
          ⟨hfails, -⟩ | ⟨-, reg', hrun, rfl, -⟩
        · exact absurd hfails hok
        · simp only [hm, hmods, hrun, Bool.not_true, Bool.false_eq_true, if_false]
          exact added_mods reg cfg n _
      | some m =>
        have hmods : reg.mods n = some m.mod := by rw [Registry.mods, hm]; rfl
        have hgone : n ∉ (depmodModuleDel reg m).modulesByName := by
          show n ∉ reg.modulesByName.erase m.mod.modname
          rw [h.named n m hm]
          exact Finmap.notMem_erase_self
        rcases (h.del hm).addPath a cfg hname hgone with ⟨hfails, -⟩ | ⟨-, reg', hrun, rfl, -⟩
        · exact absurd hfails hok
        · simp only [hm, hmods, hrun, Bool.not_true, Bool.false_eq_true, if_false]
          split
          · rfl
          · exact del_added_mods reg (h.named n m hm) cfg _

/--
A run in which nothing fails registers the files that the selection takes. depmod does not
change its directory.
-/
theorem searchFiles_refines (kmodExts : List CStr) (cwd : CStr) (cfg : Cfg) (calls : List Call)
    (hok : ∀ c ∈ calls, ¬ CreationFails cfg c.attempt c.file.path)
    (hcwd : ∀ c ∈ calls, c.attempt.cwd = cwd) :
    (searchFiles kmodExts cfg calls).mods
      = depmodModulesSearch kmodExts cwd cfg (calls.map Call.file) := by
  induction calls using List.reverseRecOn with
  | nil => rfl
  | append_singleton calls c ih =>
    have hprev := ih (fun c hc => hok c (List.mem_append_left _ hc))
      (fun c hc => hcwd c (List.mem_append_left _ hc))
    have hlast : c ∈ calls ++ [c] := List.mem_append_right _ (List.mem_singleton_self c)
    have hstep := depmodModulesSearchFile_refines kmodExts cfg (inv_searchFiles kmodExts cfg calls)
      (hok c hlast)
    rw [hprev, hcwd c hlast] at hstep
    unfold searchFiles depmodModulesSearch at hstep ⊢
    rw [List.foldl_append, List.map_append, List.foldl_append]
    exact hstep

end Kmod.Register
