import Kmod.Base
import Mathlib.Data.List.TakeWhile
import Mathlib.Logic.Function.Basic

/-!
# Reading the dependencies of a module

libkmod keeps its module objects in a pool, by name. `kmod_module_get_dependencies`
looks a module up in `modules.dep.bin` the first time it is asked and hands the
line to `kmod_module_parse_depline`, which turns every path of the line into a
module of the pool and puts each one before those it has found so far.

References are not counted here: a module stays in the pool.
-/

namespace Kmod

/-! ## Names and paths -/

/-- `basename`: what follows the last slash. -/
def basename (path : CStr) : CStr := (path.reverse.takeWhile (· ≠ 47)).reverse

/-- `modname_normalize`: up to the first dot, with `_` for `-`, in a buffer of `PATH_MAX` bytes. -/
def modnameNormalize (modname : CStr) : CStr :=
  ((modname.take (PATH_MAX - 1)).takeWhile (· ≠ 46)).map (fun c => if c = 45 then 95 else c)

/-- `path_to_modname`. -/
def pathToModname (path : CStr) : Option CStr :=
  match basename path with
  | [] => none
  | modname => some (modnameNormalize modname)

/-- `path_is_absolute`. -/
def pathIsAbsolute (p : CStr) : Bool := p.head? = some 47

/-- What reading dependencies uses of a context and of the system. -/
structure ModuleCtx where
  /-- `kmod_get_dirname`. -/
  dirname : CStr
  /-- `kmod_new` makes it absolute. -/
  dirname_abs : pathIsAbsolute dirname = true
  /-- `get_current_dir_name`. -/
  cwd : CStr
  /-- `stat`: 0, or a negative error number. -/
  stat : CStr → Int

/-- `path_make_absolute_cwd`, where there is memory. -/
def pathMakeAbsoluteCwd (cwd p : CStr) : CStr :=
  if pathIsAbsolute p then p else cwd ++ 47 :: p

/-- `path_join`, with the directory of the context in the buffer. -/
def pathJoin (ctx : ModuleCtx) (path : CStr) : Option CStr :=
  if pathIsAbsolute path then some path
  else if ctx.dirname.length + 1 + path.length + 1 ≥ PATH_MAX then none
  else some (ctx.dirname ++ cstr "/" ++ path)

/-! ## The pool -/

/-- What reading dependencies uses of a `struct kmod_module`. -/
structure KmodModule where
  path : Option CStr
  /-- The names of the modules in the list `dep`. -/
  dep : List CStr
  /-- The field `init.dep`. -/
  initDep : Bool

/-- `modules_by_name`. -/
abbrev Pool := CStr → Option KmodModule

/-- `kmod_module_new`: the module of the pool with this name, or a new one. -/
def kmodModuleNew (pool : Pool) (key : CStr) : KmodModule := (pool key).getD ⟨none, [], false⟩

/-- `kmod_module_new_from_path`: the name of the module, and the pool then. -/
def kmodModuleNewFromPath (ctx : ModuleCtx) (pool : Pool) (path : CStr) :
    Except Int (CStr × Pool) :=
  let abspath := pathMakeAbsoluteCwd ctx.cwd path
  if ctx.stat abspath < 0 then .error (ctx.stat abspath)
  else
    match pathToModname path with
    | none => .error (-ENOENT)
    | some name =>
      let m := kmodModuleNew pool name
      match m.path with
      | none => .ok (name, Function.update pool name (some { m with path := some abspath }))
      | some p =>
        if p = abspath then .ok (name, Function.update pool name (some m)) else .error (-EEXIST)

/-! ## The lines of `modules.dep` -/

/-- `strtok_r` with the delimiters space and tab, to the end. -/
def strtok (s : CStr) : List CStr := (s.splitOnP (fun c => c = 32 || c = 9)).filter (· ≠ [])

/-- The loop of `kmod_module_parse_depline`: the list, unless it fails, and the pool then. -/
def parseDeps (ctx : ModuleCtx) : List CStr → Pool → List CStr → Option (List CStr) × Pool
  | [], pool, list => (some list, pool)
  | p :: ps, pool, list =>
    match pathJoin ctx p with
    | none => (none, pool)
    | some path =>
      match kmodModuleNewFromPath ctx pool path with
      | .error _ => (none, pool)
      | .ok (depmod, pool) => parseDeps ctx ps pool (depmod :: list)

/-- The end of `kmod_module_parse_depline`, for the module with its path; `p` follows the colon. -/
def parseDeplineRest (ctx : ModuleCtx) (key : CStr) (mod : KmodModule) (p : CStr)
    (pool : Pool) : Pool :=
  match parseDeps ctx (strtok p) (Function.update pool key (some mod)) [] with
  | (some list, pool) =>
    Function.update pool key ((pool key).map (fun mod => { mod with dep := list }))
  | (none, pool) =>
    Function.update pool key ((pool key).map (fun mod => { mod with initDep := false }))

/-- The path of the module itself, if it has none yet: what precedes the colon. -/
def ownPath (ctx : ModuleCtx) (mod : KmodModule) (line : CStr) : Option CStr :=
  match mod.path with
  | some path => some path
  | none => pathJoin ctx line

/-- `kmod_module_parse_depline`, for the module with this name. -/
def kmodModuleParseDepline (ctx : ModuleCtx) (key line : CStr) (pool : Pool) : Except Fault Pool :=
  let mod := kmodModuleNew pool key
  if mod.initDep then .ok pool
  else if mod.dep ≠ [] then .error .assertFailed
  else
    let mod := { mod with initDep := true }
    match line.dropWhile (· ≠ 58) with
    | [] => .ok (Function.update pool key (some mod))
    | _ :: p =>
      if ctx.dirname.length + 2 ≥ PATH_MAX then .ok (Function.update pool key (some mod))
      else
        match ownPath ctx mod (line.takeWhile (· ≠ 58)) with
        | none => .ok (Function.update pool key (some mod))
        | some path => .ok (parseDeplineRest ctx key { mod with path := some path } p pool)

/-- `kmod_module_get_dependencies`, with the way to look a name up in `modules.dep.bin`. -/
def kmodModuleGetDependencies (ctx : ModuleCtx) (searchModdep : CStr → Except Fault (Option CStr))
    (key : CStr) (pool : Pool) : Except Fault (List CStr × Pool) :=
  if (kmodModuleNew pool key).initDep then .ok ((kmodModuleNew pool key).dep, pool)
  else do
    match ← searchModdep key with
    | none => .ok ((kmodModuleNew pool key).dep, pool)
    | some line => do
      let pool ← kmodModuleParseDepline ctx key line pool
      .ok ((kmodModuleNew pool key).dep, pool)

/-! ## Names do not depend on the directory -/

theorem basename_append (dir path : CStr) : basename (dir ++ 47 :: path) = basename path := by
  rw [basename, basename, List.reverse_append, List.reverse_cons, List.append_assoc,
    List.takeWhile_append]
  split
  · next hlen => rw [(List.takeWhile_prefix _).eq_of_length hlen]; simp
  · rfl

theorem basename_of_notMem {path : CStr} (h : 47 ∉ path) : basename path = path := by
  have hall : ∀ c ∈ path.reverse, decide (c ≠ 47) = true := by
    intro c hc
    exact decide_eq_true (fun h47 => h (h47 ▸ List.mem_reverse.mp hc))
  unfold basename
  rw [List.takeWhile_eq_self_iff.mpr hall, List.reverse_reverse]

theorem slash_notMem_basename (path : CStr) : 47 ∉ basename path := by
  intro h
  have hne := List.mem_takeWhile_imp (List.mem_reverse.mp h)
  simp at hne

/-- A path with a slash is a directory and a name. -/
theorem basename_split {path : CStr} (h : 47 ∈ path) :
    ∃ dir, path = dir ++ 47 :: basename path := by
  have hrev : 47 ∈ path.reverse := List.mem_reverse.mpr h
  obtain ⟨a, b, hab, ha⟩ := List.eq_append_cons_of_mem hrev
  have htake : path.reverse.takeWhile (· ≠ 47) = a := by
    rw [hab, List.takeWhile_append_of_pos (by simpa using fun c hc => by rintro rfl; exact ha hc)]
    simp
  refine ⟨b.reverse, ?_⟩
  have := congrArg List.reverse hab
  rw [List.reverse_reverse] at this
  rw [basename, htake, this]
  simp

theorem pathToModname_append (dir path : CStr) :
    pathToModname (dir ++ 47 :: path) = pathToModname path := by
  rw [pathToModname, pathToModname, basename_append]

theorem mem_of_mem_basename {c : UInt8} {path : CStr} (h : c ∈ basename path) : c ∈ path := by
  unfold basename at h
  rw [List.mem_reverse] at h
  exact List.mem_reverse.mp (List.takeWhile_subset _ h)

/-- The characters of a name come from the path, but for the underscore. -/
theorem mem_of_mem_modname {c : UInt8} {path name : CStr} (hname : pathToModname path = some name)
    (h : c ∈ name) : c = 95 ∨ c ∈ path := by
  unfold pathToModname at hname
  split at hname
  · exact absurd hname (by simp)
  · rw [← Option.some.inj hname, modnameNormalize] at h
    obtain ⟨b, hb, rfl⟩ := List.mem_map.mp h
    have hin := mem_of_mem_basename (List.mem_of_mem_take (List.takeWhile_subset _ hb))
    split
    · exact .inl rfl
    · exact .inr hin

/-! ## The words of a line -/

theorem strtok_words (ps : List CStr) (hps : ∀ p ∈ ps, p ≠ [] ∧ ∀ c ∈ p, c ≠ 32 ∧ c ≠ 9) :
    strtok (ps.flatMap (fun p => cstr " " ++ p)) = ps := by
  -- the first word has no space before it
  have hsplit : ∀ (p : CStr), (∀ c ∈ p, c ≠ 32 ∧ c ≠ 9) → ∀ ps : List CStr,
      (∀ p ∈ ps, p ≠ [] ∧ ∀ c ∈ p, c ≠ 32 ∧ c ≠ 9) →
      (p ++ ps.flatMap (fun p => cstr " " ++ p)).splitOnP (fun c => c = 32 || c = 9) = p :: ps := by
    intro p hp ps
    induction ps generalizing p with
    | nil =>
      intro _
      rw [List.flatMap_nil, List.append_nil]
      exact List.splitOnP_eq_singleton (fun c hc => by simpa using hp c hc)
    | cons q ps ih =>
      intro hps
      have hq := hps q (List.mem_cons_self ..)
      rw [List.flatMap_cons, List.append_assoc]
      show (p ++ 32 :: (q ++ _)).splitOnP _ = _
      rw [List.splitOnP_append_cons_of_forall_mem (fun c hc => by simpa using hp c hc) 32 (by simp),
        ih q hq.2 (fun r hr => hps r (List.mem_cons_of_mem _ hr))]
  have hall := hsplit [] (by simp) ps hps
  rw [List.nil_append] at hall
  unfold strtok
  rw [hall]
  simpa using fun p hp => (hps p hp).1

/-! ## Changes to the pool -/

@[simp] theorem kmodModuleNew_empty (key : CStr) :
    kmodModuleNew (fun _ => none) key = ⟨none, [], false⟩ := rfl

@[simp] theorem kmodModuleNew_update_self (pool : Pool) (key : CStr) (m : KmodModule) :
    kmodModuleNew (Function.update pool key (some m)) key = m := by
  simp [kmodModuleNew]

theorem kmodModuleNew_update_of_ne (pool : Pool) {key key' : CStr} (h : key' ≠ key)
    (m : Option KmodModule) :
    kmodModuleNew (Function.update pool key m) key' = kmodModuleNew pool key' := by
  simp [kmodModuleNew, h]

/-- The pools agree in the dependencies of all modules. -/
def SameDeps (pool pool' : Pool) : Prop := ∀ key,
  (kmodModuleNew pool' key).dep = (kmodModuleNew pool key).dep ∧
    (kmodModuleNew pool' key).initDep = (kmodModuleNew pool key).initDep

theorem SameDeps.trans {pool pool' pool'' : Pool} (h : SameDeps pool pool')
    (h' : SameDeps pool' pool'') : SameDeps pool pool'' :=
  fun key => ⟨(h' key).1.trans (h key).1, (h' key).2.trans (h key).2⟩

/--
**A module of a path.** If the pool knows no other path
for the name, the module is found or made.
-/
theorem kmodModuleNewFromPath_ok {ctx : ModuleCtx} {pool : Pool} {path name : CStr}
    (habs : pathIsAbsolute path = true) (hstat : 0 ≤ ctx.stat path)
    (hname : pathToModname path = some name)
    (hpath : (kmodModuleNew pool name).path = none ∨ (kmodModuleNew pool name).path = some path) :
    ∃ pool', kmodModuleNewFromPath ctx pool path = .ok (name, pool') ∧ SameDeps pool pool' ∧
      (kmodModuleNew pool' name).path = some path ∧
      ∀ key ≠ name, kmodModuleNew pool' key = kmodModuleNew pool key := by
  have habspath : pathMakeAbsoluteCwd ctx.cwd path = path := if_pos habs
  unfold kmodModuleNewFromPath
  simp only [habspath, if_neg (show ¬ ctx.stat path < 0 by omega), hname]
  have hupdate : ∀ m : KmodModule, m.dep = (kmodModuleNew pool name).dep →
      m.initDep = (kmodModuleNew pool name).initDep → m.path = some path →
      SameDeps pool (Function.update pool name (some m)) ∧
        (kmodModuleNew (Function.update pool name (some m)) name).path = some path ∧
        ∀ key ≠ name, kmodModuleNew (Function.update pool name (some m)) key
          = kmodModuleNew pool key := by
    intro m hdep hinit hm
    refine ⟨fun key => ?_, by simpa using hm, fun key hk => kmodModuleNew_update_of_ne pool hk _⟩
    by_cases hk : key = name
    · rw [hk, kmodModuleNew_update_self]
      exact ⟨hdep, hinit⟩
    · rw [kmodModuleNew_update_of_ne pool hk]
      exact ⟨rfl, rfl⟩
  rcases hpath with hp | hp
  · rw [hp]
    exact ⟨_, rfl, hupdate _ rfl rfl rfl⟩
  · rw [hp]
    exact ⟨_, if_pos rfl, hupdate _ rfl rfl hp⟩

end Kmod
