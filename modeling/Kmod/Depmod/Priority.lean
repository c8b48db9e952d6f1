import Kmod.Base
import Kmod.Libkmod.Depline

/-!
# Which file of a module is taken

`depmod_modules_search_file` is called for each file that is found in the module
directory and in the external directories. Of the files with one module name it keeps
one: a new file replaces the registered one unless
`depmod_module_is_higher_priority` says otherwise.

The comparison goes through the configuration, whose lists have the command that was
given last at the front. So the entries of the search list come with the lowest priority
first, and a file has the number of the last entry that fits.
-/

namespace Kmod

/-! ## The configuration -/

/-- A command of depmod.d, for this kernel. -/
inductive CfgCommand where
  | search (path : CStr)
  | override (modname subdir : CStr)
  | external (path : CStr)
  deriving DecidableEq, Repr

/-- `struct cfg_search` with its `enum search_type` -/
inductive CfgSearch where
  | builtin
  | external
  | path (path : CStr)
  deriving DecidableEq, Repr

/-- What the selection of files uses of `struct cfg`. -/
structure Cfg where
  /-- The module directory. -/
  dirname : CStr
  overrides : List CStr
  searches : List CfgSearch
  externals : List CStr
  deriving DecidableEq, Repr

/-- `cfg_define_search_type` -/
def cfgDefineSearchType (path : CStr) : CfgSearch :=
  if path = cstr "built-in" then .builtin
  else if path = cstr "external" then .external
  else .path path

/-- `cfg_search_add` -/
def cfgSearchAdd (cfg : Cfg) (path : CStr) : Cfg :=
  { cfg with searches := cfgDefineSearchType path :: cfg.searches }

/-- `cfg_override_add`. No extension, so we can match .ko/.ko.gz. -/
def cfgOverrideAdd (cfg : Cfg) (modname subdir : CStr) : Cfg :=
  { cfg with overrides := (subdir ++ 47 :: modname) :: cfg.overrides }

/-- `cfg_external_add` -/
def cfgExternalAdd (cfg : Cfg) (path : CStr) : Cfg :=
  { cfg with externals := path :: cfg.externals }

/-- A line of `cfg_file_parse`, word by word for `search`. -/
def cfgCommandAdd (cfg : Cfg) : CfgCommand → Cfg
  | .search path => cfgSearchAdd cfg path
  | .override modname subdir => cfgOverrideAdd cfg modname subdir
  | .external path => cfgExternalAdd cfg path

/-- `cfg_load`: without a search command, `updates` is searched. -/
def cfgLoad (dirname : CStr) (commands : List CfgCommand) : Cfg :=
  let cfg := commands.foldl cfgCommandAdd ⟨dirname, [], [], []⟩
  if cfg.searches = [] then cfgSearchAdd cfg (cstr "updates") else cfg

/-! ## Files -/

/-- A file as `depmod_modules_search_dir` finds it: in a directory, under a name. -/
structure FoundFile where
  dir : CStr
  name : CStr
  name_slash : 47 ∉ name
  /-- The path is a string in memory. -/
  fits : dir.length + name.length < SIZE_MAX
  deriving DecidableEq

/-- The path is that of the directory, a slash, and the name. -/
def FoundFile.path (f : FoundFile) : CStr := f.dir ++ 47 :: f.name

/-- `baselen`: where the name starts in the path. -/
def FoundFile.baselen (f : FoundFile) : Nat := f.dir.length + 1

/-- What the selection of files uses of `struct mod`. -/
structure Mod where
  path : CStr
  /-- Up to the last slash. -/
  baselen : Nat
  modname : CStr
  deriving DecidableEq, Repr

/-- `mod->baselen` for a `mod->path`. -/
def modBaselen (path : CStr) : Nat := path.length - (basename path).length - 1

/-- `mod->modnamesz` -/
def Mod.modnamesz (mod : Mod) : Nat := mod.modname.length + 1

/-- `path_ends_with_kmod_ext`; the extensions depend on the build. -/
def pathEndsWithKmodExt (kmodExts : List CStr) (name : CStr) : Bool :=
  kmodExts.any (fun ext => decide (ext.length < name.length ∧ ext <:+ name))

/-! ## The comparison -/

/-- `depmod_is_path_starts_with` -/
def depmodIsPathStartsWith (path : CStr) (pathlen : Nat) (start : CStr) : Bool :=
  decide (start.length < pathlen ∧ path[start.length]? = some 47 ∧ path.take start.length = start)

/-- A path with its length; behind the length is the extension. -/
structure Stem where
  path : CStr
  len : Nat
  deriving DecidableEq, Repr

/-- `relnewpath` and `relnewlen`; `NULL` is the empty path here. -/
def relStem (cfg : Cfg) (s : Stem) : Stem :=
  if s.path.take cfg.dirname.length = cfg.dirname then
    ⟨s.path.drop (cfg.dirname.length + 1),
      (s.len + (SIZE_MAX + 1) - (cfg.dirname.length + 1)) % (SIZE_MAX + 1)⟩
  else ⟨[], 0⟩

/-- The path is that of an override. -/
def matchesOverride (rel : Stem) (ov : CStr) : Bool :=
  decide (rel.len = ov.length ∧ rel.path.take rel.len = ov)

/-- The path is in a directory of the search list. -/
def matchesSearch (rel : Stem) (se : CStr) : Bool :=
  decide (se.length < rel.len ∧ rel.path[se.length]? = some 47 ∧ rel.path.take se.length = se)

/-- The loop over the overrides: whether the old file wins, if it is decided. -/
def overrideLoop (relnew relold : Stem) : List CStr → Option Bool
  | [] => none
  | ov :: ovs =>
    if matchesOverride relnew ov then some false
    else if matchesOverride relold ov then some true
    else overrideLoop relnew relold ovs

structure Prios where
  i : Int
  bprio : Int
  oldprio : Int
  newprio : Int
  deriving DecidableEq, Repr

/-- The loop over the external directories. -/
def externalLoop (new old : Stem) : List CStr → Prios → Prios
  | [], s => s
  | ext :: exts, s =>
    let s := if depmodIsPathStartsWith new.path new.len ext then { s with newprio := s.i } else s
    let s := if depmodIsPathStartsWith old.path old.len ext then { s with oldprio := s.i } else s
    externalLoop new old exts { s with i := s.i + 1 }

/-- The loop over the search list. -/
def searchLoop (cfg : Cfg) (new old : Stem) : List CfgSearch → Prios → Prios
  | [], s => s
  | .builtin :: ses, s => searchLoop cfg new old ses { s with bprio := s.i, i := s.i + 1 }
  | .external :: ses, s =>
    let s := externalLoop new old cfg.externals s
    searchLoop cfg new old ses { s with i := s.i + 1 }
  | .path p :: ses, s =>
    let s :=
      if matchesSearch (relStem cfg new) p then { s with newprio := s.i }
      else if matchesSearch (relStem cfg old) p then { s with oldprio := s.i }
      else s
    searchLoop cfg new old ses { s with i := s.i + 1 }

/-- `depmod_module_is_higher_priority`: the existing module is kept. -/
def depmodModuleIsHigherPriority (cfg : Cfg) (mod : Mod) (baselen modnamelen : Nat)
    (newpath : CStr) : Bool :=
  -- baselen includes the last '/' and mod->baselen doesn't
  let new : Stem := ⟨newpath, baselen + modnamelen⟩
  let old : Stem := ⟨mod.path, mod.baselen + mod.modnamesz⟩
  match overrideLoop (relStem cfg new) (relStem cfg old) cfg.overrides with
  | some kept => kept
  | none =>
    let s := searchLoop cfg new old cfg.searches ⟨0, -1, -1, -1⟩
    let newprio := if s.newprio < 0 then s.bprio else s.newprio
    let oldprio := if s.oldprio < 0 then s.bprio else s.oldprio
    decide (newprio ≤ oldprio)

/-! ## Finding files -/

/-- `depmod->modules_by_name` -/
abbrev ModulesByName := CStr → Option Mod

/-- `depmod_module_add` of the module of libkmod for a path, where nothing fails. -/
def depmodModuleAdd (mods : ModulesByName) (path modname : CStr) : ModulesByName :=
  fun name =>
    if name = modname then some ⟨path, modBaselen path, modname⟩
    else mods name

/--
`depmod_modules_search_file`, where nothing fails. The new path is compared as it was found,
and registered as `kmod_module_new_from_path` makes it, which is absolute.
-/
def depmodModulesSearchFile (kmodExts : List CStr) (cwd : CStr) (cfg : Cfg) (mods : ModulesByName)
    (f : FoundFile) : ModulesByName :=
  if pathEndsWithKmodExt kmodExts f.name = false then mods
  else
    match pathToModname f.path with
    | none => mods
    | some modname =>
      match mods modname with
      | none => depmodModuleAdd mods (pathMakeAbsoluteCwd cwd f.path) modname
      | some mod =>
        if depmodModuleIsHigherPriority cfg mod f.baselen modname.length f.path then mods
        else depmodModuleAdd mods (pathMakeAbsoluteCwd cwd f.path) modname

/-- The files of all directories, one after the other. -/
def depmodModulesSearch (kmodExts : List CStr) (cwd : CStr) (cfg : Cfg) (files : List FoundFile) :
    ModulesByName :=
  files.foldl (depmodModulesSearchFile kmodExts cwd cfg) (fun _ => none)

end Kmod
