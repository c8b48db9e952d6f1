import Kmod.Index.Served
import Kmod.Libkmod.Aliases
import Kmod.Libkmod.Depline

/-!
# Looking up a module

`kmod_module_new_from_lookup` asks up to seven places in turn: the aliases of the
configuration, the names of modules, symbols, commands of the configuration, aliases of
modules, built-in modules and their aliases. The first place that knows something decides. An
error ends the lookup, but an index that is not there only means that nothing is found in it.

What the places know is what is in the configuration and in five files (`stages`). Whether the
context has mapped an index or reads its file makes no difference
(`kmodModuleNewFromLookup_resolves`), and no sequence of lookups runs into the assertion of
`kmod_module_parse_depline`.
-/

namespace Kmod.Lookup

open Index

/-! ## The model -/

/-- What lookups read of a `struct kmod_ctx` and of the system. -/
structure LookupCtx where
  kctx : KmodCtx
  mctx : ModuleCtx
  config : KmodConfig
  fnmatch : CStr → CStr → Bool

/-- What lookups change of the modules in the pool: paths and dependencies, and the commands that
are set. -/
structure Mods where
  pool : Pool
  installCommands : CStr → Option CStr
  removeCommands : CStr → Option CStr

/-- What is found: the keys of the modules in the list, or an error. -/
abbrev Answer := Except Int (List CStr)

/-- A `lookup_func`. -/
abbrev LookupFunc := LookupCtx → Nat → CStr → Mods → Except Fault (Answer × Mods)

/-- `kmod_module_new_from_name`: the key of the module. -/
def kmodModuleNewFromName (name : CStr) : CStr := modnameNormalize name

/-- A lookup that leaves the modules as they are. -/
def pureLookup (answer : LookupCtx → Nat → CStr → Except Fault Answer) : LookupFunc :=
  fun ctx fuel name mods => (answer ctx fuel name).map (fun a => (a, mods))

/-- `kmod_lookup_alias_from_moddep_file` -/
def kmodLookupAliasFromModdepFile : LookupFunc := fun ctx _ name mods =>
  if 58 ∈ name then .ok (.ok [], mods)
  else do
    match ← kmodSearchModdep ctx.kctx name with
    | none => .ok (.ok [], mods)
    | some line => do
      let key := kmodModuleNewFromName name
      let pool ← kmodModuleParseDepline ctx.mctx key line mods.pool
      .ok (.ok [key], { mods with pool := pool })

/-- `kmod_lookup_alias_from_symbols_file` -/
def kmodLookupAliasFromSymbolsFile : LookupFunc := pureLookup fun ctx fuel name =>
  if !(cstr "symbol:").isPrefixOf name then .ok (.ok [])
  else kmodLookupAliasFromAliasBin ctx.fnmatch fuel ctx.kctx .modulesSymbol name

/-- `kmod_lookup_alias_from_commands`: only the first command matches. -/
def kmodLookupAliasFromCommands : LookupFunc := fun ctx _ name mods =>
  match ctx.config.installCommands.find? (fun c => c.1 = name) with
  | some (modname, cmd) =>
    let key := kmodModuleNewFromName modname
    .ok (.ok [key], { mods with
      installCommands := Function.update mods.installCommands key (some cmd) })
  | none =>
    match ctx.config.removeCommands.find? (fun c => c.1 = name) with
    | some (modname, cmd) =>
      let key := kmodModuleNewFromName modname
      .ok (.ok [key], { mods with
        removeCommands := Function.update mods.removeCommands key (some cmd) })
    | none => .ok (.ok [], mods)

/-- `kmod_lookup_alias_from_aliases_file` -/
def kmodLookupAliasFromAliasesFile : LookupFunc := pureLookup fun ctx fuel name =>
  kmodLookupAliasFromAliasBin ctx.fnmatch fuel ctx.kctx .modulesAlias name

/-- `lookup_builtin_file` -/
def lookupBuiltinFile (ctx : LookupCtx) (name : CStr) : Except Fault Bool :=
  (lookupFile ctx.kctx .modulesBuiltin name).map Option.isSome

/-- `kmod_lookup_alias_is_builtin` -/
def kmodLookupAliasIsBuiltin (ctx : LookupCtx) (name : CStr) : Except Fault Bool :=
  lookupBuiltinFile ctx name

/-- `kmod_lookup_alias_from_builtin_file` -/
def kmodLookupAliasFromBuiltinFile : LookupFunc := pureLookup fun ctx _ name => do
  if ← lookupBuiltinFile ctx name then .ok (.ok [kmodModuleNewFromName name]) else .ok (.ok [])

/-- `kmod_lookup_alias_from_kernel_builtin_file` -/
def kmodLookupAliasFromKernelBuiltinFile : LookupFunc := pureLookup fun ctx fuel name =>
  kmodLookupAliasFromAliasBin ctx.fnmatch fuel ctx.kctx .modulesBuiltinAlias name

/-- `__kmod_module_new_from_lookup` -/
def newFromLookup (ctx : LookupCtx) (fuel : Nat) :
    List LookupFunc → CStr → Mods → Except Fault (Answer × Mods)
  | [], _, mods => .ok (.ok [], mods)
  | lookup :: lookups, s, mods => do
    let (answer, mods) ← lookup ctx fuel s mods
    match answer with
    | .error err =>
      if err = -ENOSYS then newFromLookup ctx fuel lookups s mods else .ok (.error err, mods)
    | .ok [] => newFromLookup ctx fuel lookups s mods
    | .ok (key :: keys) => .ok (.ok (key :: keys), mods)

/-- The places that `kmod_module_new_from_lookup` asks. -/
def lookups : List LookupFunc :=
  [pureLookup fun ctx _ name => .ok (kmodLookupAliasFromConfig ctx.fnmatch ctx.config name),
    kmodLookupAliasFromModdepFile, kmodLookupAliasFromSymbolsFile, kmodLookupAliasFromCommands,
    kmodLookupAliasFromAliasesFile, kmodLookupAliasFromBuiltinFile,
    kmodLookupAliasFromKernelBuiltinFile]

/-- `kmod_module_new_from_lookup`, with an empty list. -/
def kmodModuleNewFromLookup (ctx : LookupCtx) (fuel : Nat) (givenAlias : CStr) (mods : Mods) :
    Except Fault (Answer × Mods) :=
  match aliasNormalize givenAlias with
  | none => .ok (.error (-EINVAL), mods)
  | some alias_ => newFromLookup ctx fuel lookups alias_ mods

/-- The places that `kmod_module_new_from_name_lookup` asks. -/
def nameLookups : List LookupFunc :=
  [kmodLookupAliasFromModdepFile, kmodLookupAliasFromBuiltinFile,
    kmodLookupAliasFromKernelBuiltinFile]

/-- `kmod_module_new_from_name_lookup`: the module, if there is one. -/
def kmodModuleNewFromNameLookup (ctx : LookupCtx) (fuel : Nat) (modname : CStr) (mods : Mods) :
    Except Fault (Except Int (Option CStr) × Mods) := do
  let (answer, mods) ← newFromLookup ctx fuel nameLookups (modnameNormalize modname) mods
  .ok (answer.map List.head?, mods)

/-- A call that has to do with lookups. -/
inductive LookupCall where
  | newFromLookup (givenAlias : CStr)
  | newFromNameLookup (modname : CStr)
  | loadResources
  | unloadResources

/-- A run of calls: the answers of the lookups, and the context and the modules then. What is found
for a name is a list of at most one module. -/
def runCalls (fuel : Nat) : List LookupCall → LookupCtx → Mods →
    Except Fault (List Answer × LookupCtx × Mods)
  | [], ctx, mods => .ok ([], ctx, mods)
  | .newFromLookup givenAlias :: calls, ctx, mods => do
    let (answer, mods) ← kmodModuleNewFromLookup ctx fuel givenAlias mods
    let (answers, world) ← runCalls fuel calls ctx mods
    .ok (answer :: answers, world)
  | .newFromNameLookup modname :: calls, ctx, mods => do
    let (found, mods) ← kmodModuleNewFromNameLookup ctx fuel modname mods
    let (answers, world) ← runCalls fuel calls ctx mods
    .ok (found.map Option.toList :: answers, world)
  | .loadResources :: calls, ctx, mods =>
    runCalls fuel calls { ctx with kctx := (kmodLoadResources ctx.kctx).2 } mods
  | .unloadResources :: calls, ctx, mods =>
    runCalls fuel calls { ctx with kctx := kmodUnloadResources ctx.kctx } mods

/-! ## What the places know -/

/-- The five files: the entries each was written from, unless it cannot be opened. -/
abbrev Installed := KmodIndex → Option (List Entry)

/-- A name was entered into an index. -/
def HasKey (inst : Installed) (type : KmodIndex) (name : CStr) : Prop :=
  ∃ e ∈ (inst type).getD [], e.key = name

instance (inst : Installed) (type : KmodIndex) (name : CStr) : Decidable (HasKey inst type name) :=
  inferInstanceAs (Decidable (∃ e ∈ _, _))

/-- What an index of aliases knows. -/
def FromIndex (fnmatch : CStr → CStr → Bool) (inst : Installed) (type : KmodIndex) (name : CStr)
    (answer : Answer) : Prop :=
  match inst type with
  | none => answer = .error (-ENOSYS)
  | some es => ∃ out, Listed fnmatch es name out ∧
      answer = out.mapM (fun v => kmodModuleNewFromAlias name v.value)

/-- There is an install or remove command for exactly this name. -/
def HasCommand (config : KmodConfig) (name : CStr) : Prop :=
  ∃ c ∈ config.installCommands ++ config.removeCommands, c.1 = name

instance (config : KmodConfig) (name : CStr) : Decidable (HasCommand config name) :=
  inferInstanceAs (Decidable (∃ c ∈ _, _))

/-- The module of a name, if something is known of it. -/
def ifKnown (name : CStr) (known : Prop) [Decidable known] : Answer :=
  .ok (if known then [modnameNormalize name] else [])

/-- The names of modules that `modules.dep.bin` knows; a name with a colon is not looked up. -/
def nameStage (inst : Installed) (name : CStr) (answer : Answer) : Prop :=
  answer = ifKnown name (58 ∉ name ∧ HasKey inst .modulesDep name)

/-- Symbols are looked up with a prefix. -/
def symbolStage (fnmatch : CStr → CStr → Bool) (inst : Installed) (name : CStr)
    (answer : Answer) : Prop :=
  if (cstr "symbol:").isPrefixOf name then FromIndex fnmatch inst .modulesSymbol name answer
  else answer = .ok []

/-- What each of the seven places answers. -/
def stages (config : KmodConfig) (fnmatch : CStr → CStr → Bool) (inst : Installed) (name : CStr) :
    List (Answer → Prop) :=
  [(· = kmodLookupAliasFromConfig fnmatch config name), nameStage inst name,
    symbolStage fnmatch inst name, (· = ifKnown name (HasCommand config name)),
    FromIndex fnmatch inst .modulesAlias name,
    (· = ifKnown name (HasKey inst .modulesBuiltin name)),
    FromIndex fnmatch inst .modulesBuiltinAlias name]

/-- The places for a name only. -/
def nameStages (fnmatch : CStr → CStr → Bool) (inst : Installed) (name : CStr) :
    List (Answer → Prop) :=
  [nameStage inst name, (· = ifKnown name (HasKey inst .modulesBuiltin name)),
    FromIndex fnmatch inst .modulesBuiltinAlias name]

/-- The first place that finds something, or fails, decides. A missing index does not. -/
inductive Resolves : List (Answer → Prop) → Answer → Prop where
  | nothing : Resolves [] (.ok [])
  | found {P : Answer → Prop} {Ps : List (Answer → Prop)} {key : CStr} {keys : List CStr} :
      P (.ok (key :: keys)) → Resolves (P :: Ps) (.ok (key :: keys))
  | failed {P : Answer → Prop} {Ps : List (Answer → Prop)} {err : Int} : P (.error err) →
      err ≠ -ENOSYS → Resolves (P :: Ps) (.error err)
  | next {P : Answer → Prop} {Ps : List (Answer → Prop)} {a answer : Answer} : P a →
      a = .ok [] ∨ a = .error (-ENOSYS) → Resolves Ps answer → Resolves (P :: Ps) answer

/-- Places with one answer each lead to one answer. -/
theorem Resolves.unique {Ps : List (Answer → Prop)} {a a' : Answer}
    (hone : ∀ P ∈ Ps, ∀ a a', P a → P a' → a = a') (h : Resolves Ps a) (h' : Resolves Ps a') :
    a = a' := by
  induction h with
  | nothing =>
    cases h' with
    | nothing => rfl
  | found hp =>
    have hsame := fun a' hp' => hone _ (List.mem_cons_self ..) _ a' hp hp'
    cases h' with
    | found hp' => exact hsame _ hp'
    | failed hp' _ => exact hsame _ hp'
    | next hp' hor _ =>
      rcases hor with rfl | rfl
      · exact absurd (hsame _ hp') (by simp)
      · exact absurd (hsame _ hp') (by simp)
  | failed hp hne =>
    have hsame := fun a' hp' => hone _ (List.mem_cons_self ..) _ a' hp hp'
    cases h' with
    | found hp' => exact hsame _ hp'
    | failed hp' _ => exact hsame _ hp'
    | next hp' hor _ =>
      rcases hor with rfl | rfl
      · exact absurd (hsame _ hp') (by simp)
      · exact absurd (Except.error.inj (hsame _ hp')) hne
  | next hp hor _ ih =>
    have hsame := fun a' hp' => hone _ (List.mem_cons_self ..) _ a' hp hp'
    cases h' with
    | found hp' =>
      rcases hor with rfl | rfl
      · exact absurd (hsame _ hp') (by simp)
      · exact absurd (hsame _ hp') (by simp)
    | failed hp' hne =>
      rcases hor with rfl | rfl
      · exact absurd (hsame _ hp') (by simp)
      · exact absurd (Except.error.inj (hsame _ hp')).symm hne
    | next _ _ hrest => exact ih (fun P hP => hone P (List.mem_cons_of_mem _ hP)) hrest

/-! ## The pool -/

/-- A module without its dependencies read has none: what `kmod_module_parse_depline` asserts. -/
def Sane (pool : Pool) : Prop :=
  ∀ key, (kmodModuleNew pool key).initDep = false → (kmodModuleNew pool key).dep = []

theorem sane_update {pool : Pool} (h : Sane pool) {key : CStr} {mod : KmodModule}
    (hmod : mod.initDep = false → mod.dep = []) : Sane (Function.update pool key (some mod)) := by
  intro k hk
  by_cases hkey : k = key
  · rw [hkey, kmodModuleNew_update_self] at hk ⊢
    exact hmod hk
  · rw [kmodModuleNew_update_of_ne pool hkey] at hk ⊢
    exact h k hk

theorem sane_empty : Sane (fun _ => none) := fun _ _ => rfl

theorem sameDeps_newFromPath {ctx : ModuleCtx} {pool pool' : Pool} {path name : CStr}
    (h : kmodModuleNewFromPath ctx pool path = .ok (name, pool')) : SameDeps pool pool' := by
  have hupdate : ∀ {name : CStr} {m : KmodModule}, m.dep = (kmodModuleNew pool name).dep →
      m.initDep = (kmodModuleNew pool name).initDep →
      SameDeps pool (Function.update pool name (some m)) := by
    intro name m hdep hinit key
    by_cases hk : key = name
    · rw [hk, kmodModuleNew_update_self]
      exact ⟨hdep, hinit⟩
    · rw [kmodModuleNew_update_of_ne pool hk]
      exact ⟨rfl, rfl⟩
  unfold kmodModuleNewFromPath at h
  dsimp only at h
  split at h
  · exact absurd h (by simp)
  · split at h
    · exact absurd h (by simp)
    · split at h
      · obtain ⟨-, rfl⟩ := Prod.mk.inj (Except.ok.inj h)
        exact hupdate rfl rfl
      · split at h
        · obtain ⟨-, rfl⟩ := Prod.mk.inj (Except.ok.inj h)
          exact hupdate rfl rfl
        · exact absurd h (by simp)

/-- Reading the words of a line changes paths only. -/
theorem sameDeps_parseDeps (ctx : ModuleCtx) (ps : List CStr) :
    ∀ pool list, SameDeps pool (parseDeps ctx ps pool list).2 := by
  induction ps with
  | nil => exact fun pool list key => ⟨rfl, rfl⟩
  | cons p ps ih =>
    intro pool list
    unfold parseDeps
    split
    · exact fun key => ⟨rfl, rfl⟩
    · split
      · exact fun key => ⟨rfl, rfl⟩
      · next hnew => exact (sameDeps_newFromPath hnew).trans (ih _ _)

/-- The module gets its list, or is as before. -/
theorem Sane.parseDeplineRest {pool : Pool} (h : Sane pool) (ctx : ModuleCtx) (key p : CStr)
    {mod : KmodModule} (hdep : mod.dep = []) (hinit : mod.initDep = true) :
    Sane (parseDeplineRest ctx key mod p pool) := by
  unfold Kmod.parseDeplineRest
  have hstart : Sane (Function.update pool key (some mod)) := sane_update h (fun _ => hdep)
  have hsame := sameDeps_parseDeps ctx (strtok p) (Function.update pool key (some mod)) []
  obtain ⟨list, pool₂, hparse⟩ : ∃ list pool₂,
      parseDeps ctx (strtok p) (Function.update pool key (some mod)) [] = (list, pool₂) :=
    ⟨_, _, rfl⟩
  rw [hparse] at hsame
  replace hsame : SameDeps (Function.update pool key (some mod)) pool₂ := hsame
  have hself := hsame key
  rw [kmodModuleNew_update_self, hinit, hdep] at hself
  have hsane : Sane pool₂ := by
    intro k hk
    rw [(hsame k).1]
    rw [(hsame k).2] at hk
    exact hstart k hk
  obtain ⟨mod₂, hmod⟩ : ∃ mod₂, pool₂ key = some mod₂ := by
    cases hp : pool₂ key with
    | none =>
      rw [kmodModuleNew, hp] at hself
      exact absurd hself.2 (by simp)
    | some mod₂ => exact ⟨mod₂, rfl⟩
  rw [kmodModuleNew, hmod] at hself
  rw [hparse]
  cases list with
  | some list =>
    dsimp only
    rw [hmod]
    exact sane_update hsane (fun hno => absurd (hself.2.symm.trans hno) (by simp))
  | none =>
    dsimp only
    rw [hmod]
    exact sane_update hsane (fun _ => hself.1)

/-- **Reading the line of a module** does not run into the assertion, and keeps the pool sane. -/
theorem Sane.parseDepline {pool : Pool} (h : Sane pool) (ctx : ModuleCtx) (key line : CStr) :
    ∃ pool', kmodModuleParseDepline ctx key line pool = .ok pool' ∧ Sane pool' := by
  unfold kmodModuleParseDepline
  dsimp only
  by_cases hinit : (kmodModuleNew pool key).initDep = true
  · exact ⟨pool, if_pos hinit, h⟩
  · have hdep := h key (by simpa using hinit)
    rw [if_neg hinit, if_neg (by simp [hdep])]
    have hread : Sane (Function.update pool key
        (some { kmodModuleNew pool key with initDep := true })) := sane_update h (by simp)
    split
    · exact ⟨_, rfl, hread⟩
    · split
      · exact ⟨_, rfl, hread⟩
      · split
        · exact ⟨_, rfl, hread⟩
        · exact ⟨_, rfl, h.parseDeplineRest ctx key _ hdep rfl⟩

/-! ## One place -/

/-- A lookup gives an answer of its place, with enough steps, and keeps the pool sane. -/
def Answers (ctx : LookupCtx) (name : CStr) (lookup : LookupFunc) (P : Answer → Prop) : Prop :=
  ∀ mods : Mods, Sane mods.pool → ∃ answer mods' bound, P answer ∧ Sane mods'.pool ∧
    ∀ fuel ≥ bound, lookup ctx fuel name mods = .ok (answer, mods')

section Places

variable {ctx : LookupCtx} {inst : Installed} (hserves : ∀ type, Serves ctx.kctx type (inst type))
  {name : CStr}

/-- A lookup that only reads. -/
theorem answers_pure {answer : LookupCtx → Nat → CStr → Except Fault Answer} {P : Answer → Prop}
    {a : Answer} {bound : Nat} (ha : P a) (h : ∀ fuel ≥ bound, answer ctx fuel name = .ok a) :
    Answers ctx name (pureLookup answer) P := by
  intro mods hsane
  refine ⟨a, mods, bound, ha, hsane, fun fuel hfuel => ?_⟩
  rw [pureLookup, h fuel hfuel]
  rfl

include hserves

/-- What `lookup_file` says of a name, mapped or not. -/
theorem lookupFile_hasKey (type : KmodIndex) (name : CStr) :
    ∃ res, lookupFile ctx.kctx type name = .ok res ∧
      (res.isSome = true ↔ HasKey inst type name) := by
  have h := hserves type
  unfold HasKey
  cases hinst : inst type with
  | none =>
    rw [hinst] at h
    cases h with
    | absent hidx hfile =>
      refine ⟨none, ?_, by simp⟩
      rw [lookupFile, hidx, KmodCtx.openFile, hfile]
  | some es =>
    rw [hinst] at h
    obtain ⟨res, hlookup, hfound⟩ := h.lookupFile name
    refine ⟨res, hlookup, ?_⟩
    cases res with
    | none =>
      refine iff_of_false (by simp) ?_
      rintro ⟨e, he, hkey⟩
      exact hfound e he hkey
    | some v =>
      obtain ⟨e, he, hkey, -⟩ := hfound
      exact iff_of_true rfl ⟨e, he, hkey⟩

variable (hname : ∀ c ∈ name, isWild c = false)
include hname

/-- What `kmod_lookup_alias_from_alias_bin` says, mapped or not. -/
theorem lookupAlias_fromIndex (type : KmodIndex) :
    ∃ answer bound, FromIndex ctx.fnmatch inst type name answer ∧ ∀ fuel ≥ bound,
      kmodLookupAliasFromAliasBin ctx.fnmatch fuel ctx.kctx type name = .ok answer := by
  have h := hserves type
  unfold FromIndex
  cases hinst : inst type with
  | none =>
    rw [hinst] at h
    cases h with
    | absent hidx hfile =>
      refine ⟨_, 0, rfl, fun fuel _ => ?_⟩
      rw [kmodLookupAliasFromAliasBin, hidx, KmodCtx.openFile, hfile]
  | some es =>
    rw [hinst] at h
    obtain ⟨out, bound, hlisted, hlookup⟩ := h.lookupAlias ctx.fnmatch hname
    exact ⟨_, bound, ⟨out, hlisted, rfl⟩, hlookup⟩

theorem answers_alias {answer : LookupCtx → Nat → CStr → Except Fault Answer} {type : KmodIndex}
    (h : ∀ fuel, answer ctx fuel name
      = kmodLookupAliasFromAliasBin ctx.fnmatch fuel ctx.kctx type name) :
    Answers ctx name (pureLookup answer) (FromIndex ctx.fnmatch inst type name) := by
  obtain ⟨a, bound, ha, hlookup⟩ := lookupAlias_fromIndex hserves hname type
  exact answers_pure ha (fun fuel hfuel => (h fuel).trans (hlookup fuel hfuel))

theorem answers_symbols : Answers ctx name kmodLookupAliasFromSymbolsFile
    (symbolStage ctx.fnmatch inst name) := by
  unfold symbolStage
  by_cases hpre : (cstr "symbol:").isPrefixOf name = true
  · simp only [if_pos hpre]
    refine answers_alias hserves hname (fun fuel => ?_)
    simp only [hpre, Bool.not_true, Bool.false_eq_true, if_false]
  · simp only [if_neg hpre]
    refine answers_pure rfl (fun fuel (_ : fuel ≥ 0) => ?_)
    simp only [hpre, Bool.not_false, if_true]

omit hname

theorem answers_name : Answers ctx name kmodLookupAliasFromModdepFile (nameStage inst name) := by
  intro mods hsane
  unfold kmodLookupAliasFromModdepFile nameStage
  by_cases hcolon : 58 ∈ name
  · refine ⟨_, mods, 0, rfl, hsane, fun fuel _ => ?_⟩
    rw [if_pos hcolon, ifKnown, if_neg (fun h => h.1 hcolon)]
  · obtain ⟨res, hlookup, hkey⟩ := lookupFile_hasKey hserves .modulesDep name
    have hsearch : kmodSearchModdep ctx.kctx name = .ok res := hlookup
    cases res with
    | none =>
      refine ⟨_, mods, 0, rfl, hsane, fun fuel _ => ?_⟩
      rw [if_neg hcolon, hsearch, ifKnown, if_neg (fun h => absurd (hkey.mpr h.2) (by simp))]
      rfl
    | some line =>
      obtain ⟨pool', hparse, hsane'⟩ :=
        hsane.parseDepline ctx.mctx (kmodModuleNewFromName name) line
      refine ⟨_, { mods with pool := pool' }, 0, rfl, hsane', fun fuel _ => ?_⟩
      rw [if_neg hcolon, hsearch, ifKnown, if_pos ⟨hcolon, hkey.mp rfl⟩]
      show (kmodModuleParseDepline _ _ _ _ >>= _) = _
      rw [hparse]
      rfl

theorem answers_builtin : Answers ctx name kmodLookupAliasFromBuiltinFile
    (· = ifKnown name (HasKey inst .modulesBuiltin name)) := by
  obtain ⟨res, hlookup, hkey⟩ := lookupFile_hasKey hserves .modulesBuiltin name
  refine answers_pure rfl (fun fuel (_ : fuel ≥ 0) => ?_)
  rw [lookupBuiltinFile, hlookup]
  cases res with
  | none =>
    rw [ifKnown, if_neg (fun h => absurd (hkey.mpr h) (by simp))]
    rfl
  | some v =>
    rw [ifKnown, if_pos (hkey.mp rfl)]
    rfl

omit hserves

theorem answers_config : Answers ctx name
    (pureLookup fun ctx _ name => .ok (kmodLookupAliasFromConfig ctx.fnmatch ctx.config name))
    (· = kmodLookupAliasFromConfig ctx.fnmatch ctx.config name) :=
  answers_pure rfl (fun fuel (_ : fuel ≥ 0) => rfl)

theorem answers_commands : Answers ctx name kmodLookupAliasFromCommands
    (· = ifKnown name (HasCommand ctx.config name)) := by
  intro mods hsane
  have hfind : ∀ {l : List (CStr × CStr)} {c : CStr × CStr},
      l.find? (fun c => c.1 = name) = some c → c ∈ l ∧ c.1 = name := fun h =>
    ⟨List.mem_of_find?_eq_some h, by simpa using List.find?_some h⟩
  unfold kmodLookupAliasFromCommands
  cases hinstall : ctx.config.installCommands.find? (fun c => c.1 = name) with
  | some c =>
    obtain ⟨modname, cmd⟩ := c
    obtain ⟨hmem, hsame⟩ := hfind hinstall
    obtain rfl : modname = name := hsame
    refine ⟨_, { mods with
      installCommands := Function.update mods.installCommands (kmodModuleNewFromName modname)
        (some cmd) }, 0, rfl, hsane, fun fuel _ => ?_⟩
    rw [ifKnown, if_pos ⟨_, List.mem_append_left _ hmem, rfl⟩]
    rfl
  | none =>
    cases hremove : ctx.config.removeCommands.find? (fun c => c.1 = name) with
    | some c =>
      obtain ⟨modname, cmd⟩ := c
      obtain ⟨hmem, hsame⟩ := hfind hremove
      obtain rfl : modname = name := hsame
      refine ⟨_, { mods with
        removeCommands := Function.update mods.removeCommands (kmodModuleNewFromName modname)
          (some cmd) }, 0, rfl, hsane, fun fuel _ => ?_⟩
      rw [ifKnown, if_pos ⟨_, List.mem_append_right _ hmem, rfl⟩]
      rfl
    | none =>
      refine ⟨_, mods, 0, rfl, hsane, fun fuel _ => ?_⟩
      rw [ifKnown, if_neg]
      rintro ⟨c, hc, hsame⟩
      rcases List.mem_append.mp hc with hc | hc
      · exact List.find?_eq_none.mp hinstall c hc (by simpa using hsame)
      · exact List.find?_eq_none.mp hremove c hc (by simpa using hsame)

end Places

/-! ## The places one after the other -/

/-- Pairs of lookups and places. -/
def AllAnswer (ctx : LookupCtx) (name : CStr) : List LookupFunc → List (Answer → Prop) → Prop :=
  List.Forall₂ (Answers ctx name)

/-- **The loop finds what the first place knows.** -/
theorem newFromLookup_resolves {ctx : LookupCtx} {name : CStr} {lookups : List LookupFunc}
    {Ps : List (Answer → Prop)} (h : AllAnswer ctx name lookups Ps) :
    ∀ mods : Mods, Sane mods.pool → ∃ answer mods' bound, Resolves Ps answer ∧ Sane mods'.pool ∧
      ∀ fuel ≥ bound, newFromLookup ctx fuel lookups name mods = .ok (answer, mods') := by
  induction h with
  | nil => exact fun mods hsane => ⟨_, mods, 0, .nothing, hsane, fun _ _ => rfl⟩
  | @cons lookup P lookups Ps hone _ ih =>
    intro mods hsane
    obtain ⟨a, mods₁, bound, ha, hsane₁, hrun⟩ := hone mods hsane
    -- the place decides, or the loop goes on
    have hgo : a = .ok [] ∨ a = .error (-ENOSYS) → ∃ answer mods' bound, Resolves (P :: Ps) answer ∧
        Sane mods'.pool ∧ ∀ fuel ≥ bound,
          newFromLookup ctx fuel (lookup :: lookups) name mods = .ok (answer, mods') := by
      intro hor
      obtain ⟨answer, mods', bound', hres, hsane', hrest⟩ := ih mods₁ hsane₁
      refine ⟨answer, mods', max bound bound', .next ha hor hres, hsane', fun fuel hfuel => ?_⟩
      rw [newFromLookup, hrun fuel (le_trans (Nat.le_max_left ..) hfuel), ok_bind,
        ← hrest fuel (le_trans (Nat.le_max_right ..) hfuel)]
      rcases hor with rfl | rfl
      · rfl
      · exact if_pos rfl
    cases a with
    | error err =>
      by_cases hsys : err = -ENOSYS
      · exact hgo (.inr (congrArg Except.error hsys))
      · refine ⟨_, mods₁, bound, .failed ha hsys, hsane₁, fun fuel hfuel => ?_⟩
        rw [newFromLookup, hrun fuel hfuel, ok_bind]
        exact if_neg hsys
    | ok keys =>
      cases keys with
      | nil => exact hgo (.inl rfl)
      | cons key keys =>
        refine ⟨_, mods₁, bound, .found ha, hsane₁, fun fuel hfuel => ?_⟩
        rw [newFromLookup, hrun fuel hfuel, ok_bind]

section Unique

variable {config : KmodConfig} {fnmatch : CStr → CStr → Bool} {inst : Installed} {name : CStr}

/-- Entries with one value for each priority make the answer of an index the only one. -/
theorem fromIndex_unique {type : KmodIndex} (hr : Ranked fnmatch ((inst type).getD []) name)
    {a a' : Answer} (h : FromIndex fnmatch inst type name a)
    (h' : FromIndex fnmatch inst type name a') : a = a' := by
  unfold FromIndex at h h'
  cases hinst : inst type with
  | none =>
    simp only [hinst] at h h'
    exact h.trans h'.symm
  | some es =>
    rw [hinst] at hr
    simp only [hinst] at h h'
    obtain ⟨out, hout, rfl⟩ := h
    obtain ⟨out', hout', rfl⟩ := h'
    rw [hout.unique hout' hr]

theorem nameStages_unique (hr : ∀ type, Ranked fnmatch ((inst type).getD []) name) :
    ∀ P ∈ nameStages fnmatch inst name, ∀ a a', P a → P a' → a = a' := by
  intro P hP a a' h h'
  simp only [nameStages, List.mem_cons, List.not_mem_nil, or_false] at hP
  rcases hP with rfl | rfl | rfl
  · exact Eq.trans h (Eq.symm h')
  · exact h.trans h'.symm
  · exact fromIndex_unique (hr _) h h'

theorem stages_unique (hr : ∀ type, Ranked fnmatch ((inst type).getD []) name) :
    ∀ P ∈ stages config fnmatch inst name, ∀ a a', P a → P a' → a = a' := by
  intro P hP a a' h h'
  simp only [stages, List.mem_cons, List.not_mem_nil, or_false] at hP
  rcases hP with rfl | rfl | rfl | rfl | rfl | rfl | rfl
  · exact h.trans h'.symm
  · exact Eq.trans h (Eq.symm h')
  · unfold symbolStage at h h'
    split at h
    · next hpre =>
      rw [if_pos hpre] at h'
      exact fromIndex_unique (hr _) h h'
    · next hpre =>
      rw [if_neg hpre] at h'
      exact h.trans h'.symm
  · exact h.trans h'.symm
  · exact fromIndex_unique (hr _) h h'
  · exact h.trans h'.symm
  · exact fromIndex_unique (hr _) h h'

end Unique

/-- If all places know what they know, there is an answer. -/
theorem exists_resolves {Ps : List (Answer → Prop)} (h : ∀ P ∈ Ps, ∃ a, P a) :
    ∃ answer, Resolves Ps answer := by
  induction Ps with
  | nil => exact ⟨_, .nothing⟩
  | cons P Ps ih =>
    obtain ⟨a, ha⟩ := h P (List.mem_cons_self ..)
    obtain ⟨answer, hrest⟩ := ih (fun Q hQ => h Q (List.mem_cons_of_mem _ hQ))
    cases a with
    | error err =>
      by_cases hsys : err = -ENOSYS
      · exact ⟨_, .next ha (.inr (congrArg Except.error hsys)) hrest⟩
      · exact ⟨_, .failed ha hsys⟩
    | ok keys =>
      cases keys with
      | nil => exact ⟨_, .next ha (.inl rfl) hrest⟩
      | cons key keys => exact ⟨_, .found ha⟩

theorem exists_fromIndex (fnmatch : CStr → CStr → Bool) (inst : Installed) (type : KmodIndex)
    (name : CStr) : ∃ a, FromIndex fnmatch inst type name a := by
  unfold FromIndex
  cases inst type with
  | none => exact ⟨_, rfl⟩
  | some es => exact ⟨_, _, ⟨addValues_nil_perm _, addValues_sorted _⟩, rfl⟩

theorem exists_stages (config : KmodConfig) (fnmatch : CStr → CStr → Bool) (inst : Installed)
    (name : CStr) : ∃ answer, Resolves (stages config fnmatch inst name) answer := by
  refine exists_resolves (fun P hP => ?_)
  simp only [stages, List.mem_cons, List.not_mem_nil, or_false] at hP
  rcases hP with rfl | rfl | rfl | rfl | rfl | rfl | rfl
  · exact ⟨_, rfl⟩
  · exact ⟨_, rfl⟩
  · unfold symbolStage
    split
    · exact exists_fromIndex ..
    · exact ⟨_, rfl⟩
  · exact ⟨_, rfl⟩
  · exact exists_fromIndex ..
  · exact ⟨_, rfl⟩
  · exact exists_fromIndex ..

theorem exists_nameStages (fnmatch : CStr → CStr → Bool) (inst : Installed) (name : CStr) :
    ∃ answer, Resolves (nameStages fnmatch inst name) answer := by
  refine exists_resolves (fun P hP => ?_)
  simp only [nameStages, List.mem_cons, List.not_mem_nil, or_false] at hP
  rcases hP with rfl | rfl | rfl
  · exact ⟨_, rfl⟩
  · exact ⟨_, rfl⟩
  · exact exists_fromIndex ..

/-! ## Whole runs -/

/-- The name that a call looks up. -/
def LookupCall.asked : LookupCall → Option CStr
  | .newFromLookup givenAlias => aliasNormalize givenAlias
  | .newFromNameLookup modname => some (modnameNormalize modname)
  | _ => none

/-- The first module only. -/
def firstOf (answer : Answer) : Answer := answer.map (fun keys => keys.head?.toList)

/-- What a call should answer, if it is a lookup. -/
def Expected (config : KmodConfig) (fnmatch : CStr → CStr → Bool) (inst : Installed) :
    LookupCall → Option Answer → Prop
  | .newFromLookup givenAlias, answer =>
    (aliasNormalize givenAlias = none ∧ answer = some (.error (-EINVAL))) ∨
      ∃ name a, aliasNormalize givenAlias = some name ∧
        Resolves (stages config fnmatch inst name) a ∧ answer = some a
  | .newFromNameLookup modname, answer =>
    ∃ a, Resolves (nameStages fnmatch inst (modnameNormalize modname)) a ∧
      answer = some (firstOf a)
  | _, answer => answer = none

/-- A lookup that does not ask for wildcards, and for which equal priorities mean equal modules. -/
def Unambiguous (fnmatch : CStr → CStr → Bool) (inst : Installed) (call : LookupCall) : Prop :=
  ∀ name, call.asked = some name → (∀ c ∈ name, isWild c = false) ∧
    ∀ type, Ranked fnmatch ((inst type).getD []) name

theorem exists_expected (config : KmodConfig) (fnmatch : CStr → CStr → Bool) (inst : Installed)
    (call : LookupCall) : ∃ answer, Expected config fnmatch inst call answer := by
  cases call with
  | newFromLookup givenAlias =>
    cases hnorm : aliasNormalize givenAlias with
    | none => exact ⟨_, .inl ⟨hnorm, rfl⟩⟩
    | some name =>
      obtain ⟨a, ha⟩ := exists_stages config fnmatch inst name
      exact ⟨_, .inr ⟨name, a, hnorm, ha, rfl⟩⟩
  | newFromNameLookup modname =>
    obtain ⟨a, ha⟩ := exists_nameStages fnmatch inst (modnameNormalize modname)
    exact ⟨_, a, ha, rfl⟩
  | loadResources => exact ⟨_, rfl⟩
  | unloadResources => exact ⟨_, rfl⟩

/-- There is only one. -/
theorem Expected.unique {config : KmodConfig} {fnmatch : CStr → CStr → Bool} {inst : Installed}
    {call : LookupCall} (hclear : Unambiguous fnmatch inst call) {answer answer' : Option Answer}
    (h : Expected config fnmatch inst call answer)
    (h' : Expected config fnmatch inst call answer') : answer = answer' := by
  cases call with
  | newFromLookup givenAlias =>
    rcases h with ⟨hnone, rfl⟩ | ⟨name, a, hsome, ha, rfl⟩
    · rcases h' with ⟨_, rfl⟩ | ⟨_, _, hsome', _, _⟩
      · rfl
      · exact absurd (hnone.symm.trans hsome') (by simp)
    · rcases h' with ⟨hnone', _⟩ | ⟨name', a', hsome', ha', rfl⟩
      · exact absurd (hnone'.symm.trans hsome) (by simp)
      · obtain rfl := Option.some.inj (hsome.symm.trans hsome')
        rw [ha.unique (stages_unique (hclear name hsome).2) ha']
  | newFromNameLookup modname =>
    obtain ⟨a, ha, rfl⟩ := h
    obtain ⟨a', ha', rfl⟩ := h'
    rw [ha.unique (nameStages_unique (hclear _ rfl).2) ha']
  | loadResources => exact Eq.trans h (Eq.symm h')
  | unloadResources => exact Eq.trans h (Eq.symm h')

/-- One lookup: what the places know of the name decides. -/
theorem kmodModuleNewFromLookup_resolves {ctx : LookupCtx} {inst : Installed}
    (hserves : ∀ type, Serves ctx.kctx type (inst type)) {givenAlias name : CStr}
    (hnorm : aliasNormalize givenAlias = some name) (hname : ∀ c ∈ name, isWild c = false)
    {mods : Mods} (hsane : Sane mods.pool) :
    ∃ answer mods' bound, Resolves (stages ctx.config ctx.fnmatch inst name) answer ∧
      Sane mods'.pool ∧ ∀ fuel ≥ bound,
        kmodModuleNewFromLookup ctx fuel givenAlias mods = .ok (answer, mods') := by
  have hall : AllAnswer ctx name lookups (stages ctx.config ctx.fnmatch inst name) :=
    .cons answers_config (.cons (answers_name hserves) (.cons (answers_symbols hserves hname)
      (.cons answers_commands (.cons (answers_alias hserves hname (fun _ => rfl))
        (.cons (answers_builtin hserves) (.cons (answers_alias hserves hname (fun _ => rfl))
          .nil))))))
  obtain ⟨answer, mods', bound, hres, hsane', hrun⟩ := newFromLookup_resolves hall mods hsane
  refine ⟨answer, mods', bound, hres, hsane', fun fuel hfuel => ?_⟩
  rw [kmodModuleNewFromLookup, hnorm]
  exact hrun fuel hfuel

/-- One lookup of a name: the module is the first of what the places know. -/
theorem kmodModuleNewFromNameLookup_resolves {ctx : LookupCtx} {inst : Installed}
    (hserves : ∀ type, Serves ctx.kctx type (inst type)) {modname : CStr}
    (hname : ∀ c ∈ modnameNormalize modname, isWild c = false) {mods : Mods}
    (hsane : Sane mods.pool) :
    ∃ answer mods' bound, Resolves (nameStages ctx.fnmatch inst (modnameNormalize modname)) answer ∧
      Sane mods'.pool ∧ ∀ fuel ≥ bound,
        kmodModuleNewFromNameLookup ctx fuel modname mods
          = .ok (answer.map List.head?, mods') := by
  have hall : AllAnswer ctx (modnameNormalize modname) nameLookups
      (nameStages ctx.fnmatch inst (modnameNormalize modname)) :=
    .cons (answers_name hserves) (.cons (answers_builtin hserves)
      (.cons (answers_alias hserves hname (fun _ => rfl)) .nil))
  obtain ⟨answer, mods', bound, hres, hsane', hrun⟩ := newFromLookup_resolves hall mods hsane
  refine ⟨answer, mods', bound, hres, hsane', fun fuel hfuel => ?_⟩
  rw [kmodModuleNewFromNameLookup, hrun fuel hfuel]
  rfl

/--
**Lookups over whole runs.** For every configuration and every set of index files, each written
by depmod or missing, there is one answer to each name without wildcards: what the first place
knows that knows something. In every run of lookups, loadings and unloadings, from any context
with these files and any sane pool, each lookup gives this answer, whatever was asked and mapped
before; and no run fails.
-/
theorem runCalls_resolves (config : KmodConfig) (fnmatch : CStr → CStr → Bool)
    (inst : Installed) :
    ∃ resolve : LookupCall → Option Answer,
      (∀ call, Expected config fnmatch inst call (resolve call)) ∧
      ∀ (calls : List LookupCall) (ctx : LookupCtx) (mods : Mods), ctx.config = config →
        ctx.fnmatch = fnmatch → (∀ type, Serves ctx.kctx type (inst type)) → Opened ctx.kctx →
        Sane mods.pool → (∀ call ∈ calls, Unambiguous fnmatch inst call) →
        ∃ ctx' mods' bound, Opened ctx'.kctx ∧ ctx'.kctx.file = ctx.kctx.file ∧ Sane mods'.pool ∧
          ∀ fuel ≥ bound,
            runCalls fuel calls ctx mods = .ok (calls.filterMap resolve, ctx', mods') := by
  choose resolve hresolve using exists_expected config fnmatch inst
  refine ⟨resolve, hresolve, fun calls => ?_⟩
  induction calls with
  | nil =>
    intro ctx mods _ _ _ hopened hsane _
    exact ⟨ctx, mods, 0, hopened, rfl, hsane, fun _ _ => rfl⟩
  | cons call calls ih =>
    intro ctx mods hconfig hfnmatch hserves hopened hsane hclear
    have hrest := fun (ctx' : LookupCtx) (mods' : Mods) hconfig' hfnmatch' hserves' hopened'
        hsane' =>
      ih ctx' mods' hconfig' hfnmatch' hserves' hopened' hsane'
        (fun g hg => hclear g (List.mem_cons_of_mem _ hg))
    have hone := fun {a} (ha : Expected config fnmatch inst call a) =>
      (hresolve call).unique (hclear call (List.mem_cons_self ..)) ha
    -- a lookup answers as the files say, and the run goes on
    have hlookup : ∀ (answer : Answer) (mods₁ : Mods) (bound : Nat),
        Expected config fnmatch inst call (some answer) → Sane mods₁.pool →
        (∀ fuel ≥ bound, ∀ world, runCalls fuel calls ctx mods₁ = .ok world →
          runCalls fuel (call :: calls) ctx mods = .ok (answer :: world.1, world.2)) →
        ∃ ctx' mods' bound, Opened ctx'.kctx ∧ ctx'.kctx.file = ctx.kctx.file ∧ Sane mods'.pool ∧
          ∀ fuel ≥ bound, runCalls fuel (call :: calls) ctx mods
            = .ok ((call :: calls).filterMap resolve, ctx', mods') := by
      intro answer mods₁ bound hexp hsane₁ hrun₁
      obtain ⟨ctx', mods', bound', hopened', hfile', hsane', hrun'⟩ :=
        hrest ctx mods₁ hconfig hfnmatch hserves hopened hsane₁
      refine ⟨ctx', mods', max bound bound', hopened', hfile', hsane', fun fuel hfuel => ?_⟩
      rw [hrun₁ fuel (le_trans (Nat.le_max_left ..) hfuel) _
        (hrun' fuel (le_trans (Nat.le_max_right ..) hfuel)), List.filterMap_cons, hone hexp]
    cases call with
    | newFromLookup givenAlias =>
      cases hnorm : aliasNormalize givenAlias with
      | none =>
        refine hlookup _ mods 0 (.inl ⟨hnorm, rfl⟩) hsane (fun fuel _ world hworld => ?_)
        rw [runCalls, kmodModuleNewFromLookup, hnorm]
        show (runCalls fuel calls ctx mods >>= _) = _
        rw [hworld]
        rfl
      | some name =>
        obtain ⟨hname, -⟩ := hclear _ (List.mem_cons_self ..) name hnorm
        obtain ⟨answer, mods₁, bound, hres, hsane₁, hrun₁⟩ :=
          kmodModuleNewFromLookup_resolves hserves hnorm hname hsane
        rw [hconfig, hfnmatch] at hres
        refine hlookup _ mods₁ bound (.inr ⟨name, answer, hnorm, hres, rfl⟩) hsane₁
          (fun fuel hfuel world hworld => ?_)
        rw [runCalls, hrun₁ fuel hfuel, ok_bind]
        dsimp only
        rw [hworld]
        rfl
    | newFromNameLookup modname =>
      obtain ⟨hname, -⟩ := hclear _ (List.mem_cons_self ..) _ rfl
      obtain ⟨answer, mods₁, bound, hres, hsane₁, hrun₁⟩ :=
        kmodModuleNewFromNameLookup_resolves hserves hname hsane
      rw [hfnmatch] at hres
      refine hlookup _ mods₁ bound ⟨answer, hres, rfl⟩ hsane₁ (fun fuel hfuel world hworld => ?_)
      rw [runCalls, hrun₁ fuel hfuel, ok_bind]
      dsimp only
      rw [hworld, ok_bind]
      cases answer with
      | error err => rfl
      | ok keys => rfl
    | loadResources =>
      obtain ⟨hopened', hfile⟩ := kmodLoadResources_opened hopened
      obtain ⟨ctx', mods', bound, hopenedEnd, hfileEnd, hsane', hrun'⟩ :=
        hrest { ctx with kctx := (kmodLoadResources ctx.kctx).2 } mods hconfig hfnmatch
          (fun type => (hserves type).congr hfile hopened') hopened' hsane
      refine ⟨ctx', mods', bound, hopenedEnd, hfileEnd.trans hfile, hsane', fun fuel hfuel => ?_⟩
      rw [runCalls, hrun' fuel hfuel, List.filterMap_cons, hone rfl]
    | unloadResources =>
      have hopened' := kmodUnloadResources_opened ctx.kctx
      obtain ⟨ctx', mods', bound, hopenedEnd, hfileEnd, hsane', hrun'⟩ :=
        hrest { ctx with kctx := kmodUnloadResources ctx.kctx } mods hconfig hfnmatch
          (fun type => (hserves type).congr rfl hopened') hopened' hsane
      refine ⟨ctx', mods', bound, hopenedEnd, hfileEnd, hsane', fun fuel hfuel => ?_⟩
      rw [runCalls, hrun' fuel hfuel, List.filterMap_cons, hone rfl]

end Kmod.Lookup
