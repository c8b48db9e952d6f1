import Kmod.Depmod.BuiltinAlias
import Kmod.Depmod.IndexOutput
import Kmod.Libkmod.Lookup
import Kmod.ModulesDep

/-!
# From depmod's tables to the modules that are found

depmod knows the names of modules, their aliases, who owns which symbol, and what is built into
the kernel. It writes five indexes; libkmod maps or streams them, through whole runs of lookups,
and knows nothing else.

`Known.answer` says what a lookup should find, from depmod's tables and the configuration alone.
`depmod_finds` is the composition: the indexes are written, and in every run every lookup gives
that answer. The answers of an index are ordered by priority, and the priority of a module is its
position; built-in modules have none, so only one of them may match.
-/

namespace Kmod.ModulesFound

open Index Depmod Symbols ModulesOrder Lookup

variable {μ : Type}

/-! ## What should be found -/

/-- What depmod knows: its modules with their aliases, the symbols, and the contents of
`modules.builtin` and `modules.builtin.modinfo`. What the stack buffer of `output_builtin_bin`
has at first is `junk`. -/
structure Known (μ : Type) where
  d : Depmod μ
  aliases : μ → List CStr
  symbols : List (HashEntry (Symbol μ))
  builtin : CStr
  modinfo : List CStr
  junk : CStr

/-- The modules with an alias that matches, once for each such alias. -/
def Known.matching (k : Known μ) (fnmatch : CStr → CStr → Bool) (name : CStr) : List CStr :=
  k.d.modules.flatMap (fun mod =>
    (((k.aliases mod).filterMap aliasNormalize).filter (fun key => keyMatches fnmatch key name)).map
      (fun _ => k.d.modname mod))

/-- The module that owns the symbol. -/
def Known.owners (k : Known μ) (name : CStr) : List CStr :=
  (k.symbols.filter (fun sym => cstr "symbol:" ++ sym.key = name)).filterMap (fun sym =>
    sym.value.owner.map k.d.modname)

/-- The names of built-in modules. -/
def Known.builtins (k : Known μ) : List CStr :=
  builtinNames k.junk (ModulesOrder.readLines (k.builtin.length + 1) k.builtin)

/-- There is a built-in module of this name. -/
def Known.HasBuiltin (k : Known μ) (name : CStr) : Prop := ∃ n ∈ k.builtins, n = name

instance (k : Known μ) (name : CStr) : Decidable (k.HasBuiltin name) :=
  inferInstanceAs (Decidable (∃ n ∈ _, _))

/-- There is a module of this name. -/
def Known.HasModule (k : Known μ) (name : CStr) : Prop := ∃ m ∈ k.d.modules, k.d.modname m = name

instance (k : Known μ) (name : CStr) : Decidable (k.HasModule name) :=
  inferInstanceAs (Decidable (∃ m ∈ _, _))

/-- The built-in modules with an alias that matches. -/
def Known.builtinMatching (k : Known μ) (fnmatch : CStr → CStr → Bool) (name : CStr) : List CStr :=
  ((k.modinfo.filterMap BuiltinAlias.entryOf).filter (fun e => keyMatches fnmatch e.1 name)).map
    Prod.snd

/-- The next place is asked if one finds nothing. -/
def orNext (a next : Answer) : Answer :=
  match a with
  | .ok [] => next
  | .ok (key :: keys) => .ok (key :: keys)
  | .error err => if err = -ENOSYS then next else .error err

section Places

variable (k : Known μ) (config : KmodConfig) (fnmatch : CStr → CStr → Bool) (name : CStr)

/-- What is found among the names of modules. -/
def Known.namePlace : Answer := ifKnown name (58 ∉ name ∧ k.HasModule name)

/-- What is found among the names of built-in modules. -/
def Known.builtinPlace : Answer := ifKnown name (k.HasBuiltin name)

/-- What is found among the aliases of built-in modules. -/
def Known.builtinAliasPlace : Answer :=
  (k.builtinMatching fnmatch name).mapM (kmodModuleNewFromAlias name)

/-- What all the places find. -/
def Known.places : List Answer :=
  [kmodLookupAliasFromConfig fnmatch config name, k.namePlace name,
    if (cstr "symbol:").isPrefixOf name then (k.owners name).mapM (kmodModuleNewFromAlias name)
    else .ok [],
    ifKnown name (HasCommand config name),
    (k.matching fnmatch name).mapM (kmodModuleNewFromAlias name),
    k.builtinPlace name, k.builtinAliasPlace fnmatch name]

/-- What the places for a name find. -/
def Known.namePlaces : List Answer :=
  [k.namePlace name, k.builtinPlace name, k.builtinAliasPlace fnmatch name]

/-- What a lookup should find. -/
def Known.answer : LookupCall → Option Answer
  | .newFromLookup givenAlias =>
    match aliasNormalize givenAlias with
    | none => some (.error (-EINVAL))
    | some name => some ((k.places config fnmatch name).foldr orNext (.ok []))
  | .newFromNameLookup modname =>
    some (firstOf ((k.namePlaces fnmatch (modnameNormalize modname)).foldr orNext (.ok [])))
  | _ => none

end Places

/-! ## What is written -/

/-- depmod's tables are as its passes leave them, and no name has a character that an index
refuses. -/
structure Sound [DecidableEq μ] (k : Known μ) : Prop where
  wellFormed : k.d.WellFormed
  names : ∀ m ∈ k.d.modules, Clean (k.d.modname m)
  paths : ∀ m ∈ k.d.modules, Clean (modGetCompressedPath k.d m)
  aliases : ∀ m ∈ k.d.modules, ∀ value ∈ k.aliases m, Clean value
  symbols : ∀ sym ∈ k.symbols, Clean sym.key ∧ ∀ c ∈ sym.key, isWild c = false
  owners : ∀ sym ∈ k.symbols, ∀ owner, sym.value.owner = some owner → owner ∈ k.d.modules
  /-- `depmod_symbol_add` enters a symbol once. -/
  distinct : (k.symbols.map HashEntry.key).Nodup
  builtin : Clean k.builtin
  junk : Clean k.junk
  modinfo : ∀ r ∈ k.modinfo, Clean r
  intact : BuiltinAlias.Intact k.modinfo

/-- The indexes of depmod. -/
structure Written [DecidableEq μ] (k : Known μ) (fuel : Nat) (file : KmodIndex → List UInt8) :
    Prop where
  dep : outputDepsBin k.d fuel = .ok (file .modulesDep)
  aliases : outputAliasesBin k.d k.aliases = .ok (file .modulesAlias)
  symbols : outputSymbolsBin k.d k.symbols = .ok (file .modulesSymbol)
  builtin : outputBuiltinBin k.junk (some k.builtin) = .ok (file .modulesBuiltin)
  builtinAlias : ∃ bound, ∀ fuel ≥ bound, BuiltinAlias.outputBuiltinAliasBin fuel false
    (some (BuiltinAlias.content k.modinfo)) true false = .ok (0, some (file .modulesBuiltinAlias))

/-! ## The entries -/

section Entries

variable {k : Known μ}

/-- What is inserted for aliases of built-in modules. -/
theorem expectedLog_entries (records : List CStr) :
    (BuiltinAlias.expectedLog records).map BuiltinAlias.Inserted.entry
      = (records.filterMap BuiltinAlias.entryOf).map (fun e => ⟨e.1, e.2, 0⟩) := by
  induction records with
  | nil => rfl
  | cons r rs ih =>
    rw [BuiltinAlias.expectedLog, List.map_append, ih, List.filterMap_cons]
    cases BuiltinAlias.entryOf r with
    | none => rfl
    | some e => rfl

theorem clean_builtinNames (lines : List CStr) (hlines : ∀ line ∈ lines, Clean line) :
    ∀ modname, Clean modname → ∀ name ∈ builtinNames modname lines, Clean name := by
  induction lines with
  | nil => exact fun _ _ _ h => absurd h List.not_mem_nil
  | cons buf lines ih =>
    intro modname hmodname name hname
    have hih := ih (fun line h => hlines line (List.mem_cons_of_mem _ h))
    unfold builtinNames at hname
    dsimp only at hname
    split at hname
    · exact hih modname hmodname name hname
    · have hnext : Clean ((pathToModname (buf.takeWhile (· ≠ 0))).getD modname) := by
        cases hpath : pathToModname (buf.takeWhile (· ≠ 0)) with
        | none => exact hmodname
        | some m =>
          intro c hc
          rcases mem_of_mem_modname hpath hc with rfl | hmem
          · decide
          · exact hlines buf (List.mem_cons_self ..) c (List.takeWhile_subset _ hmem)
      rcases List.mem_cons.mp hname with rfl | hrest
      · exact hnext
      · exact hih _ hnext name hrest

/-- A line of a file is part of it. -/
theorem mem_of_mem_readLines {fuel : Nat} {rest line : CStr} (hlen : rest.length ≤ fuel)
    (hline : line ∈ ModulesOrder.readLines fuel rest) {c : UInt8} (hc : c ∈ line) : c ∈ rest := by
  rw [← (readLines_flatten fuel rest hlen).1]
  exact List.mem_flatten_of_mem hline hc

variable [DecidableEq μ]

/-- The entries of `modules.dep.bin` are under the names of the modules. -/
theorem Sound.depEntries (hk : Sound k) {fuel : Nat} (hfuel : k.d.modules.length < fuel) :
    ∃ line : μ → CStr, (∀ m ∈ k.d.modules, Clean (line m)) ∧
      k.d.modules.mapM (outputDepsEntry k.d fuel)
        = .ok (k.d.modules.map (fun m => ⟨k.d.modname m, line m, UInt32.ofNat (k.d.idx m)⟩)) := by
  have hdeps : ∀ m, ∃ deps, m ∈ k.d.modules →
      modGetAllSortedDependencies k.d fuel m = .ok deps ∧ ∀ x ∈ deps, x ∈ k.d.modules := by
    intro m
    by_cases hm : m ∈ k.d.modules
    · obtain ⟨deps, hget, hsorted⟩ :=
        modGetAllSortedDependencies_sorted hk.wellFormed.deps_mem hfuel hm
      exact ⟨deps, fun _ => ⟨hget, fun x hx =>
        hk.wellFormed.mem_of_reach hm ((hsorted.mem x).mp hx).to_reflTransGen⟩⟩
    · exact ⟨[], fun h => absurd h hm⟩
  choose deps hget using hdeps
  refine ⟨fun m => modGetCompressedPath k.d m ++ cstr ":" ++ spacedPaths k.d (deps m),
    fun m hm => ?_, mapM_ok (fun m hm => ?_)⟩
  · intro c hc
    rcases List.mem_append.mp hc with hc | hc
    · rcases List.mem_append.mp hc with hc | hc
      · exact hk.paths m hm c hc
      · obtain rfl := List.mem_singleton.mp hc
        decide
    · obtain ⟨x, hx, hc⟩ := List.mem_flatMap.mp hc
      rcases List.mem_append.mp hc with hc | hc
      · obtain rfl := List.mem_singleton.mp hc
        decide
      · exact hk.paths x ((hget m hm).2 x hx) c hc
  · rw [outputDepsEntry, (hget m hm).1]
    rfl

/-- The entries of the five indexes. -/
def Known.installed (k : Known μ) (line : μ → CStr) : Installed
  | .modulesDep =>
    some (k.d.modules.map (fun m => ⟨k.d.modname m, line m, UInt32.ofNat (k.d.idx m)⟩))
  | .modulesAlias => some (insertedAliases k.d k.aliases)
  | .modulesSymbol => some (k.symbols.filterMap (symbolEntry k.d))
  | .modulesBuiltin => some (k.builtins.map (fun name => ⟨name, [], 0⟩))
  | .modulesBuiltinAlias =>
    some ((k.modinfo.filterMap BuiltinAlias.entryOf).map (fun e => ⟨e.1, e.2, 0⟩))

theorem Sound.clean_builtins (hk : Sound k) : ∀ name ∈ k.builtins, Clean name :=
  clean_builtinNames _ (fun _ hline c hc =>
    hk.builtin c (mem_of_mem_readLines (Nat.le_succ _) hline hc)) _ hk.junk

/-- Whatever is inserted is clean. -/
theorem Sound.clean (hk : Sound k) {line : μ → CStr} (hline : ∀ m ∈ k.d.modules, Clean (line m))
    (type : KmodIndex) : ∀ e ∈ (k.installed line type).getD [], e.Clean := by
  cases type with
  | modulesDep =>
    intro e he
    obtain ⟨m, hm, rfl⟩ := List.mem_map.mp he
    exact ⟨hk.names m hm, hline m hm⟩
  | modulesAlias =>
    intro e he
    obtain ⟨mod, hmod, value, hvalue, hkey, hname, -⟩ := mem_insertedAliases.mp he
    refine ⟨fun c hc => ?_, by rw [hname]; exact hk.names mod hmod⟩
    rcases mem_of_mem_aliasNormalizeLoop _ hkey c hc with rfl | hmem
    · decide
    · exact hk.aliases mod hmod value hvalue c hmem
  | modulesSymbol =>
    intro e he
    obtain ⟨sym, hsym, hentry⟩ := List.mem_filterMap.mp he
    obtain ⟨owner, ho, rfl⟩ := Option.map_eq_some_iff.mp hentry
    refine ⟨fun c hc => ?_, hk.names owner (hk.owners sym hsym owner ho)⟩
    rcases List.mem_append.mp hc with hc | hc
    · exact (show Clean (cstr "symbol:") by decide) c hc
    · exact (hk.symbols sym hsym).1 c hc
  | modulesBuiltin =>
    intro e he
    obtain ⟨name, hname, rfl⟩ := List.mem_map.mp he
    exact ⟨hk.clean_builtins name hname, fun _ h => absurd h List.not_mem_nil⟩
  | modulesBuiltinAlias =>
    intro e he
    replace he : e ∈ (k.modinfo.filterMap BuiltinAlias.entryOf).map (fun e => ⟨e.1, e.2, 0⟩) := he
    rw [← expectedLog_entries] at he
    exact BuiltinAlias.clean_expectedLog k.modinfo hk.modinfo e he

theorem write_ok {es : List Entry} {root : IndexNode}
    (h : insertEntries indexCreate es = .ok root) :
    (do
      let idx ← insertEntries indexCreate es
      .ok (indexWrite idx) : Except Fault (List UInt8)) = .ok (indexWrite root) := by
  rw [h]
  rfl

/-- `output_builtin_alias_bin` inserts the entries of the records. -/
theorem Sound.outputBuiltinAliasBin_eq (hk : Sound k) : ∃ bound, ∀ fuel ≥ bound,
    BuiltinAlias.outputBuiltinAliasBin fuel false (some (BuiltinAlias.content k.modinfo)) true false
      = (do
        let idx ← insertEntries indexCreate
          ((k.modinfo.filterMap BuiltinAlias.entryOf).map (fun e => ⟨e.1, e.2, 0⟩))
        .ok (0, some (indexWrite idx))) := by
  obtain ⟨bound, hlog⟩ := BuiltinAlias.aliasLoop_content k.modinfo
    (fun r hr h0 => (hk.modinfo r hr 0 h0).1 rfl)
  rw [(BuiltinAlias.readLog_eq_iff k.modinfo).2 hk.intact] at hlog
  refine ⟨bound, fun fuel hfuel => ?_⟩
  unfold BuiltinAlias.outputBuiltinAliasBin
  rw [if_neg Bool.false_ne_true]
  dsimp only
  rw [Bool.not_true, if_neg Bool.false_ne_true, hlog fuel hfuel, ok_bind, expectedLog_entries]
  rfl

/-- **The five indexes are written**, each from its entries. -/
theorem Sound.written (hk : Sound k) {fuel : Nat} (hfuel : k.d.modules.length < fuel) :
    ∃ (line : μ → CStr) (root : KmodIndex → IndexNode),
      (∀ m ∈ k.d.modules, Clean (line m)) ∧
      (∀ type, insertEntries indexCreate ((k.installed line type).getD []) = .ok (root type)) ∧
      Written k fuel (fun type => indexWrite (root type)) := by
  obtain ⟨line, hline, hentries⟩ := hk.depEntries hfuel
  have hroot : ∀ type, ∃ root,
      insertEntries indexCreate ((k.installed line type).getD []) = .ok root := fun type =>
    let ⟨root, hrun, _⟩ := insertEntries_contains (hk.clean hline type)
    ⟨root, hrun⟩
  choose root hrun using hroot
  obtain ⟨bound, halias⟩ := hk.outputBuiltinAliasBin_eq
  refine ⟨line, root, hline, hrun, ?_, ?_, ?_, ?_, ?_⟩
  · rw [outputDepsBin, hentries, ok_bind]
    exact write_ok (hrun .modulesDep)
  · exact write_ok (hrun .modulesAlias)
  · exact write_ok (hrun .modulesSymbol)
  · rw [outputBuiltinBin, builtinLoop_eq _ _ _ (Nat.lt_succ_self _), ok_bind]
    exact write_ok (hrun .modulesBuiltin)
  · refine ⟨bound, fun fuel hfuel => ?_⟩
    rw [halias fuel hfuel]
    exact (congrArg (· >>= _) (hrun .modulesBuiltinAlias)).trans rfl

end Entries

/-! ## The places -/

theorem ifKnown_congr {name : CStr} {p q : Prop} [Decidable p] [Decidable q] (h : p ↔ q) :
    ifKnown name p = ifKnown name q := by
  unfold ifKnown
  by_cases hp : p
  · rw [if_pos hp, if_pos (h.mp hp)]
  · rw [if_neg hp, if_neg (fun hq => hp (h.mpr hq))]

/-- What the places find, one after the other. -/
theorem resolves_orNext {Ps : List (Answer → Prop)} {as : List Answer}
    (h : List.Forall₂ (fun P a => P a) Ps as) : Resolves Ps (as.foldr orNext (.ok [])) := by
  induction h with
  | nil => exact .nothing
  | @cons P a Ps as ha _ ih =>
    rw [List.foldr_cons]
    cases a with
    | error err =>
      by_cases hsys : err = -ENOSYS
      · rw [show ∀ next, orNext (.error err) next = next from fun _ => if_pos hsys]
        exact .next ha (.inr (congrArg Except.error hsys)) ih
      · rw [show ∀ next, orNext (.error err) next = .error err from fun _ => if_neg hsys]
        exact .failed ha hsys
    | ok keys =>
      cases keys with
      | nil => exact .next ha (.inl rfl) ih
      | cons key keys => exact .found ha

section Places

variable {k : Known μ} {line : μ → CStr} {fnmatch : CStr → CStr → Bool} {name : CStr}

/-- The values of ordered entries that match are what an index answers. -/
theorem fromIndex_ordered {inst : Installed} {type : KmodIndex} {es : List Entry}
    (hinst : inst type = some es) (h : es.Pairwise (fun a b => a.priority ≤ b.priority)) :
    FromIndex fnmatch inst type name
      (((es.filter (fun e => keyMatches fnmatch e.key name)).map Entry.value).mapM
        (kmodModuleNewFromAlias name)) := by
  unfold FromIndex
  rw [hinst]
  refine ⟨_, .of_ordered h, ?_⟩
  rw [List.mapM_map, List.mapM_map]
  rfl

theorem pairwise_unranked {α : Type} (l : List α) (f : α → Entry) (hf : ∀ a, (f a).priority = 0) :
    (l.map f).Pairwise (fun a b => a.priority ≤ b.priority) := by
  refine List.pairwise_map.mpr (List.pairwise_of_forall (fun {a b} => ?_))
  rw [hf, hf]
  exact UInt32.le_refl _

theorem matching_eq (k : Known μ) (fnmatch : CStr → CStr → Bool) (name : CStr) :
    ((insertedAliases k.d k.aliases).filter (fun e => keyMatches fnmatch e.key name)).map
      Entry.value = k.matching fnmatch name := by
  unfold insertedAliases Known.matching
  rw [List.filter_flatMap, List.map_flatMap]
  refine List.flatMap_congr (fun mod _ => ?_)
  induction k.aliases mod with
  | nil => rfl
  | cons value values ih =>
    rw [List.filterMap_cons, List.filterMap_cons, aliasEntry]
    cases aliasNormalize value with
    | none => exact ih
    | some key =>
      show ((_ :: _ : List Entry).filter _).map _ = ((key :: _).filter _).map _
      rw [List.filter_cons, List.filter_cons]
      split
      · rw [List.map_cons, List.map_cons, ih]
      · exact ih

/-- A key without wildcards only matches itself. -/
theorem keyMatches_plain (fnmatch : CStr → CStr → Bool) {key : CStr}
    (h : ∀ c ∈ key, isWild c = false) (query : CStr) :
    keyMatches fnmatch key query = decide (key = query) := by
  have hlit : key.takeWhile (fun c => !isWild c) = key :=
    List.takeWhile_eq_self_iff.mpr (fun c hc => by rw [h c hc]; rfl)
  have hwild : key.dropWhile (fun c => !isWild c) = [] :=
    List.dropWhile_eq_nil_iff.mpr (fun c hc => by rw [h c hc]; rfl)
  unfold keyMatches
  rw [hlit, hwild, if_pos rfl]

theorem nameStage_place (k : Known μ) (line : μ → CStr) (name : CStr) :
    nameStage (k.installed line) name (k.namePlace name) := by
  refine ifKnown_congr (and_congr_right (fun _ => ?_))
  unfold HasKey Known.HasModule
  constructor
  · rintro ⟨m, hm, hname⟩
    exact ⟨_, List.mem_map.mpr ⟨m, hm, rfl⟩, hname⟩
  · rintro ⟨e, he, hkey⟩
    obtain ⟨m, hm, rfl⟩ := List.mem_map.mp he
    exact ⟨m, hm, hkey⟩

theorem hasKey_builtin (k : Known μ) (line : μ → CStr) (name : CStr) :
    HasKey (k.installed line) .modulesBuiltin name ↔ k.HasBuiltin name := by
  unfold HasKey Known.HasBuiltin
  constructor
  · rintro ⟨e, he, hkey⟩
    obtain ⟨n, hn, rfl⟩ := List.mem_map.mp he
    exact ⟨n, hn, hkey⟩
  · rintro ⟨n, hn, hname⟩
    exact ⟨_, List.mem_map.mpr ⟨n, hn, rfl⟩, hname⟩

theorem builtinAlias_place (k : Known μ) (line : μ → CStr) (fnmatch : CStr → CStr → Bool)
    (name : CStr) :
    FromIndex fnmatch (k.installed line) .modulesBuiltinAlias name
      (k.builtinAliasPlace fnmatch name) := by
  have hvalues : k.builtinMatching fnmatch name
      = (((k.modinfo.filterMap BuiltinAlias.entryOf).map
        (fun e => (⟨e.1, e.2, 0⟩ : Entry))).filter
          (fun e => keyMatches fnmatch e.key name)).map Entry.value := by
    rw [List.filter_map, List.map_map]
    rfl
  unfold Known.builtinAliasPlace
  rw [hvalues]
  exact fromIndex_ordered rfl (pairwise_unranked _ _ (fun _ => rfl))

theorem nameStages_places (k : Known μ) (line : μ → CStr) (fnmatch : CStr → CStr → Bool)
    (name : CStr) :
    List.Forall₂ (fun P a => P a) (nameStages fnmatch (k.installed line) name)
      (k.namePlaces fnmatch name) :=
  .cons (nameStage_place k line name)
    (.cons (ifKnown_congr (hasKey_builtin k line name).symm)
      (.cons (builtinAlias_place k line fnmatch name) .nil))

variable [DecidableEq μ] (hk : Sound k)
include hk

theorem Sound.symbolKey {sym : HashEntry (Symbol μ)} (hsym : sym ∈ k.symbols) :
    ∀ c ∈ cstr "symbol:" ++ sym.key, isWild c = false := by
  intro c hc
  rcases List.mem_append.mp hc with hc | hc
  · exact (show ∀ c ∈ cstr "symbol:", isWild c = false by decide) c hc
  · exact (hk.symbols sym hsym).2 c hc

/-- Of the symbols, at most one has the name. -/
theorem Sound.symbolsNamed (name : CStr) :
    (k.symbols.filter (fun sym => cstr "symbol:" ++ sym.key = name)).Pairwise
      (fun _ _ => False) := by
  have hall := List.pairwise_map.mp hk.distinct
  refine (hall.filter _).imp_of_mem (fun {a b} ha hb hne => hne ?_)
  have hka := of_decide_eq_true (List.mem_filter.mp ha).2
  have hkb := of_decide_eq_true (List.mem_filter.mp hb).2
  exact List.append_cancel_left (hka.trans hkb.symm)

/-- The symbols' index answers with the owner. -/
theorem Sound.fromSymbols {inst : Installed}
    (hinst : inst .modulesSymbol = some (k.symbols.filterMap (symbolEntry k.d))) :
    FromIndex fnmatch inst .modulesSymbol name
      ((k.owners name).mapM (kmodModuleNewFromAlias name)) := by
  have hfilter : (k.symbols.filterMap (symbolEntry k.d)).filter
      (fun e => keyMatches fnmatch e.key name)
      = (k.symbols.filter (fun sym => cstr "symbol:" ++ sym.key = name)).filterMap
        (symbolEntry k.d) := by
    rw [List.filter_filterMap, List.filterMap_filter]
    refine List.filterMap_congr (fun sym hsym => ?_)
    rw [← keyMatches_plain fnmatch (hk.symbolKey hsym) name]
    unfold symbolEntry
    cases sym.value.owner with
    | none => rw [Option.map_none, Option.filter_none, ite_self]
    | some owner => rfl
  have hvalues : ((k.symbols.filter (fun sym => cstr "symbol:" ++ sym.key = name)).filterMap
      (symbolEntry k.d)).map Entry.value = k.owners name := by
    unfold Known.owners
    rw [List.map_filterMap]
    refine List.filterMap_congr (fun sym _ => ?_)
    unfold symbolEntry
    cases sym.value.owner with
    | none => rfl
    | some owner => rfl
  unfold FromIndex
  rw [hinst]
  refine ⟨((k.symbols.filter (fun sym => cstr "symbol:" ++ sym.key = name)).filterMap
    (symbolEntry k.d)).map (fun e => ⟨e.priority, e.value⟩), ⟨?_, ?_⟩, ?_⟩
  · rw [hfilter]
  · refine List.pairwise_map.mpr (List.Pairwise.filterMap _ ?_ (hk.symbolsNamed name))
    exact fun _ _ h => absurd h id
  · rw [← hvalues, List.mapM_map, List.mapM_map]
    rfl

/-- **Every place knows what depmod knows.** -/
theorem Sound.stages_places (line : μ → CStr) (config : KmodConfig)
    (fnmatch : CStr → CStr → Bool) (name : CStr) :
    List.Forall₂ (fun P a => P a) (stages config fnmatch (k.installed line) name)
      (k.places config fnmatch name) := by
  refine .cons rfl (.cons (nameStage_place k line name) (.cons ?_ (.cons rfl (.cons ?_
    (.cons (ifKnown_congr (hasKey_builtin k line name).symm)
      (.cons (builtinAlias_place k line fnmatch name) .nil))))))
  · unfold symbolStage
    split
    · exact hk.fromSymbols rfl
    · rfl
  · rw [← matching_eq]
    exact fromIndex_ordered rfl (insertedAliases_ordered hk.wellFormed k.aliases)

/-- Of the built-in modules, all that match have one name. -/
def OneBuiltin (k : Known μ) (fnmatch : CStr → CStr → Bool) (name : CStr) : Prop :=
  ∀ m ∈ k.builtinMatching fnmatch name, ∀ m' ∈ k.builtinMatching fnmatch name, m = m'

/-- The entries leave no choice of an order. -/
theorem Sound.ranked (line : μ → CStr) (hone : OneBuiltin k fnmatch name) (type : KmodIndex) :
    Ranked fnmatch ((k.installed line type).getD []) name := by
  cases type with
  | modulesDep =>
    intro e he e' he' _ _ hprio
    obtain ⟨m, hm, rfl⟩ := List.mem_map.mp he
    obtain ⟨m', hm', rfl⟩ := List.mem_map.mp he'
    rw [hk.wellFormed.priority_inj hm hm' hprio]
  | modulesAlias => exact insertedAliases_ranked hk.wellFormed k.aliases fnmatch name
  | modulesSymbol => exact symbolEntries_ranked hk.wellFormed hk.owners fnmatch name
  | modulesBuiltin =>
    intro e he e' he' _ _ _
    obtain ⟨n, _, rfl⟩ := List.mem_map.mp he
    obtain ⟨n', _, rfl⟩ := List.mem_map.mp he'
    rfl
  | modulesBuiltinAlias =>
    intro e he e' he' hmatch hmatch' _
    obtain ⟨a, ha, rfl⟩ := List.mem_map.mp he
    obtain ⟨a', ha', rfl⟩ := List.mem_map.mp he'
    exact hone _ (List.mem_map.mpr ⟨a, List.mem_filter.mpr ⟨ha, hmatch⟩, rfl⟩) _
      (List.mem_map.mpr ⟨a', List.mem_filter.mpr ⟨ha', hmatch'⟩, rfl⟩)

end Places

/-! ## Together -/

/-- The files are small enough, and the context reads them. -/
structure Reads (ctx : LookupCtx) (file : KmodIndex → List UInt8) : Prop where
  small : ∀ type, (file type).length < 2 ^ 28
  file : ∀ type, ctx.kctx.file type = .ok (file type)
  opened : Opened ctx.kctx

/--
**What depmod knows is what is found.** The tables are `Sound`: they are as depmod's passes leave
them, no name in them has a character that an index refuses, and the records of built-in modules
are `Intact`, so that all their aliases are read. Then depmod writes the five indexes. In every run
of lookups, loadings and unloadings by a context that reads them, every lookup of a name without
wildcards finds what depmod's tables and the configuration say, in the order they say, whatever
was asked and mapped before, if no two built-in modules share an alias that matches. Before and
after the run, the built-in modules are known as such.
-/
theorem depmod_finds [DecidableEq μ] {k : Known μ} (hk : Sound k) {fuel : Nat}
    (hfuel : k.d.modules.length < fuel) :
    ∃ file, Written k fuel file ∧
      ∀ (ctx : LookupCtx) (mods : Mods) (calls : List LookupCall), Reads ctx file →
        Sane mods.pool →
        (∀ call ∈ calls, ∀ name, call.asked = some name →
          (∀ c ∈ name, isWild c = false) ∧ OneBuiltin k ctx.fnmatch name) →
        ∃ ctx' mods' bound, Reads ctx' file ∧ Sane mods'.pool ∧
          (∀ fuel' ≥ bound, runCalls fuel' calls ctx mods
            = .ok (calls.filterMap (k.answer ctx.config ctx.fnmatch), ctx', mods')) ∧
          ∀ name, kmodLookupAliasIsBuiltin ctx' name = .ok (decide (k.HasBuiltin name)) := by
  obtain ⟨line, root, hline, hrun, hwritten⟩ := hk.written hfuel
  refine ⟨_, hwritten, fun ctx mods calls hreads hsane hasked => ?_⟩
  have hserves : ∀ {ctx : LookupCtx}, Reads ctx (fun type => indexWrite (root type)) →
      ∀ type, Serves ctx.kctx type (k.installed line type) := by
    intro ctx hreads type
    have hsome : k.installed line type = some ((k.installed line type).getD []) := by
      cases type with
      | modulesDep => rfl
      | modulesAlias => rfl
      | modulesSymbol => rfl
      | modulesBuiltin => rfl
      | modulesBuiltinAlias => rfl
    rw [hsome]
    exact serves_of_written (hk.clean hline type) (hrun type) (hreads.small type)
      (hreads.file type) hreads.opened
  obtain ⟨resolve, hresolve, hruns⟩ :=
    runCalls_resolves ctx.config ctx.fnmatch (k.installed line)
  have hclear : ∀ call ∈ calls, Unambiguous ctx.fnmatch (k.installed line) call :=
    fun call hcall name hnorm =>
      let ⟨hname, hone⟩ := hasked call hcall name hnorm
      ⟨hname, hk.ranked line hone⟩
  obtain ⟨ctx', mods', bound, hopened', hfile', hsane', hanswers⟩ := hruns calls ctx mods rfl rfl
    (hserves hreads) hreads.opened hsane hclear
  have hreads' : Reads ctx' (fun type => indexWrite (root type)) :=
    ⟨hreads.small, fun type => by rw [hfile']; exact hreads.file type, hopened'⟩
  refine ⟨ctx', mods', bound, hreads', hsane', fun fuel' hfuel' => ?_, fun name => ?_⟩
  · rw [hanswers fuel' hfuel']
    refine congrArg (fun answers => Except.ok (answers, ctx', mods')) ?_
    -- each answer is the one depmod's tables give
    refine List.filterMap_congr (fun call hcall => ?_)
    refine (hresolve call).unique (hclear call hcall) ?_
    cases call with
    | newFromLookup givenAlias =>
      cases hnorm : aliasNormalize givenAlias with
      | none => exact .inl ⟨hnorm, by simp only [Known.answer, hnorm]⟩
      | some name =>
        exact .inr ⟨name, _, hnorm, resolves_orNext (hk.stages_places ..),
          by simp only [Known.answer, hnorm]⟩
    | newFromNameLookup modname =>
      exact ⟨_, resolves_orNext (nameStages_places ..), rfl⟩
    | loadResources => rfl
    | unloadResources => rfl
  · obtain ⟨res, hlookup, hkey⟩ := lookupFile_hasKey (hserves hreads') .modulesBuiltin name
    rw [kmodLookupAliasIsBuiltin, lookupBuiltinFile, hlookup]
    refine congrArg Except.ok (Bool.eq_iff_iff.mpr ?_)
    rw [decide_eq_true_iff, ← hasKey_builtin k line name]
    exact hkey

/-! ## An example -/

/-- Two modules with aliases and a symbol, and a built-in one. -/
def pairKnown : Known (Fin 2) where
  d := pairTable ![cstr "/m/a.ko", cstr "/m/b.ko"] ![some (cstr "a.ko"), some (cstr "b.ko")]
  aliases := ![[cstr "pci:v*d*"], [cstr "usb:v1", cstr "pci:v*"]]
  symbols := [⟨cstr "foo", ⟨some 1, 0⟩⟩, ⟨cstr "printk", ⟨none, 0⟩⟩]
  builtin := cstr "kernel/c-d.ko\n"
  modinfo := [cstr "c_d.alias=fs-c"]
  junk := []

theorem pairKnown_sound : Sound pairKnown where
  wellFormed := pair_wellFormed
  names := by decide
  paths := by decide
  aliases := by decide
  symbols := by decide
  owners := by decide
  distinct := by decide
  builtin := by decide
  junk := by decide
  modinfo := by decide
  intact := BuiltinAlias.intact_of_plain _ (fun r hr => by
    rw [List.mem_singleton.1 hr]
    exact ⟨cstr "c_d", cstr "alias", cstr "fs-c", by decide⟩)

/-- The length of what is written. -/
def lengthOf (written : Except Fault (List UInt8)) : Nat :=
  match written with
  | .ok file => file.length
  | .error _ => 0

theorem pairKnown_small {file : KmodIndex → List UInt8} (h : Written pairKnown 3 file)
    (type : KmodIndex) : (file type).length < 2 ^ 28 := by
  have hlen : ∀ {written : Except Fault (List UInt8)}, written = .ok (file type) →
      lengthOf written < 2 ^ 28 → (file type).length < 2 ^ 28 := by
    rintro _ rfl hlt
    exact hlt
  cases type with
  | modulesDep => exact hlen h.dep (by decide)
  | modulesAlias => exact hlen h.aliases (by decide)
  | modulesSymbol => exact hlen h.symbols (by decide)
  | modulesBuiltin => exact hlen h.builtin (by decide)
  | modulesBuiltinAlias =>
    obtain ⟨bound, hfile⟩ := h.builtinAlias
    obtain ⟨bound', hentries⟩ := pairKnown_sound.outputBuiltinAliasBin_eq
    have hsame := (hfile _ (Nat.le_max_left bound bound')).symm.trans
      (hentries _ (Nat.le_max_right bound bound'))
    obtain ⟨root, hrun, -⟩ := insertEntries_contains
      (BuiltinAlias.clean_expectedLog pairKnown.modinfo pairKnown_sound.modinfo)
    rw [expectedLog_entries] at hrun
    rw [hrun] at hsame
    obtain hroot : file .modulesBuiltinAlias = indexWrite root :=
      Option.some.inj (Prod.mk.inj (Except.ok.inj hsame)).2
    exact hlen ((write_ok hrun).trans (congrArg _ hroot.symm)) (by decide)

/-- The indexes are mapped in between; a stream and a mapping find the same. -/
def pairCalls : List LookupCall :=
  [.newFromLookup (cstr "pci:v1d2"), .loadResources, .newFromLookup (cstr "pci:v1d2"),
    .newFromLookup (cstr "symbol:foo"), .newFromLookup (cstr "b"),
    .newFromLookup (cstr "symbol:printk"), .unloadResources, .newFromLookup (cstr "fs-c"),
    .newFromNameLookup (cstr "c-d")]

/-- What the calls find. -/
def pairAnswers : List Answer :=
  [.ok [cstr "a\\pci:v1d2", cstr "b\\pci:v1d2"], .ok [cstr "a\\pci:v1d2", cstr "b\\pci:v1d2"],
    .ok [cstr "b\\symbol:foo"], .ok [cstr "b"], .ok [], .ok [cstr "c_d\\fs_c"], .ok [cstr "c_d"]]

/-- A context without configuration for these files. -/
def pairCtx (file : KmodIndex → List UInt8) : LookupCtx where
  kctx := ⟨littleHost, fun _ => none, fun type => .ok (file type), fun _ _ h => absurd h (by simp)⟩
  mctx := smallCtx
  config := emptyConfig
  fnmatch := Fnmatch.simpleMatch

theorem depmod_finds_pair : ∃ file ctx' mods' bound, Written pairKnown 3 file ∧ ∀ fuel ≥ bound,
    runCalls fuel pairCalls (pairCtx file) ⟨fun _ => none, fun _ => none, fun _ => none⟩
      = .ok (pairAnswers, ctx', mods') ∧
    kmodLookupAliasIsBuiltin ctx' (cstr "c_d") = .ok true := by
  obtain ⟨file, hwritten, hfinds⟩ := depmod_finds pairKnown_sound
    (show (List.finRange 2).length < 3 by decide)
  have hasked : ∀ call ∈ pairCalls, ∀ name ∈ call.asked, (∀ c ∈ name, isWild c = false) ∧
      ∀ m ∈ pairKnown.builtinMatching Fnmatch.simpleMatch name, m = cstr "c_d" := by
    decide +kernel
  obtain ⟨ctx', mods', bound, -, -, hrun, hbuiltin⟩ := hfinds (pairCtx file)
    ⟨fun _ => none, fun _ => none, fun _ => none⟩ pairCalls
    ⟨pairKnown_small hwritten, fun _ => rfl, fun _ _ h => absurd h (by simp [pairCtx])⟩ sane_empty
    (fun call hcall name hname =>
      let ⟨hwild, hone⟩ := hasked call hcall name hname
      ⟨hwild, fun m hm m' hm' => (hone m hm).trans (hone m' hm').symm⟩)
  refine ⟨file, ctx', mods', bound, hwritten, fun fuel hfuel => ⟨?_, ?_⟩⟩
  · have hanswers : pairCalls.filterMap (pairKnown.answer emptyConfig Fnmatch.simpleMatch)
        = pairAnswers := by decide +kernel
    rw [← hanswers]
    exact hrun fuel hfuel
  · rw [hbuiltin, decide_eq_true (show pairKnown.HasBuiltin (cstr "c_d") by decide)]

end Kmod.ModulesFound
