import Kmod.Depmod.Modules
import Kmod.Lib.Lists
import Kmod.Shared.HashMap

/-!
# Dependencies from symbols

depmod enters the symbols that the kernel and the modules export into one table, and then
looks up the symbols that each module needs: the module that owns the symbol becomes a
dependency. A symbol that is entered again replaces the one before it. So a symbol of a
module hides the one of the kernel, and of two modules with a symbol the later one owns it.

The names are not entered as they are: one character, the prefix that all symbols of some
architectures have, is dropped, and in the names that are looked up, a leading dot before it.

The table is a finite map here; that a hash table is one is the subject of
`Kmod.Shared.HashMap`, and `depmodSymbolAdd_refines` and `depmodSymbolFind_refines` say it
for this table.
-/

namespace Kmod.Symbols

variable {μ : Type}

/-! ## The model -/

/-- What the passes use of `struct cfg`. -/
structure Cfg where
  symPrefix : UInt8
  checkSymvers : Bool
  printUnknown : Bool

/-- A `struct symbol`; its name is the key it is found under. -/
structure Symbol (μ : Type) where
  owner : Option μ
  crc : Nat

/-- An entry of `kmod_module_get_symbols`. -/
structure Exported where
  name : CStr
  crc : Nat

/-- An entry of `kmod_module_get_dependency_symbols`. -/
structure Needed where
  name : CStr
  crc : Nat
  isWeak : Bool

/-- What libkmod says about the file of a module; an error is the number returned. -/
structure ModuleFile where
  symbols : Except Int (List Exported)
  info : List (CStr × CStr)
  dependencySymbols : List Needed

/-- The keys of the module information that are kept. -/
inductive InfoKey where
  | alias
  | softdep
  | weakdep
  deriving DecidableEq

/-- What `WRN` is called for. -/
inductive Warning (μ : Type) where
  /-- "needs unknown symbol". -/
  | unknownSymbol (mod : μ) (name : CStr)
  /-- "disagrees about version of symbol". -/
  | versionMismatch (mod : μ) (name : CStr)

/-- What the passes change. -/
structure Tables (μ : Type) where
  /-- `depmod->symbols`. -/
  symbols : StrMap (Symbol μ)
  /-- `mod->deps`. -/
  deps : μ → List μ
  /-- `mod->users`, a 16-bit number. -/
  users : μ → Nat
  /-- `mod->dep_sym_list`. -/
  depSymList : μ → List Needed
  /-- `mod->alias_values`, `mod->softdep_values` and `mod->weakdep_values`. -/
  values : InfoKey → μ → List CStr
  warnings : List (Warning μ)
  /-- How many allocations have been tried. -/
  allocs : Nat

/-- The tables at the start. -/
def Tables.init : Tables μ where
  symbols := ∅
  deps := fun _ => []
  users := fun _ => 0
  depSymList := fun _ => []
  values := fun _ _ => []
  warnings := []
  allocs := 0

/-- `if (name[0] == c) name++`; an empty string has its NUL there. -/
def skipChar (c : UInt8) : CStr → Except Fault CStr
  | [] => if c = 0 then .error .outOfBounds else .ok []
  | a :: name => .ok (if a = c then name else a :: name)

/-- `depmod_symbol_add`; `malloc` says which allocations succeed. -/
def depmodSymbolAdd (cfg : Cfg) (malloc : Nat → Bool) (name : CStr)
    (prefixSkipped : Bool) (crc : Nat)
    (owner : Option μ) (t : Tables μ) : Except Fault (Int × Tables μ) := do
  let name ← (if !prefixSkipped then skipChar cfg.symPrefix name else .ok name)
  if !malloc t.allocs then .ok (-ENOMEM, { t with allocs := t.allocs + 1 })
  -- hash_add may have to grow the bucket
  else if !malloc (t.allocs + 1) then .ok (-ENOMEM, { t with allocs := t.allocs + 2 })
  else .ok (0, { t with symbols := t.symbols.insert name ⟨owner, crc⟩, allocs := t.allocs + 2 })

/-- `depmod_symbol_find`. -/
def depmodSymbolFind (cfg : Cfg) (symbols : StrMap (Symbol μ)) (name : CStr) :
    Except Fault (Option (Symbol μ)) := do
  let name ← skipChar 46 name
  let name ← skipChar cfg.symPrefix name
  .ok (symbols.lookup name)

/-- A symbol of the kernel, as `depmod_load_symvers` and `depmod_load_system_map` add it. -/
structure KernelSymbol where
  name : CStr
  prefixSkipped : Bool
  crc : Nat

/-- Adding the symbols of the kernel; what the calls return is not looked at. -/
def addKernelSymbols (cfg : Cfg) (malloc : Nat → Bool) :
    List KernelSymbol → Tables μ → Except Fault (Tables μ)
  | [], t => .ok t
  | sym :: syms, t => do
    let added ← depmodSymbolAdd cfg malloc sym.name sym.prefixSkipped sym.crc none t
    addKernelSymbols cfg malloc syms added.2

/-- Adding the symbols of a module; what the calls return is not looked at. -/
def addModuleSymbols (cfg : Cfg) (malloc : Nat → Bool) (mod : μ) :
    List Exported → Tables μ → Except Fault (Tables μ)
  | [], t => .ok t
  | sym :: syms, t => do
    let added ← depmodSymbolAdd cfg malloc sym.name false sym.crc (some mod) t
    addModuleSymbols cfg malloc mod syms added.2

/-- The symbols of a module's file; an error is only logged. -/
def addFileSymbols (cfg : Cfg) (malloc : Nat → Bool) (mod : μ) (file : ModuleFile) (t : Tables μ) :
    Except Fault (Tables μ) :=
  match file.symbols with
  | .error _ => .ok t
  | .ok list => addModuleSymbols cfg malloc mod list t

/-- Which array a value of the module information goes to. -/
def infoKey (key : CStr) : Option InfoKey :=
  if key = cstr "alias" then some .alias
  else if key = cstr "softdep" then some .softdep
  else if key = cstr "weakdep" then some .weakdep
  else none

/-- The loop over `mod->info_list`; `false` if `array_append` fails. -/
def loadInfo [DecidableEq μ] (malloc : Nat → Bool) (mod : μ) :
    List (CStr × CStr) → Tables μ → Bool × Tables μ
  | [], t => (true, t)
  | (key, value) :: info, t =>
    match infoKey key with
    | none => loadInfo malloc mod info t
    | some k =>
      if !malloc t.allocs then (false, { t with allocs := t.allocs + 1 })
      else
        let array := Function.update (t.values k) mod (t.values k mod ++ [value])
        loadInfo malloc mod info
          { t with values := Function.update t.values k array, allocs := t.allocs + 1 }

/-- `depmod_load_modules`, for the modules from one on. It gives up if `array_append` fails. -/
def depmodLoadModules [DecidableEq μ] (cfg : Cfg) (malloc : Nat → Bool) (file : μ → ModuleFile) :
    List μ → Tables μ → Except Fault (Tables μ)
  | [], t => .ok t
  | mod :: mods, t => do
    let t ← addFileSymbols cfg malloc mod (file mod) t
    let info := loadInfo malloc mod (file mod).info t
    if !info.1 then .ok info.2
    else
      let t := info.2
      depmodLoadModules cfg malloc file mods
        { t with depSymList := Function.update t.depSymList mod (file mod).dependencySymbols }

/-- `mod_add_dependency`. It returns zero, or the process exits because an array cannot grow. -/
def modAddDependency [DecidableEq μ] (malloc : Nat → Bool) (mod : μ) (sym : Symbol μ)
    (t : Tables μ) :
    Except Fault (Tables μ) :=
  match sym.owner with
  | none => .ok t
  | some owner =>
    -- array_append_unique
    if owner ∈ t.deps mod then .ok t
    else if !malloc t.allocs then .error .exited
    else
      .ok { t with
        deps := Function.update t.deps mod (t.deps mod ++ [owner])
        users := Function.update t.users owner ((t.users owner + 1) % 2 ^ 16)
        allocs := t.allocs + 1 }

/-- The tables after `WRN`, which is called only in some cases. -/
def warn (t : Tables μ) (when : Bool) (w : Warning μ) : Tables μ :=
  if when then { t with warnings := t.warnings ++ [w] } else t

/-- `depmod_load_module_dependencies`, for the rest of the list. -/
def depmodLoadModuleDependencies [DecidableEq μ] (cfg : Cfg) (malloc : Nat → Bool) (mod : μ) :
    List Needed → Tables μ → Except Fault (Tables μ)
  | [], t => .ok t
  | need :: needs, t => do
    let sym ← depmodSymbolFind cfg t.symbols need.name
    match sym with
    | none =>
      let t := warn t (cfg.printUnknown && !need.isWeak) (.unknownSymbol mod need.name)
      depmodLoadModuleDependencies cfg malloc mod needs t
    | some sym =>
      let t := warn t (cfg.checkSymvers && sym.crc != need.crc && !need.isWeak && cfg.printUnknown)
        (.versionMismatch mod need.name)
      let t ← modAddDependency malloc mod sym t
      depmodLoadModuleDependencies cfg malloc mod needs t

/-- `depmod_load_dependencies`, for the modules from one on. -/
def depmodLoadDependencies [DecidableEq μ] (cfg : Cfg) (malloc : Nat → Bool) :
    List μ → Tables μ → Except Fault (Tables μ)
  | [], t => .ok t
  | mod :: mods, t => do
    let t ← depmodLoadModuleDependencies cfg malloc mod (t.depSymList mod) t
    depmodLoadDependencies cfg malloc mods t

/-- The symbols of the kernel, `depmod_load_modules` and `depmod_load_dependencies`. -/
def loadSymbols [DecidableEq μ] (cfg : Cfg) (malloc : Nat → Bool) (kernel : List KernelSymbol)
    (file : μ → ModuleFile) (modules : List μ) : Except Fault (Tables μ) := do
  let t ← addKernelSymbols cfg malloc kernel .init
  let t ← depmodLoadModules cfg malloc file modules t
  depmodLoadDependencies cfg malloc modules t

/-! ## What the passes are for -/

/-- A name without one leading `c`. -/
def strip (c : UInt8) (name : CStr) : CStr := if name.head? = some c then name.tail else name

/-- The key that an exported name is entered under. -/
def kadd (cfg : Cfg) (name : CStr) : CStr := strip cfg.symPrefix name

/-- The key that a needed name is looked up under. -/
def kfind (cfg : Cfg) (name : CStr) : CStr := strip cfg.symPrefix (strip 46 name)

/-- The names that a module exports. -/
def ModuleFile.exportedNames (f : ModuleFile) : List CStr :=
  match f.symbols with
  | .error _ => []
  | .ok list => list.map Exported.name

/-- The names that a module needs. -/
def ModuleFile.neededNames (f : ModuleFile) : List CStr := f.dependencySymbols.map Needed.name

/-- A module exports a name that is entered under the key. -/
def Exports (cfg : Cfg) (file : μ → ModuleFile) (key : CStr) (mod : μ) : Prop :=
  ∃ e ∈ (file mod).exportedNames, kadd cfg e = key

instance (cfg : Cfg) (file : μ → ModuleFile) (key : CStr) : DecidablePred (Exports cfg file key) :=
  fun _ => inferInstanceAs (Decidable (∃ e ∈ _, _))

/-- The owner of a key: the last module that exports it. -/
def ownerOf (cfg : Cfg) (file : μ → ModuleFile) (modules : List μ) (key : CStr) : Option μ :=
  (modules.filter (fun mod => Exports cfg file key mod)).getLast?

/-- The owners of the symbols a module needs, each where it is needed first. -/
def neededOwners [DecidableEq μ] (cfg : Cfg) (file : μ → ModuleFile) (modules : List μ) (mod : μ) :
    List μ :=
  ((file mod).neededNames.filterMap (fun n => ownerOf cfg file modules (kfind cfg n))).eraseDups

/-! ## The table of symbols -/

theorem skipChar_eq {name : CStr} (h : name ≠ []) (c : UInt8) :
    skipChar c name = .ok (strip c name) := by
  cases name with
  | nil => exact absurd rfl h
  | cons a name =>
    rw [skipChar, strip, List.head?_cons]
    by_cases hac : a = c
    · rw [if_pos hac, if_pos (congrArg some hac), List.tail_cons]
    · rw [if_neg hac, if_neg (fun h => hac (Option.some.inj h))]

theorem depmodSymbolFind_eq (cfg : Cfg) (symbols : StrMap (Symbol μ)) {name : CStr} (h : name ≠ [])
    (hdot : name ≠ [46]) :
    depmodSymbolFind cfg symbols name = .ok (symbols.lookup (kfind cfg name)) := by
  have hstrip : strip 46 name ≠ [] := by
    cases name with
    | nil => exact absurd rfl h
    | cons a rest =>
      unfold strip
      split
      · next ha =>
        rintro rfl
        exact hdot (by rw [← Option.some.inj ha])
      · exact List.cons_ne_nil _ _
  rw [depmodSymbolFind, skipChar_eq h, ok_bind, skipChar_eq hstrip]
  rfl

/-- The module that a key leads to. -/
def Tables.owner (t : Tables μ) (key : CStr) : Option μ := (t.symbols.lookup key).bind Symbol.owner

section Memory

variable {malloc : Nat → Bool} (hmem : ∀ n, malloc n = true)

include hmem

/-- With memory, a symbol is entered under its key, and nothing else happens. -/
theorem depmodSymbolAdd_eq (cfg : Cfg) {name : CStr} (hname : name ≠ []) (prefixSkipped : Bool)
    (crc : Nat) (owner : Option μ) (t : Tables μ) :
    depmodSymbolAdd cfg malloc name prefixSkipped crc owner t = .ok (0, { t with
      symbols := t.symbols.insert (if prefixSkipped then name else kadd cfg name) ⟨owner, crc⟩
      allocs := t.allocs + 2 }) := by
  unfold depmodSymbolAdd
  rw [hmem, hmem]
  cases prefixSkipped with
  | true => rfl
  | false =>
    rw [Bool.not_false, if_pos rfl, skipChar_eq hname]
    rfl

omit hmem in
theorem owner_insert (t : Tables μ) (key' key : CStr) (sym : Symbol μ) (allocs : Nat) :
    ({ t with symbols := t.symbols.insert key' sym, allocs := allocs } : Tables μ).owner key
      = if key' = key then sym.owner else t.owner key := by
  unfold Tables.owner
  rw [StrMap.lookup_insert, if_congr eq_comm rfl rfl]
  split <;> rfl

/-- The symbols of the kernel have no owner. -/
theorem addKernelSymbols_spec (cfg : Cfg) (kernel : List KernelSymbol)
    (hnames : ∀ sym ∈ kernel, sym.name ≠ []) (t : Tables μ) :
    ∃ t', addKernelSymbols cfg malloc kernel t = .ok t' ∧ t'.deps = t.deps ∧ t'.users = t.users ∧
      ∀ key, t.owner key = none → t'.owner key = none := by
  induction kernel generalizing t with
  | nil => exact ⟨t, rfl, rfl, rfl, fun _ h => h⟩
  | cons sym kernel ih =>
    rw [addKernelSymbols, depmodSymbolAdd_eq hmem cfg (hnames sym (List.mem_cons_self ..)), ok_bind]
    obtain ⟨t', hrun, hdeps, husers, howner⟩ :=
      ih (fun s hs => hnames s (List.mem_cons_of_mem _ hs)) _
    refine ⟨t', hrun, hdeps, husers, fun key hkey => howner key ?_⟩
    rw [owner_insert, hkey]
    exact ite_self _

/-- The symbols of a module belong to it from then on. -/
theorem addModuleSymbols_spec (cfg : Cfg) (mod : μ) (list : List Exported)
    (hnames : ∀ sym ∈ list, sym.name ≠ []) (t : Tables μ) :
    ∃ t', addModuleSymbols cfg malloc mod list t = .ok t' ∧ t'.deps = t.deps ∧ t'.users = t.users ∧
      t'.depSymList = t.depSymList ∧
      ∀ key, t'.owner key
        = if ∃ e ∈ list.map Exported.name, kadd cfg e = key then some mod else t.owner key := by
  induction list generalizing t with
  | nil => exact ⟨t, rfl, rfl, rfl, rfl, fun key => by simp⟩
  | cons sym list ih =>
    rw [addModuleSymbols, depmodSymbolAdd_eq hmem cfg (hnames sym (List.mem_cons_self ..)), ok_bind]
    obtain ⟨t', hrun, hdeps, husers, hneeds, howner⟩ :=
      ih (fun s hs => hnames s (List.mem_cons_of_mem _ hs)) _
    refine ⟨t', hrun, hdeps, husers, hneeds, fun key => ?_⟩
    have hcons : (∃ e ∈ (sym :: list).map Exported.name, kadd cfg e = key) ↔
        kadd cfg sym.name = key ∨ ∃ e ∈ list.map Exported.name, kadd cfg e = key := by
      rw [List.map_cons, List.exists_mem_cons_iff]
    rw [howner key, owner_insert]
    by_cases hrest : ∃ e ∈ list.map Exported.name, kadd cfg e = key
    · rw [if_pos hrest, if_pos (hcons.2 (.inr hrest))]
    · rw [if_neg hrest]
      by_cases hkey : kadd cfg sym.name = key
      · rw [if_pos (hcons.2 (.inl hkey))]
        exact if_pos hkey
      · rw [if_neg (fun h => (hcons.1 h).elim hkey hrest)]
        exact if_neg hkey

/-- The module information does not touch the symbols and the dependencies. -/
theorem loadInfo_spec [DecidableEq μ] (mod : μ) (info : List (CStr × CStr)) (t : Tables μ) :
    (loadInfo malloc mod info t).1 = true ∧
      (loadInfo malloc mod info t).2.symbols = t.symbols ∧
      (loadInfo malloc mod info t).2.deps = t.deps ∧
      (loadInfo malloc mod info t).2.users = t.users ∧
      (loadInfo malloc mod info t).2.depSymList = t.depSymList := by
  induction info generalizing t with
  | nil => exact ⟨rfl, rfl, rfl, rfl, rfl⟩
  | cons entry info ih =>
    obtain ⟨key, value⟩ := entry
    rw [loadInfo]
    split
    · exact ih t
    · rw [hmem, Bool.not_true, if_neg Bool.false_ne_true]
      exact ih _

theorem addFileSymbols_spec (cfg : Cfg) (file : μ → ModuleFile) (mod : μ)
    (hnames : ∀ e ∈ (file mod).exportedNames, e ≠ []) (t : Tables μ) :
    ∃ t', addFileSymbols cfg malloc mod (file mod) t = .ok t' ∧ t'.deps = t.deps ∧
      t'.users = t.users ∧ t'.depSymList = t.depSymList ∧
      ∀ key, t'.owner key = if Exports cfg file key mod then some mod else t.owner key := by
  cases hsyms : (file mod).symbols with
  | error e =>
    have hnone : (file mod).exportedNames = [] := by
      rw [ModuleFile.exportedNames, hsyms]
    rw [addFileSymbols, hsyms]
    refine ⟨t, rfl, rfl, rfl, rfl, fun key => (if_neg ?_).symm⟩
    rintro ⟨e, he, -⟩
    rw [hnone] at he
    cases he
  | ok list =>
    have hlist : (file mod).exportedNames = list.map Exported.name := by
      rw [ModuleFile.exportedNames, hsyms]
    rw [hlist] at hnames
    obtain ⟨t', hrun, hdeps, husers, hneeds, howner⟩ :=
      addModuleSymbols_spec hmem cfg mod list (fun sym hs => hnames _ (List.mem_map_of_mem hs)) t
    rw [addFileSymbols, hsyms]
    refine ⟨t', hrun, hdeps, husers, hneeds, fun key => ?_⟩
    have hexports : (∃ e ∈ list.map Exported.name, kadd cfg e = key) ↔
        Exports cfg file key mod := by
      rw [Exports, hlist]
    rw [howner key]
    exact if_congr hexports rfl rfl

omit hmem in
/-- One more module: it owns what it exports. -/
theorem ownerOf_concat (cfg : Cfg) (file : μ → ModuleFile) (done : List μ) (mod : μ) (key : CStr) :
    ownerOf cfg file (done ++ [mod]) key
      = if Exports cfg file key mod then some mod else ownerOf cfg file done key := by
  unfold ownerOf
  rw [List.filter_append, List.getLast?_append]
  split
  · next h =>
    rw [List.filter_cons_of_pos (by simpa using h), List.filter_nil]
    rfl
  · next h =>
    rw [List.filter_cons_of_neg (by simpa using h), List.filter_nil]
    rfl

/--
`depmod_load_modules`, when the modules `done` have been loaded: the symbols lead to their
owners, and the modules know what they need.
-/
theorem depmodLoadModules_spec [DecidableEq μ] (cfg : Cfg) (file : μ → ModuleFile) (mods : List μ)
    (hnames : ∀ mod ∈ mods, ∀ e ∈ (file mod).exportedNames, e ≠ []) (done : List μ) (t : Tables μ)
    (howner : ∀ key, t.owner key = ownerOf cfg file done key) :
    ∃ t', depmodLoadModules cfg malloc file mods t = .ok t' ∧ t'.deps = t.deps ∧
      t'.users = t.users ∧
      (∀ key, t'.owner key = ownerOf cfg file (done ++ mods) key) ∧
      (∀ mod ∈ mods, t'.depSymList mod = (file mod).dependencySymbols) ∧
      ∀ mod, mod ∉ mods → t'.depSymList mod = t.depSymList mod := by
  induction mods generalizing done t with
  | nil => exact ⟨t, rfl, rfl, rfl, by simpa using howner, by simp, fun _ _ => rfl⟩
  | cons mod mods ih =>
    have hhead : ∀ e ∈ (file mod).exportedNames, e ≠ [] := hnames mod (List.mem_cons_self ..)
    obtain ⟨t₁, hadd, hdeps₁, husers₁, hneeds₁, howner₁⟩ :=
      addFileSymbols_spec hmem cfg file mod hhead t
    obtain ⟨hgo, hsymbols, hdeps₂, husers₂, hneeds₂⟩ := loadInfo_spec hmem mod (file mod).info t₁
    have howner₂ : ∀ key, (loadInfo malloc mod (file mod).info t₁).2.owner key
        = ownerOf cfg file (done ++ [mod]) key := by
      intro key
      rw [ownerOf_concat, ← howner key, ← howner₁ key]
      unfold Tables.owner
      rw [hsymbols]
    rw [depmodLoadModules, hadd, ok_bind]
    simp only [hgo, Bool.not_true, Bool.false_eq_true, if_false]
    obtain ⟨t', hrun, hdeps, husers, howner', hneeds, hothers⟩ :=
      ih (fun m hm => hnames m (List.mem_cons_of_mem _ hm)) (done ++ [mod])
        { (loadInfo malloc mod (file mod).info t₁).2 with
          depSymList := Function.update (loadInfo malloc mod (file mod).info t₁).2.depSymList mod
            (file mod).dependencySymbols } howner₂
    refine ⟨t', hrun, hdeps.trans (hdeps₂.trans hdeps₁), husers.trans (husers₂.trans husers₁),
      fun key => ?_, fun m hm => ?_, fun m hm => ?_⟩
    · rw [howner' key, List.append_assoc]
      rfl
    · by_cases hmem : m ∈ mods
      · exact hneeds m hmem
      · obtain rfl : m = mod := (List.mem_cons.1 hm).resolve_right hmem
        rw [hothers m hmem]
        exact Function.update_self ..
    · rw [List.mem_cons, not_or] at hm
      rw [hothers m hm.2]
      refine (Function.update_of_ne hm.1 ..).trans ?_
      rw [hneeds₂, hneeds₁]

/-! ## The dependencies -/

omit hmem in
theorem eraseDups_concat [DecidableEq μ] (l : List μ) (a : μ) :
    (l ++ [a]).eraseDups = if a ∈ l then l.eraseDups else l.eraseDups ++ [a] := by
  rw [List.eraseDups_append]
  split
  · next h =>
    have hnil : [a].removeAll l = [] := by simpa [List.removeAll] using h
    rw [hnil, List.eraseDups_nil, List.append_nil]
  · next h =>
    have hone : [a].removeAll l = [a] := by simpa [List.removeAll] using h
    rw [hone]
    rfl

/-- The users of each module are counted. -/
def UsersCounted [DecidableEq μ] (modules : List μ) (t : Tables μ) : Prop :=
  ∀ d, t.users d = (modules.filter (fun m => d ∈ t.deps m)).length

omit hmem in
/-- One more dependency is one more user. -/
theorem length_filter_update [DecidableEq μ] {modules : List μ} (hnodup : modules.Nodup)
    {deps : μ → List μ} {mod : μ} (hmod : mod ∈ modules) {owner : μ}
    (hnew : owner ∉ deps mod) (d : μ) :
    (modules.filter (fun m => d ∈ Function.update deps mod (deps mod ++ [owner]) m)).length
      = (modules.filter (fun m => d ∈ deps m)).length + if d = owner then 1 else 0 := by
  have hold := Lists.countP_ne_add hnodup hmod (fun m => decide (d ∈ deps m))
  have hupd := Lists.countP_ne_add hnodup hmod
    (fun m => decide (d ∈ Function.update deps mod (deps mod ++ [owner]) m))
  -- the other modules are not affected
  have hothers : modules.countP (fun m => decide (m ≠ mod) &&
      decide (d ∈ Function.update deps mod (deps mod ++ [owner]) m))
      = modules.countP (fun m => decide (m ≠ mod) && decide (d ∈ deps m)) := by
    refine List.countP_congr (fun m _ => ?_)
    by_cases hm : m = mod
    · simp [hm]
    · simp [hm]
  rw [hothers, Function.update_self] at hupd
  rw [← List.countP_eq_length_filter, ← List.countP_eq_length_filter]
  by_cases hd : d = owner
  · subst hd
    simp [hnew] at hold hupd ⊢
    omega
  · simp [hd] at hold hupd ⊢
    omega

/-- `mod_add_dependency` adds the owner of the symbol, unless the module has it already. -/
theorem modAddDependency_spec [DecidableEq μ] {modules : List μ} (hnodup : modules.Nodup)
    (hcount : modules.length < UINT16_MAX) {mod : μ} (hmod : mod ∈ modules) (sym : Symbol μ)
    {t : Tables μ} (husers : UsersCounted modules t) {owners : List μ}
    (hdeps : t.deps mod = owners.eraseDups) :
    ∃ t', modAddDependency malloc mod sym t = .ok t' ∧ t'.symbols = t.symbols ∧
      t'.depSymList = t.depSymList ∧ UsersCounted modules t' ∧
      t'.deps mod = (owners ++ sym.owner.toList).eraseDups ∧
      ∀ m, m ≠ mod → t'.deps m = t.deps m := by
  unfold modAddDependency
  cases sym.owner with
  | none => exact ⟨t, rfl, rfl, rfl, husers, by simpa using hdeps, fun _ _ => rfl⟩
  | some owner =>
    have hmem' : owner ∈ t.deps mod ↔ owner ∈ owners := by
      rw [hdeps, List.mem_eraseDups]
    dsimp only
    by_cases hin : owner ∈ t.deps mod
    · rw [if_pos hin]
      refine ⟨t, rfl, rfl, rfl, husers, ?_, fun _ _ => rfl⟩
      rw [Option.toList_some, eraseDups_concat, if_pos (hmem'.1 hin), hdeps]
    · rw [if_neg hin, hmem, Bool.not_true, if_neg Bool.false_ne_true]
      refine ⟨_, rfl, rfl, rfl, fun d => ?_, ?_, fun m hm => Function.update_of_ne hm ..⟩
      · have hlen := length_filter_update hnodup hmod hin d
        have hle := List.length_filter_le
          (fun m => d ∈ Function.update t.deps mod (t.deps mod ++ [owner]) m) modules
        show Function.update t.users owner ((t.users owner + 1) % 2 ^ 16) d
          = (modules.filter (fun m => d ∈ Function.update t.deps mod (t.deps mod ++ [owner]) m)).length
        unfold UINT16_MAX at hcount
        by_cases hd : d = owner
        · subst hd
          rw [if_pos rfl] at hlen
          rw [Function.update_self, husers d]
          -- no more users than modules, so the counter does not wrap around
          omega
        · rw [if_neg hd] at hlen
          rw [Function.update_of_ne hd, husers d, hlen, Nat.add_zero]
      · show Function.update t.deps mod (t.deps mod ++ [owner]) mod = _
        rw [Function.update_self, Option.toList_some, eraseDups_concat,
          if_neg (fun h => hin (hmem'.2 h)), hdeps]

omit hmem in
/-- A warning changes nothing else. -/
theorem warn_fields (t : Tables μ) (when : Bool) (w : Warning μ) :
    (warn t when w).symbols = t.symbols ∧ (warn t when w).deps = t.deps ∧
      (warn t when w).users = t.users ∧ (warn t when w).depSymList = t.depSymList := by
  unfold warn
  split <;> exact ⟨rfl, rfl, rfl, rfl⟩

/-- One symbol that a module needs: its owner is added, if it has one. -/
theorem depmodLoadModuleDependencies_cons [DecidableEq μ] (cfg : Cfg) {modules : List μ}
    (hnodup : modules.Nodup) (hcount : modules.length < UINT16_MAX) {mod : μ} (hmod : mod ∈ modules)
    {need : Needed} (hname : need.name ≠ []) (hdot : need.name ≠ [46]) (needs : List Needed)
    {t : Tables μ} (husers : UsersCounted modules t) {owners : List μ}
    (hdeps : t.deps mod = owners.eraseDups) :
    ∃ t', depmodLoadModuleDependencies cfg malloc mod (need :: needs) t
        = depmodLoadModuleDependencies cfg malloc mod needs t' ∧
      t'.symbols = t.symbols ∧ t'.depSymList = t.depSymList ∧ UsersCounted modules t' ∧
      t'.deps mod = (owners ++ (t.owner (kfind cfg need.name)).toList).eraseDups ∧
      ∀ m, m ≠ mod → t'.deps m = t.deps m := by
  have hwarn : ∀ when w, UsersCounted modules (warn t when w) := by
    intro when w d
    rw [(warn_fields t when w).2.1, (warn_fields t when w).2.2.1]
    exact husers d
  rw [depmodLoadModuleDependencies, depmodSymbolFind_eq cfg t.symbols hname hdot, ok_bind,
    Tables.owner]
  cases t.symbols.lookup (kfind cfg need.name) with
  | none =>
    obtain ⟨hsymbols, hdeps', -, hneeds⟩ :=
      warn_fields t (cfg.printUnknown && !need.isWeak) (.unknownSymbol mod need.name)
    refine ⟨_, rfl, hsymbols, hneeds, hwarn _ _, ?_, fun m _ => congrFun hdeps' m⟩
    rw [hdeps', hdeps]
    exact congrArg List.eraseDups (List.append_nil owners).symm
  | some sym =>
    have hfields := warn_fields t
      (cfg.checkSymvers && sym.crc != need.crc && !need.isWeak && cfg.printUnknown)
      (.versionMismatch mod need.name)
    obtain ⟨hsymbols, hdeps', -, hneeds⟩ := hfields
    obtain ⟨t', hadd, hsymbols', hneeds', husers', hmods, hothers⟩ :=
      modAddDependency_spec hmem hnodup hcount hmod sym (hwarn _ _)
        ((congrFun hdeps' mod).trans hdeps)
    refine ⟨t', ?_, hsymbols'.trans hsymbols, hneeds'.trans hneeds, husers', hmods,
      fun m hm => (hothers m hm).trans (congrFun hdeps' m)⟩
    dsimp only
    rw [hadd, ok_bind]

/-- `depmod_load_module_dependencies` adds the owners of what the module needs. -/
theorem depmodLoadModuleDependencies_spec [DecidableEq μ] (cfg : Cfg) {modules : List μ}
    (hnodup : modules.Nodup) (hcount : modules.length < UINT16_MAX) {mod : μ} (hmod : mod ∈ modules)
    (needs : List Needed) (hnames : ∀ need ∈ needs, need.name ≠ [] ∧ need.name ≠ [46])
    {t : Tables μ} (husers : UsersCounted modules t) {owners : List μ}
    (hdeps : t.deps mod = owners.eraseDups) :
    ∃ t', depmodLoadModuleDependencies cfg malloc mod needs t = .ok t' ∧ t'.symbols = t.symbols ∧
      t'.depSymList = t.depSymList ∧ UsersCounted modules t' ∧
      t'.deps mod = (owners ++ (needs.map Needed.name).filterMap
        (fun n => t.owner (kfind cfg n))).eraseDups ∧
      ∀ m, m ≠ mod → t'.deps m = t.deps m := by
  induction needs generalizing t owners with
  | nil => exact ⟨t, rfl, rfl, rfl, husers, by simpa using hdeps, fun _ _ => rfl⟩
  | cons need needs ih =>
    obtain ⟨hname, hdot⟩ := hnames need (List.mem_cons_self ..)
    obtain ⟨t₁, hstep, hsymbols₁, hneeds₁, husers₁, hdeps₁, hothers₁⟩ :=
      depmodLoadModuleDependencies_cons hmem cfg hnodup hcount hmod hname hdot needs husers hdeps
    obtain ⟨t', hrun, hsymbols, hneeds, husers', hdeps', hothers⟩ :=
      ih (fun n hn => hnames n (List.mem_cons_of_mem need hn)) husers₁ hdeps₁
    have howner : t₁.owner = t.owner := by
      funext key
      rw [Tables.owner, hsymbols₁, Tables.owner]
    refine ⟨t', hstep.trans hrun, hsymbols.trans hsymbols₁, hneeds.trans hneeds₁, husers', ?_,
      fun m hm => (hothers m hm).trans (hothers₁ m hm)⟩
    rw [hdeps', howner, List.append_assoc, List.map_cons]
    congr 2
    cases hown : t.owner (kfind cfg need.name) <;> simp [hown]

/-- `depmod_load_dependencies`, for modules without dependencies yet. -/
theorem depmodLoadDependencies_spec [DecidableEq μ] (cfg : Cfg) {modules : List μ}
    (hnodup : modules.Nodup) (hcount : modules.length < UINT16_MAX) (mods : List μ)
    (hmods : mods.Nodup) (hsub : mods ⊆ modules) {t : Tables μ}
    (hnames : ∀ mod ∈ mods, ∀ need ∈ t.depSymList mod, need.name ≠ [] ∧ need.name ≠ [46])
    (husers : UsersCounted modules t) (hdeps : ∀ mod ∈ mods, t.deps mod = []) :
    ∃ t', depmodLoadDependencies cfg malloc mods t = .ok t' ∧ UsersCounted modules t' ∧
      (∀ mod ∈ mods, t'.deps mod = (((t.depSymList mod).map Needed.name).filterMap
        (fun n => t.owner (kfind cfg n))).eraseDups) ∧
      ∀ mod, mod ∉ mods → t'.deps mod = t.deps mod := by
  induction mods generalizing t with
  | nil => exact ⟨t, rfl, husers, by simp, fun _ _ => rfl⟩
  | cons mod mods ih =>
    obtain ⟨hfresh, hmods'⟩ := List.nodup_cons.1 hmods
    have hstart : t.deps mod = ([] : List μ).eraseDups := hdeps mod (List.mem_cons_self ..)
    obtain ⟨t₁, hone, hsymbols₁, hneeds₁, husers₁, hdeps₁, hothers₁⟩ :=
      depmodLoadModuleDependencies_spec hmem cfg hnodup hcount (hsub (List.mem_cons_self ..))
        (t.depSymList mod) (hnames mod (List.mem_cons_self ..)) husers hstart
    have hne : ∀ m ∈ mods, m ≠ mod := fun m hm h => hfresh (h ▸ hm)
    have howner : t₁.owner = t.owner := by
      funext key
      rw [Tables.owner, hsymbols₁, Tables.owner]
    obtain ⟨t', hrun, husers', hdeps', hothers⟩ := ih hmods'
      (fun m hm => hsub (List.mem_cons_of_mem _ hm)) (t := t₁)
      (fun m hm => by rw [hneeds₁]; exact hnames m (List.mem_cons_of_mem _ hm)) husers₁
      (fun m hm => (hothers₁ m (hne m hm)).trans (hdeps m (List.mem_cons_of_mem _ hm)))
    refine ⟨t', ?_, husers', fun m hm => ?_, fun m hm => ?_⟩
    · rw [depmodLoadDependencies, hone, ok_bind, hrun]
    · rcases List.mem_cons.1 hm with rfl | hm
      · rw [hothers m hfresh, hdeps₁, List.nil_append]
      · rw [hdeps' m hm, hneeds₁, howner]
    · rw [List.mem_cons, not_or] at hm
      rw [hothers m hm.2, hothers₁ m hm.1]

end Memory

/-! ## The passes together -/

/--
**The dependencies of a module are the owners of what it needs.** The names are not empty,
and none that is needed is a lone dot. Then the passes run through, the dependencies of
each module are the owners of the symbols it needs, weak or not and with any checksum, in
the order in which they are needed first; and the users of each module are the modules
that depend on it.
-/
theorem loadSymbols_spec [DecidableEq μ] (cfg : Cfg) (malloc : Nat → Bool)
    (hmem : ∀ n, malloc n = true) (kernel : List KernelSymbol) (file : μ → ModuleFile)
    (modules : List μ) (hnodup : modules.Nodup) (hcount : modules.length < UINT16_MAX)
    (hkernel : ∀ sym ∈ kernel, sym.name ≠ [])
    (hexported : ∀ mod ∈ modules, ∀ e ∈ (file mod).exportedNames, e ≠ [])
    (hneeded : ∀ mod ∈ modules, ∀ n ∈ (file mod).neededNames, n ≠ [] ∧ n ≠ cstr ".") :
    ∃ t, loadSymbols cfg malloc kernel file modules = .ok t ∧
      (∀ mod ∈ modules, t.deps mod = neededOwners cfg file modules mod) ∧
      ∀ d, t.users d = (modules.filter (fun mod => d ∈ t.deps mod)).length := by
  obtain ⟨t₁, hkern, hdeps₁, husers₁, howner₁⟩ :=
    addKernelSymbols_spec hmem cfg kernel hkernel (Tables.init : Tables μ)
  obtain ⟨t₂, hload, hdeps₂, husers₂, howner₂, hneeds₂, -⟩ :=
    depmodLoadModules_spec hmem cfg file modules hexported [] t₁ (fun key => howner₁ key rfl)
  have hdeps : t₂.deps = fun _ => [] := hdeps₂.trans hdeps₁
  have husers : UsersCounted modules t₂ := by
    intro d
    rw [husers₂, husers₁, hdeps]
    simp [Tables.init]
  obtain ⟨t, hrun, hcounted, hspec, -⟩ := depmodLoadDependencies_spec hmem cfg hnodup hcount modules
    hnodup (List.Subset.refl _) (t := t₂)
    (fun mod hmod need hneed => by
      rw [hneeds₂ mod hmod] at hneed
      exact hneeded mod hmod need.name (List.mem_map_of_mem hneed))
    husers (fun mod _ => congrFun hdeps mod)
  refine ⟨t, ?_, fun mod hmod => ?_, hcounted⟩
  · rw [loadSymbols, hkern, ok_bind, hload, ok_bind, hrun]
  · rw [hspec mod hmod, hneeds₂ mod hmod]
    simp only [howner₂, List.nil_append]
    rfl

/--
Two modules that need a symbol of each other, which the kernel has, too, and one of their own.
-/
def crossed : Fin 2 → ModuleFile := fun i =>
  { symbols := .ok [⟨cstr (if i = 0 then "_foo" else "_bar"), 7⟩]
    info := []
    dependencySymbols := [⟨cstr ".bar", 7, true⟩, ⟨cstr "_foo", 8, false⟩, ⟨cstr "bar", 7, false⟩] }

theorem loadSymbols_crossed :
    ∃ t, loadSymbols ⟨95, true, true⟩ (fun _ => true) [⟨cstr "foo", true, 7⟩] crossed [0, 1] = .ok t ∧
      (∀ mod ∈ [0, 1], t.deps mod = neededOwners ⟨95, true, true⟩ crossed [0, 1] mod) ∧
      ∀ d, t.users d = ([0, 1].filter (fun mod => d ∈ t.deps mod)).length :=
  loadSymbols_spec _ _ (fun _ => rfl) _ _ _ (by decide) (by decide) (by decide)
    (by decide) (by decide)

/-! ## What the later passes start from -/

theorem nodup_eraseDups [DecidableEq μ] (l : List μ) : l.eraseDups.Nodup := by
  induction l using List.reverseRecOn with
  | nil => exact List.nodup_nil
  | append_singleton l a ih =>
    rw [eraseDups_concat]
    split
    · exact ih
    · next h =>
      rw [← List.mem_eraseDups] at h
      exact List.nodup_append.2 ⟨ih, List.nodup_singleton a, by
        intro b hb c hc hbc
        rw [List.mem_singleton] at hc
        exact h (hc ▸ hbc ▸ hb)⟩

theorem ownerOf_mem {cfg : Cfg} {file : μ → ModuleFile} {modules : List μ} {key : CStr} {owner : μ}
    (h : ownerOf cfg file modules key = some owner) : owner ∈ modules :=
  (List.mem_filter.1 (List.mem_of_getLast? h)).1

/-- **The table for the dependency passes**: what they assume is what the symbols lead to. -/
theorem loadSymbols_wellFormed [DecidableEq μ] (d : Depmod μ)
    (hcount : d.modules.length < UINT16_MAX)
    (hidx : ∀ i m, d.modules[i]? = some m → d.idx m = i) {cfg : Cfg} {file : μ → ModuleFile}
    {t : Tables μ} (hdeps : ∀ mod ∈ d.modules, t.deps mod = neededOwners cfg file d.modules mod)
    (husers : UsersCounted d.modules t) :
    ({ d with deps := t.deps, users := t.users } : Depmod μ).WellFormed where
  count_lt := hcount
  idx_eq := hidx
  deps_nodup := by
    intro m hm
    show (t.deps m).Nodup
    rw [hdeps m hm]
    exact nodup_eraseDups _
  deps_mem := by
    intro m hm x hx
    have hx : x ∈ t.deps m := hx
    rw [hdeps m hm, neededOwners, List.mem_eraseDups] at hx
    obtain ⟨n, -, hn⟩ := List.mem_filterMap.1 hx
    exact ownerOf_mem hn
  users_eq := fun m _ => husers m

/-! ## The hash table -/

section Hash

variable {host : Host} {hash : Hash (Symbol μ)} {t : Tables μ}

/-- `depmod_symbol_add` with the hash table: `hash_add` leaves what the map then is. -/
theorem depmodSymbolAdd_refines (h : RefinesMap host hash t.symbols)
    (hroom : hash.contents.length < MAX_KEYS) {malloc : Nat → Bool} (hmem : ∀ n, malloc n = true)
    (cfg : Cfg) {name : CStr} (hname : name ≠ []) (prefixSkipped : Bool) (crc : Nat)
    (owner : Option μ) :
    ∃ t' hash' gone, depmodSymbolAdd cfg malloc name prefixSkipped crc owner t = .ok (0, t') ∧
      hashAdd host hash (if prefixSkipped then name else kadd cfg name) ⟨owner, crc⟩ true
        = .ok (0, hash', gone) ∧
      RefinesMap host hash' t'.symbols := by
  rw [depmodSymbolAdd_eq hmem cfg hname]
  rcases hashAdd_cases h.valid hroom (if prefixSkipped then name else kadd cfg name)
      (⟨owner, crc⟩ : Symbol μ) true with
    ⟨-, hfail, -⟩ | ⟨-, hash', hv', -, ⟨old, rest, hcall, hold, hnew⟩ | ⟨hcall, habsent, hnew⟩⟩
  · cases hfail
  · exact ⟨_, hash', _, rfl, hcall, hv', ((h.lists.perm hold.symm).replace).perm hnew⟩
  · exact ⟨_, hash', _, rfl, hcall, hv', (h.lists.insert habsent).perm hnew⟩

/-- `hash_find` finds what `depmod_symbol_find` finds in the map. -/
theorem depmodSymbolFind_refines (h : RefinesMap host hash t.symbols) (null : Symbol μ) (cfg : Cfg)
    {name : CStr} (hname : name ≠ []) (hdot : name ≠ [46]) {sym : Option (Symbol μ)}
    (hfind : depmodSymbolFind cfg t.symbols name = .ok sym) :
    hashFind host null hash (kfind cfg name) = .ok (sym.getD null) := by
  rw [depmodSymbolFind_eq cfg t.symbols hname hdot] at hfind
  rw [h.hashFind_eq, ← Except.ok.inj hfind]

end Hash

end Kmod.Symbols
