import Kmod.Lib.Ranking
import Kmod.Depmod.Priority

/-!
# The order of the search entries

depmod.d(5) orders the places a module file can be in: first the overrides, then the
entries of the search list, where an external directory counts as an entry of its own.
`place` is the place of a file in that order, 0 being the best.

`depmod_module_is_higher_priority` goes through the same entries from the lowest to the
highest and numbers them with one counter. Its loops come to a comparison of places
(`kept_iff`), but of the places as it reads the paths (`newPlace`, `oldPlace`): it tests the
beginning of a path its own way, and an entry that fits the new file is not looked at for
the old one (`countsForOld`).
-/

namespace Kmod

open Kmod.Ranking

/-! ## The documented order -/

/-- An entry of the order. -/
inductive SearchEntry where
  | builtin
  | external (dir : CStr)
  | subdir (dir : CStr)
  deriving DecidableEq, Repr

def searchWords (commands : List CfgCommand) : List CStr :=
  commands.filterMap (fun c => match c with | .search path => some path | _ => none)

def externalDirs (commands : List CfgCommand) : List CStr :=
  commands.filterMap (fun c => match c with | .external path => some path | _ => none)

def overridePaths (commands : List CfgCommand) : List CStr :=
  commands.filterMap
    (fun c => match c with | .override modname subdir => some (subdir ++ 47 :: modname) | _ => none)

/-- What a word of the search list stands for. -/
def entriesOf (externals : List CStr) : CfgSearch → List SearchEntry
  | .builtin => [.builtin]
  | .external => externals.map .external
  | .path p => [.subdir p]

/-- The entries as they are listed, the highest first. -/
def searchOrder (commands : List CfgCommand) : List SearchEntry :=
  (if searchWords commands = [] then [cstr "updates"] else searchWords commands).flatMap
    (fun word => entriesOf (externalDirs commands) (cfgDefineSearchType word))

/-- The module name of a file. -/
def FoundFile.modname (f : FoundFile) : CStr := modnameNormalize f.name

/-- The path without its extension, as it is found. -/
def FoundFile.stem (f : FoundFile) : Stem := ⟨f.path, f.baselen + f.modname.length⟩

/-- The path of a registered module without its extension. -/
def Mod.stem (mod : Mod) : Stem := ⟨mod.path, mod.baselen + mod.modnamesz⟩

/-- The module that is registered for a file. -/
def FoundFile.mod (cwd : CStr) (f : FoundFile) : Mod :=
  ⟨pathMakeAbsoluteCwd cwd f.path, modBaselen (pathMakeAbsoluteCwd cwd f.path), f.modname⟩

/--
The entry ranks what is at an absolute path. The built-in entry ranks what no other entry
ranks.
-/
def ranks (dirname cwd : CStr) (s : Stem) : SearchEntry → Bool
  | .builtin => false
  | .external dir => decide (pathMakeAbsoluteCwd cwd dir ++ [47] <+: s.path)
  | .subdir dir => decide (dirname ++ 47 :: (dir ++ [47]) <+: s.path)

def isBuiltin : SearchEntry → Bool
  | .builtin => true
  | _ => false

def isSubdir : SearchEntry → Bool
  | .subdir _ => true
  | _ => false

/-- The path is that of an override. -/
def atOverride (dirname : CStr) (s : Stem) (ov : CStr) : Bool :=
  decide (s.path.take s.len = dirname ++ 47 :: ov)

/-- The place of what some entries apply to. -/
def position (order : List SearchEntry) (p : SearchEntry → Bool) : Nat :=
  order.findIdx (if order.any p then p else isBuiltin)

/-- A place in the whole order: at one of the overrides, or else behind them. -/
def placeIn (overrides : List CStr) (order : List SearchEntry) (ov : CStr → Bool)
    (p : SearchEntry → Bool) : Nat :=
  if overrides.findIdx ov < overrides.length then overrides.findIdx ov
  else overrides.length + position order p

/-- The place of a module file; of the overrides, the last one is the most significant. -/
def place (dirname cwd : CStr) (commands : List CfgCommand) (s : Stem) : Nat :=
  placeIn (overridePaths commands).reverse (searchOrder commands) (atOverride dirname s)
    (ranks dirname cwd s)

/-! ## The configuration that is loaded -/

theorem foldl_cfgCommandAdd (commands : List CfgCommand) : ∀ cfg : Cfg,
    commands.foldl cfgCommandAdd cfg =
      ⟨cfg.dirname, (overridePaths commands).reverse ++ cfg.overrides,
        ((searchWords commands).map cfgDefineSearchType).reverse ++ cfg.searches,
        (externalDirs commands).reverse ++ cfg.externals⟩ := by
  induction commands with
  | nil => intro cfg; rfl
  | cons c commands ih =>
    intro cfg
    rw [List.foldl_cons, ih]
    cases c with
    | search path => simp [cfgCommandAdd, cfgSearchAdd, overridePaths, searchWords, externalDirs]
    | override modname subdir =>
      simp [cfgCommandAdd, cfgOverrideAdd, overridePaths, searchWords, externalDirs]
    | external path =>
      simp [cfgCommandAdd, cfgExternalAdd, overridePaths, searchWords, externalDirs]

section Load

variable (dirname : CStr) (commands : List CfgCommand)

theorem cfgLoad_dirname : (cfgLoad dirname commands).dirname = dirname := by
  unfold cfgLoad
  rw [foldl_cfgCommandAdd]
  dsimp only
  split <;> rfl

theorem cfgLoad_overrides :
    (cfgLoad dirname commands).overrides = (overridePaths commands).reverse := by
  unfold cfgLoad
  rw [foldl_cfgCommandAdd]
  dsimp only
  split <;> simp [cfgSearchAdd]

theorem cfgLoad_externals :
    (cfgLoad dirname commands).externals = (externalDirs commands).reverse := by
  unfold cfgLoad
  rw [foldl_cfgCommandAdd]
  dsimp only
  split <;> simp [cfgSearchAdd]

theorem cfgLoad_searches :
    (cfgLoad dirname commands).searches =
      ((if searchWords commands = [] then [cstr "updates"] else searchWords commands).map
        cfgDefineSearchType).reverse := by
  unfold cfgLoad
  rw [foldl_cfgCommandAdd]
  dsimp only
  by_cases h : searchWords commands = []
  · simp [h, cfgSearchAdd]
  · simp [h]

theorem entriesOf_reverse (externals : List CStr) (se : CfgSearch) :
    (entriesOf externals se).reverse = entriesOf externals.reverse se := by
  cases se with
  | builtin => rfl
  | external => exact List.map_reverse.symm
  | path p => rfl

/-- The lists of the configuration are the documented ones, backwards. -/
theorem searchOrder_eq :
    searchOrder commands = ((cfgLoad dirname commands).searches.flatMap
      (entriesOf (cfgLoad dirname commands).externals)).reverse := by
  rw [cfgLoad_searches, cfgLoad_externals, List.reverse_flatMap, List.reverse_reverse,
    List.flatMap_map]
  unfold searchOrder
  congr 1
  funext word
  simp only [Function.comp, entriesOf_reverse, List.reverse_reverse]

end Load

/-! ## The numbers of the entries -/

/-- The external directories, numbered from `i` on. -/
def numberedExternals : Int → List CStr → List (Int × SearchEntry)
  | _, [] => []
  | i, ext :: exts => (i, .external ext) :: numberedExternals (i + 1) exts

/-- The entries with the numbers they have in `depmod_module_is_higher_priority`. -/
def numberedEntries (externals : List CStr) : Int → List CfgSearch → List (Int × SearchEntry)
  | _, [] => []
  | i, .builtin :: ses => (i, .builtin) :: numberedEntries externals (i + 1) ses
  | i, .external :: ses =>
    numberedExternals i externals ++ numberedEntries externals (i + externals.length + 1) ses
  | i, .path p :: ses => (i, .subdir p) :: numberedEntries externals (i + 1) ses

theorem numberedExternals_snd (exts : List CStr) :
    ∀ i, (numberedExternals i exts).map Prod.snd = exts.map .external := by
  induction exts with
  | nil => intro i; rfl
  | cons ext exts ih => intro i; simp [numberedExternals, ih]

theorem numberedEntries_snd (externals : List CStr) (ses : List CfgSearch) :
    ∀ i, (numberedEntries externals i ses).map Prod.snd = ses.flatMap (entriesOf externals) := by
  induction ses with
  | nil => intro i; rfl
  | cons se ses ih =>
    intro i
    cases se with
    | builtin => simp [numberedEntries, entriesOf, ih]
    | external => simp [numberedEntries, entriesOf, ih, numberedExternals_snd]
    | path p => simp [numberedEntries, entriesOf, ih]

theorem numberedExternals_bounds (exts : List CStr) : ∀ i,
    (numberedExternals i exts).Pairwise (fun x y => x.1 < y.1) ∧
      ∀ x ∈ numberedExternals i exts, i ≤ x.1 ∧ x.1 < i + exts.length := by
  induction exts with
  | nil => intro i; exact ⟨.nil, by simp [numberedExternals]⟩
  | cons ext exts ih =>
    intro i
    obtain ⟨hpair, hbounds⟩ := ih (i + 1)
    unfold numberedExternals
    rw [List.length_cons]
    push_cast
    refine ⟨List.pairwise_cons.mpr ⟨?_, hpair⟩, ?_⟩
    · intro x hx
      have := hbounds x hx
      dsimp only
      omega
    · intro x hx
      rcases List.mem_cons.mp hx with rfl | hx
      · dsimp only
        omega
      · have := hbounds x hx
        omega

theorem numberedEntries_bounds (externals : List CStr) (ses : List CfgSearch) : ∀ i,
    (numberedEntries externals i ses).Pairwise (fun x y => x.1 < y.1) ∧
      ∀ x ∈ numberedEntries externals i ses, i ≤ x.1 := by
  induction ses with
  | nil => intro i; exact ⟨.nil, by simp [numberedEntries]⟩
  | cons se ses ih =>
    intro i
    obtain ⟨hpair, hbounds⟩ := ih (i + 1)
    -- a single entry in front
    have hcons : ∀ e : SearchEntry,
        ((i, e) :: numberedEntries externals (i + 1) ses).Pairwise (fun x y => x.1 < y.1) ∧
          ∀ x ∈ (i, e) :: numberedEntries externals (i + 1) ses, i ≤ x.1 := by
      intro e
      refine ⟨List.pairwise_cons.mpr ⟨?_, hpair⟩, ?_⟩
      · intro x hx
        have := hbounds x hx
        dsimp only
        omega
      · intro x hx
        rcases List.mem_cons.mp hx with rfl | hx
        · exact Int.le_refl _
        · have := hbounds x hx
          omega
    cases se with
    | builtin => exact hcons .builtin
    | path p => exact hcons (.subdir p)
    | external =>
      obtain ⟨hpair', hbounds'⟩ := ih (i + externals.length + 1)
      obtain ⟨hext, hextb⟩ := numberedExternals_bounds externals i
      unfold numberedEntries
      refine ⟨List.pairwise_append.mpr ⟨hext, hpair', ?_⟩, ?_⟩
      · intro x hx y hy
        have := hextb x hx
        have := hbounds' y hy
        omega
      · intro x hx
        rcases List.mem_append.mp hx with hx | hx
        · exact (hextb x hx).1
        · have := hbounds' x hx
          omega

theorem numberedEntries_numbered (externals : List CStr) (ses : List CfgSearch) :
    Numbered (numberedEntries externals 0 ses) :=
  ⟨(numberedEntries_bounds externals ses 0).1, (numberedEntries_bounds externals ses 0).2⟩

/-! ## What the loops compute -/

/-- The entry fits a path, as the comparison sees it. -/
def fitsEntry (cfg : Cfg) (s : Stem) : SearchEntry → Bool
  | .builtin => false
  | .external dir => depmodIsPathStartsWith s.path s.len dir
  | .subdir dir => matchesSearch (relStem cfg s) dir

/-- The entry is counted for the old file: it is not a search path that fits the new one too. -/
def countsForOld (cfg : Cfg) (new old : Stem) (e : SearchEntry) : Bool :=
  fitsEntry cfg old e && !(isSubdir e && fitsEntry cfg new e)

theorem countsForOld_external (cfg : Cfg) (new old : Stem) (dir : CStr) :
    countsForOld cfg new old (.external dir) = depmodIsPathStartsWith old.path old.len dir := by
  simp [countsForOld, fitsEntry, isSubdir]

theorem countsForOld_subdir (cfg : Cfg) (new old : Stem) (dir : CStr) :
    countsForOld cfg new old (.subdir dir) =
      (matchesSearch (relStem cfg old) dir && !matchesSearch (relStem cfg new) dir) := by
  simp [countsForOld, fitsEntry, isSubdir]

theorem externalLoop_eq (cfg : Cfg) (new old : Stem) (exts : List CStr) : ∀ s : Prios,
    externalLoop new old exts s =
      ⟨s.i + exts.length, lastNum isBuiltin (numberedExternals s.i exts) s.bprio,
        lastNum (countsForOld cfg new old) (numberedExternals s.i exts) s.oldprio,
        lastNum (fitsEntry cfg new) (numberedExternals s.i exts) s.newprio⟩ := by
  induction exts with
  | nil =>
    intro s
    simp [externalLoop, numberedExternals, lastNum]
  | cons ext exts ih =>
    intro s
    have hlen : s.i + 1 + (exts.length : Int) = s.i + ((ext :: exts).length : Int) := by
      rw [List.length_cons]
      push_cast
      omega
    have hnew : fitsEntry cfg new (.external ext) =
      depmodIsPathStartsWith new.path new.len ext := rfl
    have hbuiltin : isBuiltin (.external ext) = false := rfl
    rw [numberedExternals, lastNum_cons, lastNum_cons, lastNum_cons, countsForOld_external, hnew,
      hbuiltin, ← hlen]
    unfold externalLoop
    rw [ih]
    cases depmodIsPathStartsWith new.path new.len ext <;>
      cases depmodIsPathStartsWith old.path old.len ext <;> rfl

/-- **The loop over the search list gives each file its last entry.** -/
theorem searchLoop_eq (cfg : Cfg) (new old : Stem) (ses : List CfgSearch) : ∀ s : Prios,
    ∃ i, searchLoop cfg new old ses s =
      ⟨i, lastNum isBuiltin (numberedEntries cfg.externals s.i ses) s.bprio,
        lastNum (countsForOld cfg new old) (numberedEntries cfg.externals s.i ses) s.oldprio,
        lastNum (fitsEntry cfg new) (numberedEntries cfg.externals s.i ses) s.newprio⟩ := by
  induction ses with
  | nil => intro s; exact ⟨s.i, rfl⟩
  | cons se ses ih =>
    intro s
    cases se with
    | builtin => exact ih { s with bprio := s.i, i := s.i + 1 }
    | external =>
      unfold searchLoop numberedEntries
      rw [externalLoop_eq cfg]
      simp only [lastNum_append]
      exact ih _
    | path p =>
      unfold searchLoop numberedEntries
      rw [lastNum_cons, lastNum_cons, lastNum_cons, countsForOld_subdir]
      cases hn : matchesSearch (relStem cfg new) p with
      | true =>
        obtain ⟨i, hi⟩ := ih { s with newprio := s.i, i := s.i + 1 }
        refine ⟨i, ?_⟩
        simp only [if_true, fitsEntry, hn, Bool.not_true, Bool.and_false, Bool.false_eq_true,
          if_false]
        exact hi
      | false =>
        cases ho : matchesSearch (relStem cfg old) p with
        | true =>
          obtain ⟨i, hi⟩ := ih { s with oldprio := s.i, i := s.i + 1 }
          refine ⟨i, ?_⟩
          simp only [if_true, fitsEntry, hn, Bool.not_false, Bool.and_true, Bool.false_eq_true,
            if_false]
          exact hi
        | false =>
          obtain ⟨i, hi⟩ := ih { s with i := s.i + 1 }
          refine ⟨i, ?_⟩
          simp only [fitsEntry, hn, Bool.not_false, Bool.and_true, Bool.false_eq_true, if_false]
          exact hi

/-- A file that no entry fits has the number of the built-in entry. -/
theorem effective_eq {l : List (Int × SearchEntry)} (h : Numbered l) (p : SearchEntry → Bool) :
    (if lastNum p l (-1) < 0 then lastNum isBuiltin l (-1) else lastNum p l (-1)) =
      lastNum (if (l.map Prod.snd).reverse.any p then p else isBuiltin) l (-1) := by
  have hneg := lastNum_neg_iff h p
  cases hany : (l.map Prod.snd).reverse.any p with
  | false =>
    rw [if_pos (hneg.mpr hany)]
    rfl
  | true =>
    rw [if_neg (by rw [hneg, hany]; simp)]
    rfl

/-- The order of the entries in the configuration, the highest first. -/
def cfgOrder (cfg : Cfg) : List SearchEntry :=
  (cfg.searches.flatMap (entriesOf cfg.externals)).reverse

/--
**The comparison without overrides is one of places**, but the old file has only the entries
that count for it.
-/
theorem searches_decide (cfg : Cfg) (new old : Stem) :
    (let s := searchLoop cfg new old cfg.searches ⟨0, -1, -1, -1⟩
     let newprio := if s.newprio < 0 then s.bprio else s.newprio
     let oldprio := if s.oldprio < 0 then s.bprio else s.oldprio
     decide (newprio ≤ oldprio)) =
      decide (position (cfgOrder cfg) (countsForOld cfg new old) ≤
        position (cfgOrder cfg) (fitsEntry cfg new)) := by
  obtain ⟨i, hi⟩ := searchLoop_eq cfg new old cfg.searches ⟨0, -1, -1, -1⟩
  have hnum := numberedEntries_numbered cfg.externals cfg.searches
  have horder : ((numberedEntries cfg.externals 0 cfg.searches).map Prod.snd).reverse =
      cfgOrder cfg := by
    rw [numberedEntries_snd]
    rfl
  dsimp only
  rw [hi]
  dsimp only
  rw [effective_eq hnum, effective_eq hnum, horder]
  unfold position
  rw [decide_eq_decide, lastNum_le_iff hnum, horder]

/-! ## The places as they are read -/

/-- The place of the new file, as its path is read. -/
def newPlace (cfg : Cfg) (new : Stem) : Nat :=
  placeIn cfg.overrides (cfgOrder cfg) (matchesOverride (relStem cfg new)) (fitsEntry cfg new)

/-- The place of the old file, as its path is read. -/
def oldPlace (cfg : Cfg) (new old : Stem) : Nat :=
  placeIn cfg.overrides (cfgOrder cfg) (matchesOverride (relStem cfg old))
    (countsForOld cfg new old)

/-- The old place comes first; at one place, the old file wins unless it is an override. -/
def ReadFirst (cfg : Cfg) (new old : Stem) : Prop :=
  oldPlace cfg new old < newPlace cfg new ∨
    oldPlace cfg new old = newPlace cfg new ∧ cfg.overrides.length ≤ newPlace cfg new

/-- The overrides decide for the file with the earlier one, for the new one if it is the same. -/
theorem overrideLoop_eq (relnew relold : Stem) (ovs : List CStr) :
    overrideLoop relnew relold ovs =
      if ovs.findIdx (matchesOverride relnew) < ovs.length ∨
          ovs.findIdx (matchesOverride relold) < ovs.length then
        some (decide (ovs.findIdx (matchesOverride relold) < ovs.findIdx (matchesOverride relnew)))
      else none := by
  induction ovs with
  | nil => rfl
  | cons ov ovs ih =>
    unfold overrideLoop
    rw [List.findIdx_cons, List.findIdx_cons, ih, List.length_cons]
    cases hn : matchesOverride relnew ov with
    | true => simp
    | false =>
      cases ho : matchesOverride relold ov with
      | true => simp
      | false => simp

/-- **The comparison is one of the places as they are read.** -/
theorem kept_iff (cfg : Cfg) (mod : Mod) (baselen modnamelen : Nat) (newpath : CStr) :
    depmodModuleIsHigherPriority cfg mod baselen modnamelen newpath = true ↔
      ReadFirst cfg ⟨newpath, baselen + modnamelen⟩ mod.stem := by
  have hsearch := searches_decide cfg ⟨newpath, baselen + modnamelen⟩ mod.stem
  have hnew : cfg.overrides.findIdx (matchesOverride (relStem cfg ⟨newpath, baselen + modnamelen⟩))
      ≤ cfg.overrides.length := List.findIdx_le_length
  have hold : cfg.overrides.findIdx (matchesOverride (relStem cfg mod.stem))
      ≤ cfg.overrides.length := List.findIdx_le_length
  unfold depmodModuleIsHigherPriority ReadFirst oldPlace newPlace placeIn
  dsimp only at hsearch ⊢
  rw [show (⟨mod.path, mod.baselen + mod.modnamesz⟩ : Stem) = mod.stem from rfl, hsearch,
    overrideLoop_eq]
  split
  · next kept hkept =>
    -- one of the files is that of an override
    split at hkept
    · next hov =>
      cases hkept
      rw [decide_eq_true_eq]
      split <;> split <;> omega
    · cases hkept
  · next hkept =>
    split at hkept
    · cases hkept
    · next hov =>
      rw [not_or] at hov
      rw [if_neg hov.1, if_neg hov.2, decide_eq_true_eq]
      omega

end Kmod
