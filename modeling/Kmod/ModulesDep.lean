import Kmod.Depmod.Output
import Kmod.Index.Wild
import Kmod.Libkmod.Depline

/-!
# From the dependency graph to the order of loading

depmod writes `modules.dep.bin`, libkmod reads it: for an acyclic graph of direct
dependencies, the list that `kmod_module_get_dependencies` returns for a module is
its transitive closure, each module once, and every module behind all modules it
depends on.

The lines list users first and the parser prepends, so the order is reversed
twice: once by depmod, once by libkmod.
-/

namespace Kmod

open Relation Index Depmod

variable {μ : Type}

/-! ## What is known of names and paths -/

/-- A 7-bit string without colons, spaces and tabs. -/
def CleanPath (p : CStr) : Prop := ∀ c ∈ p, c ≠ 0 ∧ c < INDEX_CHILDMAX ∧ c ≠ 58 ∧ c ≠ 32 ∧ c ≠ 9

instance : DecidablePred CleanPath := fun p =>
  List.decidableBAll (fun c => c ≠ 0 ∧ c < INDEX_CHILDMAX ∧ c ≠ 58 ∧ c ≠ 32 ∧ c ≠ 9) p

/-- Names and paths as `depmod_module_add` leaves them, `dir` being the directory depmod scans. -/
structure Named (d : Depmod μ) (dir : CStr) : Prop where
  relpath : ∀ m ∈ d.modules, ∀ rel, d.relpath m = some rel → d.path m = dir ++ cstr "/" ++ rel
  modname : ∀ m ∈ d.modules, pathToModname (d.path m) = some (d.modname m)
  distinct : ∀ a ∈ d.modules, ∀ b ∈ d.modules, d.modname a = d.modname b → a = b
  /-- The paths that are written. -/
  clean : ∀ m ∈ d.modules, CleanPath (modGetCompressedPath d m)

/-- Where libkmod looks for the file of a module. -/
def joined (ctx : ModuleCtx) (d : Depmod μ) (m : μ) : CStr :=
  if pathIsAbsolute (modGetCompressedPath d m) then modGetCompressedPath d m
  else ctx.dirname ++ cstr "/" ++ modGetCompressedPath d m

/-- The path fits into the buffer of `kmod_module_parse_depline`. -/
def Fits (ctx : ModuleCtx) (d : Depmod μ) (m : μ) : Prop :=
  pathIsAbsolute (modGetCompressedPath d m) = true ∨
    ctx.dirname.length + 1 + (modGetCompressedPath d m).length + 1 < PATH_MAX

section Paths

variable {d : Depmod μ} {dir : CStr} (hd : Named d dir) {ctx : ModuleCtx} {m : μ}

theorem joined_absolute (ctx : ModuleCtx) (d : Depmod μ) (m : μ) :
    pathIsAbsolute (joined ctx d m) = true := by
  unfold joined
  split
  · assumption
  · have hdir := ctx.dirname_abs
    cases hdirname : ctx.dirname with
    | nil => rw [hdirname] at hdir; exact absurd hdir (by decide)
    | cons c cs => rw [hdirname] at hdir; exact hdir

theorem pathJoin_fits (h : Fits ctx d m) :
    pathJoin ctx (modGetCompressedPath d m) = some (joined ctx d m) := by
  unfold pathJoin joined
  by_cases habs : pathIsAbsolute (modGetCompressedPath d m) = true
  · rw [if_pos habs, if_pos habs]
  · rw [if_neg habs, if_neg habs, if_neg (Nat.not_le.mpr (h.resolve_left habs))]

include hd

/-- The name can be read off the path that is written. -/
theorem Named.compressed (hm : m ∈ d.modules) :
    pathToModname (modGetCompressedPath d m) = some (d.modname m) := by
  rw [← hd.modname m hm, modGetCompressedPath]
  cases hrel : d.relpath m with
  | none => rfl
  | some rel =>
    rw [hd.relpath m hm rel hrel, List.append_assoc]
    exact (pathToModname_append dir rel).symm

theorem Named.joined (hm : m ∈ d.modules) :
    pathToModname (joined ctx d m) = some (d.modname m) := by
  rw [← hd.compressed hm, Kmod.joined]
  split
  · rfl
  · rw [List.append_assoc]
    exact pathToModname_append ctx.dirname _

theorem Named.word (hm : m ∈ d.modules) :
    modGetCompressedPath d m ≠ [] ∧ ∀ c ∈ modGetCompressedPath d m, c ≠ 32 ∧ c ≠ 9 := by
  refine ⟨fun hnil => ?_, fun c hc => (hd.clean m hm c hc).2.2.2⟩
  have hname := hd.compressed hm
  rw [hnil] at hname
  exact absurd hname (by simp [pathToModname, basename])

theorem Named.entry_clean (hm : m ∈ d.modules) {deps : List μ} (hdeps : ∀ x ∈ deps, x ∈ d.modules)
    (priority : UInt32) : Entry.Clean ⟨d.modname m, depLine d m deps, priority⟩ := by
  have hpath : ∀ x ∈ d.modules, Clean (modGetCompressedPath d x) := fun x hx c hc =>
    ⟨(hd.clean x hx c hc).1, (hd.clean x hx c hc).2.1⟩
  refine ⟨fun c hc => ?_, fun c hc => ?_⟩
  · rcases mem_of_mem_modname (hd.compressed hm) hc with rfl | hin
    · decide
    · exact hpath m hm c hin
  · rcases List.mem_append.mp hc with hc | hc
    · rcases List.mem_append.mp hc with hc | hc
      · exact hpath m hm c hc
      · rw [List.mem_singleton.mp hc]; decide
    · obtain ⟨x, hx, hc⟩ := List.mem_flatMap.mp hc
      rcases List.mem_append.mp hc with hc | hc
      · rw [List.mem_singleton.mp hc]; decide
      · exact hpath x (hdeps x (List.mem_reverse.mp hx)) c hc

/-- The words behind the colon. -/
theorem strtok_spacedPaths {xs : List μ} (hxs : ∀ x ∈ xs, x ∈ d.modules) :
    strtok (spacedPaths d xs) = xs.map (modGetCompressedPath d) := by
  rw [← strtok_words (xs.map (modGetCompressedPath d)), List.flatMap_map]
  · rfl
  · intro p hp
    obtain ⟨x, hx, rfl⟩ := List.mem_map.mp hp
    exact hd.word (hxs x hx)

/-- A line falls apart at its colon. -/
theorem depLine_colon (hm : m ∈ d.modules) (deps : List μ) :
    (depLine d m deps).takeWhile (· ≠ 58) = modGetCompressedPath d m ∧
      (depLine d m deps).dropWhile (· ≠ 58) = 58 :: spacedPaths d deps.reverse := by
  have hcolon : ∀ c ∈ modGetCompressedPath d m, decide (c ≠ 58) = true := by
    intro c hc
    simpa using (hd.clean m hm c hc).2.2.1
  have hline : depLine d m deps = modGetCompressedPath d m ++ 58 :: spacedPaths d deps.reverse := by
    unfold depLine
    rw [List.append_assoc]
    rfl
  rw [hline, List.takeWhile_append_of_pos hcolon, List.dropWhile_append_of_pos hcolon]
  simp

end Paths

/-! ## What libkmod knows of the modules -/

section Pool

variable {ctx : ModuleCtx} {d : Depmod μ} {dir : CStr} {deps : μ → List μ}

/-- The pool knows no other path for a module than the one it will be looked for. -/
def PathsOk (ctx : ModuleCtx) (d : Depmod μ) (pool : Pool) : Prop := ∀ m ∈ d.modules,
  (kmodModuleNew pool (d.modname m)).path = none ∨
    (kmodModuleNew pool (d.modname m)).path = some (joined ctx d m)

/--
The pool is in order: paths are right, and a module has its list of dependencies,
or none yet.
-/
structure PoolOk (ctx : ModuleCtx) (d : Depmod μ) (deps : μ → List μ) (pool : Pool) : Prop where
  paths : PathsOk ctx d pool
  dep : ∀ m ∈ d.modules, (kmodModuleNew pool (d.modname m)).dep
    = if (kmodModuleNew pool (d.modname m)).initDep then (deps m).map d.modname else []

/-- Before anything is looked up. -/
theorem poolOk_empty : PoolOk ctx d deps (fun _ => none) :=
  ⟨fun _ _ => .inl rfl, fun _ _ => rfl⟩

/-- One word of a line. -/
theorem PathsOk.newFromPath (hd : Named d dir) {pool : Pool} (h : PathsOk ctx d pool) {x : μ}
    (hx : x ∈ d.modules) (hstat : 0 ≤ ctx.stat (joined ctx d x)) :
    ∃ pool', kmodModuleNewFromPath ctx pool (joined ctx d x) = .ok (d.modname x, pool') ∧
      SameDeps pool pool' ∧ PathsOk ctx d pool' := by
  obtain ⟨pool', hnew, hsame, hpath, hother⟩ := kmodModuleNewFromPath_ok (joined_absolute ctx d x)
    hstat (hd.joined hx) (h x hx)
  refine ⟨pool', hnew, hsame, fun m hm => ?_⟩
  -- only the module of this path is touched
  by_cases hmx : m = x
  · rw [hmx]
    exact .inr hpath
  · rw [hother _ (fun heq => hmx (hd.distinct m hm x hx heq))]
    exact h m hm

/-- **The words of a line**, each one put before those found so far. -/
theorem PathsOk.parseDeps (hd : Named d dir) {xs : List μ}
    (hxs : ∀ x ∈ xs, x ∈ d.modules ∧ Fits ctx d x ∧ 0 ≤ ctx.stat (joined ctx d x)) :
    ∀ (list : List CStr) {pool : Pool}, PathsOk ctx d pool →
      ∃ pool', parseDeps ctx (xs.map (modGetCompressedPath d)) pool list
          = (some ((xs.map d.modname).reverse ++ list), pool') ∧
        SameDeps pool pool' ∧ PathsOk ctx d pool' := by
  -- on the words; the list and the pool grow along the way
  induction xs with
  | nil => intro list pool h; exact ⟨pool, rfl, fun _ => ⟨rfl, rfl⟩, h⟩
  | cons x xs ih =>
    intro list pool h
    obtain ⟨hx, hfits, hstat⟩ := hxs x (List.mem_cons_self ..)
    obtain ⟨pool₁, hnew, hsame₁, h₁⟩ := h.newFromPath hd hx hstat
    obtain ⟨pool₂, hrest, hsame₂, h₂⟩ := ih (fun y hy => hxs y (List.mem_cons_of_mem _ hy))
      (d.modname x :: list) h₁
    refine ⟨pool₂, ?_, hsame₁.trans hsame₂, h₂⟩
    rw [List.map_cons, Kmod.parseDeps, pathJoin_fits hfits]
    simp only [hnew, hrest]
    simp

variable (hd : Named d dir) {m : μ} (hm : m ∈ d.modules)
  (hdeps : ∀ x ∈ deps m, x ∈ d.modules)
  (hfits : Fits ctx d m ∧ ∀ x ∈ deps m, Fits ctx d x)
  (hdir : ctx.dirname.length + 2 < PATH_MAX)
  (hstat : ∀ x ∈ deps m, 0 ≤ ctx.stat (joined ctx d x))
include hd hm hdeps hfits hdir hstat

omit hfits hdir in
/-- The module gets the list, and nothing else changes but for paths. -/
theorem PoolOk.parseDeplineRest {pool : Pool} (h : PoolOk ctx d deps pool)
    (hfits : ∀ x ∈ deps m, Fits ctx d x) (mod : KmodModule)
    (hpath : mod.path = some (joined ctx d m)) (hinit : mod.initDep = true) :
    ∃ pool', parseDeplineRest ctx (d.modname m) mod (spacedPaths d (deps m).reverse) pool = pool' ∧
      PoolOk ctx d deps pool' ∧
      (kmodModuleNew pool' (d.modname m)).dep = (deps m).map d.modname := by
  have hname : ∀ {x}, x ∈ d.modules → x ≠ m → d.modname x ≠ d.modname m := fun hx hne heq =>
    hne (hd.distinct _ hx m hm heq)
  -- first the module gets its path, then the words are read
  have hpool : PathsOk ctx d (Function.update pool (d.modname m) (some mod)) := by
    intro x hx
    by_cases hxm : x = m
    · rw [hxm, kmodModuleNew_update_self]
      exact .inr hpath
    · rw [kmodModuleNew_update_of_ne pool (hname hx hxm)]
      exact h.paths x hx
  have hwords : ∀ x ∈ (deps m).reverse, x ∈ d.modules ∧ Fits ctx d x ∧
      0 ≤ ctx.stat (joined ctx d x) := by
    intro x hx
    rw [List.mem_reverse] at hx
    exact ⟨hdeps x hx, hfits x hx, hstat x hx⟩
  obtain ⟨pool₁, hparse, hsame, hpool₁⟩ := hpool.parseDeps hd hwords []
  rw [← List.map_reverse, List.reverse_reverse, List.append_nil] at hparse
  have hinit₁ : (kmodModuleNew pool₁ (d.modname m)).initDep = true := by
    rw [(hsame _).2, kmodModuleNew_update_self, hinit]
  obtain ⟨mod₁, hmod₁⟩ : ∃ mod₁, pool₁ (d.modname m) = some mod₁ := by
    cases hp : pool₁ (d.modname m) with
    | none => rw [kmodModuleNew, hp] at hinit₁; exact absurd hinit₁ (by simp)
    | some mod₁ => exact ⟨mod₁, rfl⟩
  have hself : kmodModuleNew pool₁ (d.modname m) = mod₁ := by rw [kmodModuleNew, hmod₁]; rfl
  -- the list ends up with the module, whose flag no word has touched
  refine ⟨Function.update pool₁ (d.modname m) (some { mod₁ with dep := (deps m).map d.modname }),
    ?_, ⟨fun x hx => ?_, fun x hx => ?_⟩, by rw [kmodModuleNew_update_self]⟩
  · rw [Kmod.parseDeplineRest, strtok_spacedPaths hd (fun x hx => (hwords x hx).1), hparse]
    simp only [hmod₁, Option.map_some]
  · by_cases hxm : x = m
    · rw [hxm, kmodModuleNew_update_self, ← hself]
      exact hpool₁ m hm
    · rw [kmodModuleNew_update_of_ne pool₁ (hname hx hxm)]
      exact hpool₁ x hx
  · by_cases hxm : x = m
    · rw [hself] at hinit₁
      rw [hxm, kmodModuleNew_update_self, hinit₁]
      rfl
    · rw [kmodModuleNew_update_of_ne pool₁ (hname hx hxm), (hsame _).1, (hsame _).2,
        kmodModuleNew_update_of_ne pool (hname hx hxm)]
      exact h.dep x hx

/-- **The line of a module is read back** as its list of dependencies. -/
theorem PoolOk.parseDepline {pool : Pool} (h : PoolOk ctx d deps pool)
    (hinit : (kmodModuleNew pool (d.modname m)).initDep = false) :
    ∃ pool', kmodModuleParseDepline ctx (d.modname m) (depLine d m (deps m)) pool = .ok pool' ∧
      PoolOk ctx d deps pool' ∧
      (kmodModuleNew pool' (d.modname m)).dep = (deps m).map d.modname := by
  have hempty : (kmodModuleNew pool (d.modname m)).dep = [] := by
    rw [h.dep m hm, hinit]
    rfl
  obtain ⟨htake, hdrop⟩ := depLine_colon hd hm (deps m)
  -- the path before the colon is the one the module has, or gets
  have hown : ownPath ctx ⟨(kmodModuleNew pool (d.modname m)).path,
      (kmodModuleNew pool (d.modname m)).dep, true⟩ (modGetCompressedPath d m)
      = some (joined ctx d m) := by
    unfold ownPath
    rcases h.paths m hm with hp | hp
    · simp only [hp, pathJoin_fits hfits.1]
    · simp only [hp]
  obtain ⟨pool', hrest, hpool', hdep⟩ := h.parseDeplineRest hd hm hdeps hstat hfits.2
    ⟨some (joined ctx d m), (kmodModuleNew pool (d.modname m)).dep, true⟩ rfl rfl
  refine ⟨pool', ?_, hpool', hdep⟩
  unfold kmodModuleParseDepline
  rw [if_neg (by simp [hinit]), if_neg (by simp [hempty])]
  simp only [hdrop, htake, if_neg (Nat.not_le.mpr hdir), hown, hrest]

/-- **Asking for the dependencies of a module**, for the first time or again. -/
theorem PoolOk.getDependencies {searchModdep : CStr → Except Fault (Option CStr)}
    (hsearch : searchModdep (d.modname m) = .ok (some (depLine d m (deps m)))) {pool : Pool}
    (h : PoolOk ctx d deps pool) :
    ∃ pool', kmodModuleGetDependencies ctx searchModdep (d.modname m) pool
        = .ok ((deps m).map d.modname, pool') ∧ PoolOk ctx d deps pool' := by
  unfold kmodModuleGetDependencies
  -- asked before, the list is there; else the line is looked up and read
  cases hinit : (kmodModuleNew pool (d.modname m)).initDep with
  | true =>
    refine ⟨pool, ?_, h⟩
    rw [if_pos rfl, h.dep m hm, hinit]
    rfl
  | false =>
    obtain ⟨pool', hparse, hpool', hdep⟩ := h.parseDepline hd hm hdeps hfits hdir hstat hinit
    refine ⟨pool', ?_, hpool'⟩
    rw [if_neg (by simp), hsearch]
    show (kmodModuleParseDepline _ _ _ _ >>= _) = _
    rw [hparse, ← hdep]
    rfl

end Pool

/-! ## From end to end -/

section EndToEnd

variable [DecidableEq μ] {d : Depmod μ}

/-- Only the module itself was entered under its name. -/
theorem entered_modname {dir : CStr} (hwf : d.WellFormed) (hnamed : Named d dir) {m : μ}
    (hm : m ∈ d.modules) (line : μ → CStr) (priority : μ → UInt32) :
    entered (d.modules.map (fun x => ⟨d.modname x, line x, priority x⟩)) (d.modname m)
      = [⟨priority m, line m⟩] := by
  -- names are distinct, so the filter keeps `m` alone
  have hself : d.modules.filter (fun x => d.modname x = d.modname m) = [m] := by
    have hsame : d.modules.filter (fun x => d.modname x = d.modname m)
        = d.modules.filter (fun x => x == m) := by
      refine List.filter_congr (fun x hx => ?_)
      by_cases hxm : x = m
      · simp [hxm]
      · have hne : d.modname x ≠ d.modname m := fun heq => hxm (hnamed.distinct x hx m hm heq)
        simp [hxm, hne]
    rw [hsame, List.filter_beq, List.count_eq_one_of_mem hwf.nodup hm]
    rfl
  unfold entered
  rw [List.filter_map, List.map_map]
  show ((d.modules.filter (fun x => d.modname x = d.modname m)).map _) = _
  rw [hself]
  rfl

/--
**What depmod writes.** On an acyclic table both files are written, and looking a
module up in `modules.dep.bin` gives its line in `modules.dep`.
-/
theorem modulesDep_written (hwf : d.WellFormed) (hac : d.Acyclic) {dir : CStr}
    (hnamed : Named d dir) (ndebug : Bool) {fuel : Nat} (hfuel : d.modules.length < fuel) :
    ∃ (d' : Depmod μ) (deps : μ → List μ) (entries : List Entry) (root : IndexNode),
      depmodCalculateDependencies d ndebug fuel = .ok ⟨0, d', none⟩ ∧
      (∀ m ∈ d.modules, LoadOrder d m (deps m)) ∧
      outputDeps d' fuel = .ok (d.modules.flatMap (fun m => depLine d m (deps m) ++ cstr "\n")) ∧
      entries = d.modules.map (fun m =>
        ⟨d.modname m, depLine d m (deps m), UInt32.ofNat (d.idx m)⟩) ∧
      insertEntries indexCreate entries = .ok root ∧ Contains root entries ∧
      outputDepsBin d' fuel = .ok (indexWrite root) ∧
      ((indexWrite root).length < 2 ^ 28 → ∃ idx, indexMmOpen (indexWrite root) = .ok idx ∧
        ∀ host, ∀ m ∈ d.modules,
          indexMmSearch host idx (d.modname m) = .ok (some (depLine d m (deps m)))) := by
  obtain ⟨d', deps, hcalc, horder, htext, hmapM⟩ := output_lines hwf hac ndebug hfuel
  have hclean : ∀ e ∈ d.modules.map (fun m =>
      (⟨d.modname m, depLine d m (deps m), UInt32.ofNat (d.idx m)⟩ : Entry)), e.Clean := by
    intro e he
    obtain ⟨m, hm, rfl⟩ := List.mem_map.mp he
    refine hnamed.entry_clean hm (fun x hx => ?_) _
    exact hwf.mem_of_reach hm (((horder m hm).mem x).mp hx).to_reflTransGen
  obtain ⟨root, hinsert, hread⟩ := indexMmSearch_entered hclean
  obtain ⟨root', hinsert', hcont⟩ := insertEntries_contains hclean
  obtain rfl := Except.ok.inj (hinsert'.symm.trans hinsert)
  refine ⟨d', deps, _, root', hcalc, horder, htext, rfl, hinsert, hcont, ?_, fun hlt => ?_⟩
  · unfold outputDepsBin
    rw [hmapM]
    show (insertEntries indexCreate _ >>= _) = _
    rw [hinsert]
    rfl
  · obtain ⟨idx, hopen, hsearch⟩ := hread hlt
    refine ⟨idx, hopen, fun host m hm => ?_⟩
    rw [hsearch, entered_modname hwf hnamed hm]
    rfl

/--
**From the graph to the order of loading.** For every acyclic table with distinct
names and clean paths: depmod calculates the dependencies and writes its files; if
`modules.dep.bin` is smaller than `2 ^ 28` bytes, the mapping answers every name
with the module's line in `modules.dep`; and if the paths fit the buffer of libkmod
and the files exist, the dependencies libkmod reads from the line, whatever was
asked for before, are the modules that can be reached, each once, and each one
behind all modules it depends on.
-/
theorem modulesDep_loadOrder (hwf : d.WellFormed) (hac : d.Acyclic) {dir : CStr}
    (hnamed : Named d dir) (ndebug : Bool) {fuel : Nat} (hfuel : d.modules.length < fuel) :
    ∃ (d' : Depmod μ) (deps : μ → List μ) (file : List UInt8),
      depmodCalculateDependencies d ndebug fuel = .ok ⟨0, d', none⟩ ∧
      outputDeps d' fuel = .ok (d.modules.flatMap (fun m => depLine d m (deps m) ++ cstr "\n")) ∧
      outputDepsBin d' fuel = .ok file ∧
      (∀ m ∈ d.modules, (∀ x, x ∈ deps m ↔ TransGen d.Needs m x) ∧
        ((deps m).map d.modname).Nodup ∧
        ∀ before x after, deps m = before ++ x :: after → ∀ y, TransGen d.Needs x y → y ∈ before) ∧
      (file.length < 2 ^ 28 → ∃ idx, indexMmOpen file = .ok idx ∧
        ∀ host, ∀ m ∈ d.modules,
          indexMmSearch host idx (d.modname m) = .ok (some (depLine d m (deps m))) ∧
          ∀ ctx : ModuleCtx, ctx.dirname.length + 2 < PATH_MAX →
            (∀ x, ReflTransGen d.Needs m x → Fits ctx d x) →
            (∀ x, TransGen d.Needs m x → 0 ≤ ctx.stat (joined ctx d x)) →
            ∀ pool, PoolOk ctx d deps pool →
              ∃ pool', kmodModuleGetDependencies ctx (indexMmSearch host idx) (d.modname m) pool
                  = .ok ((deps m).map d.modname, pool') ∧
                PoolOk ctx d deps pool') := by
  obtain ⟨d', deps, entries, root, hcalc, horder, htext, _, _, _, hbin, hread⟩ :=
    modulesDep_written hwf hac hnamed ndebug hfuel
  -- all that `m` depends on is in the table
  have hmodules : ∀ m ∈ d.modules, ∀ x ∈ deps m, x ∈ d.modules := fun m hm x hx =>
    hwf.mem_of_reach hm (((horder m hm).mem x).mp hx).to_reflTransGen
  refine ⟨d', deps, indexWrite root, hcalc, htext, hbin, fun m hm => ⟨(horder m hm).mem, ?_,
    fun before x after heq => (horder m hm).first heq⟩, fun hlt => ?_⟩
  · refine (horder m hm).nodup.map_on (fun a ha b hb hab => ?_)
    exact hnamed.distinct a (hmodules m hm a ha) b (hmodules m hm b hb) hab
  · obtain ⟨idx, hopen, hsearch⟩ := hread hlt
    refine ⟨idx, hopen, fun host m hm =>
      ⟨hsearch host m hm, fun ctx hdir hfits hstat pool hpool => ?_⟩⟩
    have hreach : ∀ x ∈ deps m, TransGen d.Needs m x := fun x hx => ((horder m hm).mem x).mp hx
    exact hpool.getDependencies hnamed hm (hmodules m hm)
      ⟨hfits m .refl, fun x hx => hfits x (hreach x hx).to_reflTransGen⟩ hdir
      (fun x hx => hstat x (hreach x hx)) (hsearch host m hm)

end EndToEnd

/-! ## Two modules

The smallest table with a dependency, for paths of any length.
-/

/-- Modules `a` and `b`, where `b` needs `a`. -/
def pairTable (path : Fin 2 → CStr) (relpath : Fin 2 → Option CStr) : Depmod (Fin 2) :=
  tableOf 2 ![[], [0]] ![cstr "a", cstr "b"] path relpath

section Pair

variable {path : Fin 2 → CStr} {relpath : Fin 2 → Option CStr}

theorem pair_wellFormed : (pairTable path relpath).WellFormed :=
  tableOf_wellFormed (by decide) (by decide)

theorem pair_needs {x y : Fin 2} : (pairTable path relpath).Needs x y ↔ x = 1 ∧ y = 0 := by
  show y ∈ (![[], [0]] : Fin 2 → List (Fin 2)) x ↔ _
  revert x y
  decide

theorem pair_reach {x y : Fin 2} : TransGen (pairTable path relpath).Needs x y ↔ x = 1 ∧ y = 0 := by
  refine ⟨?_, ?_⟩
  · intro h
    induction h with
    | single h => exact pair_needs.mp h
    | tail _ h ih =>
      rw [pair_needs] at h
      exact absurd (ih.2.symm.trans h.1) (by decide)
  · exact fun h => .single (pair_needs.mpr h)

theorem pair_acyclic : (pairTable path relpath).Acyclic := by
  intro m _ h
  have hboth := pair_reach.mp h
  exact absurd (hboth.1.symm.trans hboth.2) (by decide)

theorem pair_deps {deps : List (Fin 2)}
    (hmem : ∀ x, x ∈ deps ↔ TransGen (pairTable path relpath).Needs 1 x) (hnodup : deps.Nodup) :
    deps = [0] := by
  refine List.perm_singleton.mp ((List.perm_ext_iff_of_nodup hnodup
    (List.nodup_singleton _)).mpr (fun x => ?_))
  rw [hmem, pair_reach]
  simp

/-- The lines of `a` and `b`. -/
def lineA (path : Fin 2 → CStr) (relpath : Fin 2 → Option CStr) : CStr :=
  modGetCompressedPath (pairTable path relpath) 0 ++ cstr ":"

def lineB (path : Fin 2 → CStr) (relpath : Fin 2 → Option CStr) : CStr :=
  modGetCompressedPath (pairTable path relpath) 1 ++ cstr ":" ++
    (cstr " " ++ modGetCompressedPath (pairTable path relpath) 0)

theorem length_indexWrite_two {value other : CStr} (hv : Clean value) (ho : Clean other) :
    (indexWrite (.node twoRoot (twoChildren value other 0 1))).length
      = value.length + other.length + 40 := by
  rw [length_indexWrite (two_ok 0 1 hv ho)]
  show 12 + ((2 + 2 * 4 + 0 + 0) + (byteLen (leafWith _ 0) + (byteLen (leafWith _ 1) + 0))) = _
  rw [byteLen_leafWith, byteLen_leafWith]
  omega

/-- What depmod writes for the two modules. -/
theorem pair_written {dir : CStr} (hnamed : Named (pairTable path relpath) dir) :
    Clean (lineA path relpath) ∧ Clean (lineB path relpath) ∧
    ∃ d', depmodCalculateDependencies (pairTable path relpath) false 3 = .ok ⟨0, d', none⟩ ∧
      outputDepsBin d' 3 = .ok (indexWrite (.node twoRoot
        (twoChildren (lineA path relpath) (lineB path relpath) 0 1))) ∧
      ((lineA path relpath).length + (lineB path relpath).length < 2 ^ 27 →
        ∃ idx, indexMmOpen (indexWrite (.node twoRoot
            (twoChildren (lineA path relpath) (lineB path relpath) 0 1))) = .ok idx ∧
          ∀ host, indexMmSearch host idx (cstr "b") = .ok (some (lineB path relpath))) := by
  obtain ⟨d', deps, entries, root, hcalc, horder, _, hentries, hinsert, _, hbin, hread⟩ :=
    modulesDep_written pair_wellFormed pair_acyclic hnamed false
      (show (List.finRange 2).length < 3 by decide)
  have h0 : deps 0 = [] := (horder 0 (List.mem_finRange _)).eq_nil (fun x hx =>
    absurd (pair_needs.mp hx).1 (by decide))
  have h1 : deps 1 = [0] :=
    pair_deps (horder 1 (List.mem_finRange _)).mem (horder 1 (List.mem_finRange _)).nodup
  have hlineA : depLine (pairTable path relpath) 0 (deps 0) = lineA path relpath := by
    rw [h0, depLine, lineA]
    simp [spacedPaths]
  have hlineB : depLine (pairTable path relpath) 1 (deps 1) = lineB path relpath := by
    rw [h1, depLine, lineB]
    simp [spacedPaths]
  -- these are the entries `a` and `b` of a tree with two leaves
  have htwo : entries = twoEntries (lineA path relpath) (lineB path relpath) 0 1 := by
    rw [hentries]
    show [(⟨_, depLine _ 0 (deps 0), _⟩ : Entry), ⟨_, depLine _ 1 (deps 1), _⟩] = _
    rw [hlineA, hlineB]
    rfl
  have hcleanA : Clean (lineA path relpath) := by
    have hclean := hnamed.entry_clean (List.mem_finRange 0)
      (show ∀ x ∈ deps 0, x ∈ _ from fun x _ => List.mem_finRange x) 0
    exact hlineA ▸ hclean.2
  have hcleanB : Clean (lineB path relpath) := by
    have hclean := hnamed.entry_clean (List.mem_finRange 1)
      (show ∀ x ∈ deps 1, x ∈ _ from fun x _ => List.mem_finRange x) 0
    exact hlineB ▸ hclean.2
  rw [htwo, insertEntries_two 0 1 hcleanA hcleanB] at hinsert
  obtain rfl := Except.ok.inj hinsert
  refine ⟨hcleanA, hcleanB, d', hcalc, hbin, fun hlen => ?_⟩
  obtain ⟨idx, hopen, hsearch⟩ := hread (by rw [length_indexWrite_two hcleanA hcleanB]; omega)
  exact ⟨idx, hopen, fun host => hlineB ▸ hsearch host 1 (List.mem_finRange _)⟩

theorem pair_distinct : ∀ x y : Fin 2,
    (![cstr "a", cstr "b"] : Fin 2 → CStr) x = (![cstr "a", cstr "b"] : Fin 2 →
      CStr) y → x = y := by
  decide

theorem pair_named {dir : CStr}
    (hrel : ∀ m, ∀ rel ∈ relpath m, path m = dir ++ cstr "/" ++ rel)
    (hname : ∀ m, pathToModname (path m) = some ((pairTable path relpath).modname m))
    (hclean : ∀ m, CleanPath (modGetCompressedPath (pairTable path relpath) m)) :
    Named (pairTable path relpath) dir where
  relpath := fun m _ => hrel m
  modname := fun m _ => hname m
  distinct := fun x _ y _ => pair_distinct x y
  clean := fun m _ => hclean m

/--
Depmod writes the file for the two modules and all files exist, but `b` is left
without its dependency.
-/
def DependencyMissed (ctx : ModuleCtx) (path : Fin 2 → CStr)
    (relpath : Fin 2 → Option CStr) : Prop :=
  (pairTable path relpath).WellFormed ∧ (pairTable path relpath).Acyclic ∧
  (∃ dir, Named (pairTable path relpath) dir) ∧ (∀ p, 0 ≤ ctx.stat p) ∧
  (pairTable path relpath).Needs 1 0 ∧
  ∃ d' file idx pool',
    depmodCalculateDependencies (pairTable path relpath) false 3 = .ok ⟨0, d', none⟩ ∧
    outputDepsBin d' 3 = .ok file ∧ indexMmOpen file = .ok idx ∧
    ∀ host, kmodModuleGetDependencies ctx (indexMmSearch host idx) (cstr "b") (fun _ => none)
      = .ok ([], pool')

section Missed

variable {dir : CStr} (hnamed : Named (pairTable path relpath) dir) {ctx : ModuleCtx}
  (hstat : ∀ p, 0 ≤ ctx.stat p)
include hnamed

/-- The line of `b` falls apart into the two paths. -/
theorem lineB_colon :
    (lineB path relpath).takeWhile (· ≠ 58) = modGetCompressedPath (pairTable path relpath) 1 ∧
      (lineB path relpath).dropWhile (· ≠ 58)
        = 58 :: (cstr " " ++ modGetCompressedPath (pairTable path relpath) 0) ∧
      strtok (cstr " " ++ modGetCompressedPath (pairTable path relpath) 0)
        = [modGetCompressedPath (pairTable path relpath) 0] := by
  have hline : depLine (pairTable path relpath) 1 [0] = lineB path relpath := by
    unfold depLine lineB
    simp [spacedPaths]
  have hspaced : spacedPaths (pairTable path relpath) [(0 : Fin 2)].reverse
      = cstr " " ++ modGetCompressedPath (pairTable path relpath) 0 := by
    simp [spacedPaths]
  obtain ⟨htake, hdrop⟩ := depLine_colon hnamed (List.mem_finRange 1) [0]
  have hwords := strtok_spacedPaths hnamed
    (show ∀ x ∈ [(0 : Fin 2)].reverse, x ∈ _ from fun x _ => List.mem_finRange x)
  rw [hline] at htake hdrop
  rw [hspaced] at hdrop hwords
  exact ⟨htake, hdrop, hwords⟩

include hstat

/-- The file is small and the line is found, but it is not read to its end. -/
theorem missed_of_parseDepline
    (hlen : (lineA path relpath).length + (lineB path relpath).length < 2 ^ 27) (pool' : Pool)
    (hparse : kmodModuleParseDepline ctx (cstr "b") (lineB path relpath) (fun _ => none) = .ok pool')
    (hdep : (kmodModuleNew pool' (cstr "b")).dep = []) : DependencyMissed ctx path relpath := by
  obtain ⟨_, _, d', hcalc, hbin, hread⟩ := pair_written hnamed
  obtain ⟨idx, hopen, hsearch⟩ := hread hlen
  refine ⟨pair_wellFormed, pair_acyclic, ⟨dir, hnamed⟩, hstat, pair_needs.mpr ⟨rfl, rfl⟩,
    d', _, idx, pool', hcalc, hbin, hopen, fun host => ?_⟩
  unfold kmodModuleGetDependencies
  rw [kmodModuleNew_empty, if_neg (by decide), hsearch]
  show (kmodModuleParseDepline _ _ _ _ >>= _) = _
  rw [hparse, ← hdep]
  rfl

/-- The directory of the context leaves no room in the buffer. -/
theorem missed_of_dirname
    (hlen : (lineA path relpath).length + (lineB path relpath).length < 2 ^ 27)
    (hdir : PATH_MAX ≤ ctx.dirname.length + 2) : DependencyMissed ctx path relpath := by
  refine missed_of_parseDepline hnamed hstat hlen (Function.update (fun _ => none) (cstr "b")
    (some ⟨none, [], true⟩)) ?_ (by rw [kmodModuleNew_update_self])
  unfold kmodModuleParseDepline
  rw [kmodModuleNew_empty, if_neg (by simp), if_neg (by simp)]
  simp only [(lineB_colon hnamed).2.1, if_pos (show ctx.dirname.length + 2 ≥ PATH_MAX from hdir)]

/-- The path of `a` does not fit behind the directory. -/
theorem missed_of_pathJoin
    (hlen : (lineA path relpath).length + (lineB path relpath).length < 2 ^ 27)
    (hdir : ctx.dirname.length + 2 < PATH_MAX) (hb : Fits ctx (pairTable path relpath) 1)
    (ha : pathJoin ctx (modGetCompressedPath (pairTable path relpath) 0) = none) :
    DependencyMissed ctx path relpath := by
  obtain ⟨htake, hdrop, hwords⟩ := lineB_colon hnamed
  refine missed_of_parseDepline hnamed hstat hlen (parseDeplineRest ctx (cstr "b")
    ⟨some (joined ctx (pairTable path relpath) 1), [], true⟩
    (cstr " " ++ modGetCompressedPath (pairTable path relpath) 0) (fun _ => none)) ?_ ?_
  -- the path of `b` itself is fine
  · have hown : ownPath ctx ⟨none, [], true⟩ (modGetCompressedPath (pairTable path relpath) 1)
        = some (joined ctx (pairTable path relpath) 1) := pathJoin_fits hb
    unfold kmodModuleParseDepline
    rw [kmodModuleNew_empty, if_neg (by simp), if_neg (by simp)]
    simp only [hdrop, htake, if_neg (Nat.not_le.mpr hdir), hown]
  · unfold parseDeplineRest
    rw [hwords, parseDeps, ha]
    simp only [Function.update_self, Option.map_some]
    rw [kmodModuleNew_update_self]

/-- The line of `a` fills the file up to `2 ^ 28`. -/
theorem missed_of_large (hlenA : (lineA path relpath).length = 2 ^ 28 - 31)
    (hlenB : (lineB path relpath).length < 2 ^ 31) : DependencyMissed ctx path relpath := by
  obtain ⟨hcleanA, hcleanB, d', hcalc, hbin, _⟩ := pair_written hnamed
  obtain ⟨idx, x, hopen, hroot, hpfx, hnone⟩ := two_readRoot 0 1 hcleanA hcleanB hlenA hlenB
  refine ⟨pair_wellFormed, pair_acyclic, ⟨dir, hnamed⟩, hstat, pair_needs.mpr ⟨rfl, rfl⟩,
    d', _, idx, fun _ => none, hcalc, hbin, hopen, fun host => ?_⟩
  -- the root shows no child for `b`
  have hsearch : indexMmSearch host idx (cstr "b") = .ok none := by
    unfold indexMmSearch
    rw [hroot]
    show searchNode _ _ x x.pfx [98] = _
    rw [hpfx, searchNode, Reader.withChild, show (mmReader idx).readchild x 98 = .ok none from
      hnone 98 (by decide)]
    rfl
  unfold kmodModuleGetDependencies
  rw [kmodModuleNew_empty, if_neg (by decide), hsearch]
  rfl

end Missed

end Pair

/-- The modules directory `/m` with all files. -/
def smallCtx : ModuleCtx := ⟨cstr "/m", rfl, cstr "/", fun _ => 0⟩

/-- Both modules in `/m`, and the order in which libkmod is told to load what `b` needs. -/
theorem modulesDep_loadOrder_pair : ∃ d' file idx pool',
    depmodCalculateDependencies (pairTable ![cstr "/m/a.ko", cstr "/m/b.ko"]
      ![some (cstr "a.ko"), some (cstr "b.ko")]) false 3 = .ok ⟨0, d', none⟩ ∧
    outputDepsBin d' 3 = .ok file ∧ indexMmOpen file = .ok idx ∧
    kmodModuleGetDependencies smallCtx (indexMmSearch littleHost idx) (cstr "b") (fun _ => none)
      = .ok ([cstr "a"], pool') := by
  have hnamed : Named (pairTable ![cstr "/m/a.ko", cstr "/m/b.ko"]
      ![some (cstr "a.ko"), some (cstr "b.ko")]) (cstr "/m") :=
    pair_named (by decide) (by decide) (by decide)
  obtain ⟨hcleanA, hcleanB, d₁, hcalc₁, hbin₁, _⟩ := pair_written hnamed
  obtain ⟨d', deps, file, hcalc, _, hbin, hdeps, hread⟩ := modulesDep_loadOrder pair_wellFormed
    pair_acyclic hnamed false (show (List.finRange 2).length < 3 by decide)
  obtain rfl : d₁ = d' := by simpa using hcalc₁.symm.trans hcalc
  obtain rfl := Except.ok.inj (hbin₁.symm.trans hbin)
  obtain ⟨idx, hopen, hget⟩ := hread (by rw [length_indexWrite_two hcleanA hcleanB]; decide)
  obtain ⟨hmem, hnodup, _⟩ := hdeps 1 (List.mem_finRange _)
  obtain ⟨pool', hpool', _⟩ := (hget littleHost 1 (List.mem_finRange _)).2 smallCtx
    (by decide) (fun x _ => .inr (by clear * - x; revert x; decide))
      (fun x _ => le_rfl) _ poolOk_empty
  rw [pair_deps hmem hnodup.of_map] at hpool'
  exact ⟨d₁, _, idx, pool', hcalc, hbin, hopen, hpool'⟩

/-- The path `/x/x/…/x`. -/
def deep (n : Nat) : CStr := (List.replicate n (cstr "/x")).flatten

theorem length_deep (n : Nat) : (deep n).length = 2 * n := by
  induction n with
  | zero => rfl
  | succ n ih =>
    unfold deep
    rw [List.replicate_succ, List.flatten_cons, List.length_append]
    show 2 + (deep n).length = _
    omega

theorem mem_deep {n : Nat} {c : UInt8} (h : c ∈ deep n) : c = 47 ∨ c = 120 := by
  obtain ⟨l, hl, hc⟩ := List.mem_flatten.mp h
  rw [List.eq_of_mem_replicate hl] at hc
  simpa [cstr] using hc

theorem deep_clean {n : Nat} {q : CStr} (hq : CleanPath q) : CleanPath (deep n ++ q) := by
  intro c hc
  rcases List.mem_append.mp hc with hc | hc
  · rcases mem_deep hc with rfl | rfl <;> decide
  · exact hq c hc

/-- The directory of depmod is `/m`, and `a` is deep below it. -/
theorem deepRelative_named (n : Nat) :
    Named (pairTable ![cstr "/m/xx" ++ (deep n ++ cstr "/a.ko"), cstr "/m/b.ko"]
      ![some (cstr "xx" ++ (deep n ++ cstr "/a.ko")), some (cstr "b.ko")]) (cstr "/m") := by
  refine pair_named (Fin.forall_fin_two.mpr ⟨?_, ?_⟩) (Fin.forall_fin_two.mpr ⟨?_, rfl⟩)
    (Fin.forall_fin_two.mpr ⟨?_, show CleanPath (cstr "b.ko") by decide⟩)
  · rintro rel hrel
    obtain rfl := Option.some.inj hrel
    rfl
  · rintro rel hrel
    obtain rfl := Option.some.inj hrel
    rfl
  · show pathToModname (cstr "/m/xx" ++ (deep n ++ 47 :: cstr "a.ko")) = some (cstr "a")
    rw [← List.append_assoc, pathToModname_append]
    rfl
  · show CleanPath (cstr "xx" ++ (deep n ++ cstr "/a.ko"))
    intro c hc
    rcases List.mem_append.mp hc with hc | hc
    · exact (show CleanPath (cstr "xx") by decide) c hc
    · exact deep_clean (by decide) c hc

/-- Nothing is below the directory of depmod, and `a` is deep. -/
theorem deepAbsolute_named (n : Nat) :
    Named (pairTable ![deep n ++ cstr "/a.ko.xz", cstr "/b.ko"] ![none, none]) (cstr "/m") := by
  refine pair_named (Fin.forall_fin_two.mpr ⟨fun _ => nofun, fun _ => nofun⟩)
    (Fin.forall_fin_two.mpr ⟨?_, rfl⟩)
    (Fin.forall_fin_two.mpr ⟨deep_clean (by decide), show CleanPath (cstr "/b.ko") by decide⟩)
  show pathToModname (deep n ++ 47 :: cstr "a.ko.xz") = some (cstr "a")
  rw [pathToModname_append]
  rfl

theorem deepRelative_missed {n : Nat} (hn : 2043 ≤ n) (hn' : n < 2 ^ 20) :
    DependencyMissed smallCtx ![cstr "/m/xx" ++ (deep n ++ cstr "/a.ko"), cstr "/m/b.ko"]
      ![some (cstr "xx" ++ (deep n ++ cstr "/a.ko")), some (cstr "b.ko")] := by
  have hlen : (cstr "xx" ++ (deep n ++ cstr "/a.ko")).length = 2 * n + 7 := by
    rw [List.length_append, List.length_append, length_deep]
    show 2 + (2 * n + 5) = _
    omega
  refine missed_of_pathJoin (deepRelative_named n) (fun _ => le_rfl) ?_ (by decide)
    (.inr (show 2 + 1 + 4 + 1 < 4096 by decide)) ?_
  · unfold lineA lineB
    rw [List.length_append, List.length_append, List.length_append, List.length_append]
    show List.length (cstr "xx" ++ (deep n ++ cstr "/a.ko")) + 1
      + (4 + 1 + (1 + List.length (cstr "xx" ++ (deep n ++ cstr "/a.ko")))) < _
    omega
  · show pathJoin smallCtx (cstr "xx" ++ (deep n ++ cstr "/a.ko")) = none
    unfold pathJoin
    rw [if_neg nofun]
    exact if_pos (show 4096 ≤ 2 + 1 + (cstr "xx" ++ (deep n ++ cstr "/a.ko")).length + 1 by omega)

theorem deepAbsolute_missed {n : Nat} (hn : n = 2 ^ 27 - 20) :
    DependencyMissed smallCtx ![deep n ++ cstr "/a.ko.xz", cstr "/b.ko"] ![none, none] := by
  have hlen : (deep n ++ cstr "/a.ko.xz").length = 2 * n + 8 := by
    rw [List.length_append, length_deep]
    rfl
  refine missed_of_large (deepAbsolute_named n) (fun _ => le_rfl) ?_ ?_
  · unfold lineA
    rw [List.length_append]
    show (deep n ++ cstr "/a.ko.xz").length + 1 = _
    omega
  · unfold lineB
    rw [List.length_append, List.length_append, List.length_append]
    show 5 + 1 + (1 + (deep n ++ cstr "/a.ko.xz").length) < _
    omega

/--
Three ways to lose a dependency: its path is longer than `PATH_MAX` allows, the file
grows past `2 ^ 28` bytes, or the modules directory has no room for another
character, although no path is below it.
-/
theorem modulesDep_limits :
    DependencyMissed smallCtx ![cstr "/m/xx" ++ (deep 2043 ++ cstr "/a.ko"), cstr "/m/b.ko"]
      ![some (cstr "xx" ++ (deep 2043 ++ cstr "/a.ko")), some (cstr "b.ko")] ∧
    DependencyMissed smallCtx ![deep (2 ^ 27 - 20) ++ cstr "/a.ko.xz", cstr "/b.ko"] ![none, none] ∧
    ∃ ctx : ModuleCtx, ctx.dirname = deep 2047 ∧
      DependencyMissed ctx ![cstr "/a.ko", cstr "/b.ko"] ![none, none] := by
  refine ⟨deepRelative_missed le_rfl (by decide), deepAbsolute_missed rfl,
    ⟨deep 2047, rfl, cstr "/", fun _ => 0⟩, rfl, ?_⟩
  have hnamed : Named (pairTable ![cstr "/a.ko", cstr "/b.ko"] ![none, none]) (cstr "/m") :=
    pair_named (by decide) (by decide) (by decide)
  refine missed_of_dirname hnamed (fun _ => le_rfl) (by decide) ?_
  show 4096 ≤ (deep 2047).length + 2
  rw [length_deep]

end Kmod
