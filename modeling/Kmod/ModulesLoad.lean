import Kmod.Depmod.Symbols
import Kmod.Libkmod.ProbeOutcome
import Kmod.ModulesDep

/-!
# From the symbols to a loaded module

The kernel does not know which module has which symbol: it refuses a module unless all
symbols it needs are there already. What makes `modprobe` work is a chain of four parts.
depmod enters the symbols, turns those a module needs into dependencies and writes
`modules.dep.bin`; libkmod reads the dependencies from the file, builds the list of modules
to probe and inserts them one after the other.

Here the chain is put together (`modprobe_loads`). The kernel stands at its end as a
parameter, with what it does about symbols (`LinkingKernel`). The list has every module
behind its hard dependencies (`Runs.placed`), so each one that is required finds the owners
of its symbols loaded when its turn comes, whatever has happened to the soft dependencies in
between.
-/

namespace Kmod.ModulesLoad

open Relation Index Depmod Symbols

variable {μ : Type}

/-! ## The kernel and the modules -/

/-- The key that a symbol of the kernel is entered under. -/
def kernelKey (cfg : Symbols.Cfg) (sym : KernelSymbol) : CStr :=
  if sym.prefixSkipped then sym.name else kadd cfg sym.name

/-- What depmod is given: its options, the symbols of the kernel, and the table of modules with
their files. -/
structure Build (μ : Type) where
  cfg : Symbols.Cfg
  kernel : List KernelSymbol
  file : μ → ModuleFile
  d : Depmod μ

/-- There is a symbol for the key: in the kernel, or in a module that is loaded. -/
def Resolved (b : Build μ) (loaded : Kernel) (key : CStr) : Prop :=
  (∃ sym ∈ b.kernel, kernelKey b.cfg sym = key) ∨
    ∃ y ∈ b.d.modules, b.d.modname y ∈ loaded ∧ Exports b.cfg b.file key y

instance (b : Build μ) (loaded : Kernel) (key : CStr) : Decidable (Resolved b loaded key) :=
  inferInstanceAs (Decidable ((∃ sym ∈ b.kernel, _) ∨ ∃ y ∈ b.d.modules, _ ∧ _))

/-- A module can be linked: what it needs is there, unless it is weak, and what it exports is
not. -/
structure Linkable (b : Build μ) (loaded : Kernel) (x : μ) : Prop where
  needs : ∀ need ∈ (b.file x).dependencySymbols, need.isWeak = true ∨
    Resolved b loaded (kfind b.cfg need.name)
  exports : ∀ e ∈ (b.file x).exportedNames, ¬ Resolved b loaded (kadd b.cfg e)

instance (b : Build μ) (loaded : Kernel) (x : μ) : Decidable (Linkable b loaded x) :=
  decidable_of_iff ((∀ need ∈ (b.file x).dependencySymbols, need.isWeak = true ∨
      Resolved b loaded (kfind b.cfg need.name)) ∧
    ∀ e ∈ (b.file x).exportedNames, ¬ Resolved b loaded (kadd b.cfg e))
    ⟨fun h => ⟨h.1, h.2⟩, fun h => ⟨h.needs, h.exports⟩⟩

/-- A kernel keeps the modules it has, and knows them; nor does a command for a soft dependency
unload any. -/
structure Keeps {M : Type} (ctx : InsertCtx M) : Prop where
  loaded : ∀ m flags options kernel, ctx.name m ∈ kernel →
    ctx.insertModule m flags options kernel = (-EEXIST, kernel)
  keeps : ∀ m flags options kernel, kernel ⊆ (ctx.insertModule m flags options kernel).2
  keepsCommands : ∀ m options kernel, kernel ⊆ (ctx.doInstallCommands m options kernel).2

/-- What is known of the kernel behind a context. A module that cannot be linked may fail in any
way. -/
structure LinkingKernel {M : Type} (b : Build μ) (ctx : InsertCtx M) : Prop extends Keeps ctx where
  links : ∀ m flags options kernel, ∀ x ∈ b.d.modules, ctx.name m = b.d.modname x →
    ctx.name m ∉ kernel → Linkable b kernel x →
      ctx.insertModule m flags options kernel = (0, insert (ctx.name m) kernel)

/-- A module needs a symbol that another one owns. -/
def Build.Owes [DecidableEq μ] (b : Build μ) (x y : μ) : Prop :=
  x ∈ b.d.modules ∧ y ∈ neededOwners b.cfg b.file b.d.modules x

/-- The modules fit together: every symbol has one place, and none that is needed is missing. -/
structure Sound [DecidableEq μ] (b : Build μ) (dir : CStr) : Prop where
  count_lt : b.d.modules.length < UINT16_MAX
  idx_eq : ∀ i m, b.d.modules[i]? = some m → b.d.idx m = i
  named : Named b.d dir
  kernelNames : ∀ sym ∈ b.kernel, sym.name ≠ []
  exportedNames : ∀ x ∈ b.d.modules, ∀ e ∈ (b.file x).exportedNames, e ≠ []
  neededNames : ∀ x ∈ b.d.modules, ∀ n ∈ (b.file x).neededNames, n ≠ [] ∧ n ≠ cstr "."
  present : ∀ x ∈ b.d.modules, ∀ need ∈ (b.file x).dependencySymbols, need.isWeak = true ∨
    (∃ sym ∈ b.kernel, kernelKey b.cfg sym = kfind b.cfg need.name) ∨
      ∃ y ∈ b.d.modules, Exports b.cfg b.file (kfind b.cfg need.name) y
  unique : ∀ x ∈ b.d.modules, ∀ e ∈ (b.file x).exportedNames,
    (∀ sym ∈ b.kernel, kernelKey b.cfg sym ≠ kadd b.cfg e) ∧
      ∀ y ∈ b.d.modules, Exports b.cfg b.file (kadd b.cfg e) y → y = x
  acyclic : ∀ x, ¬ TransGen b.Owes x x

/-- What libkmod's context takes from the file: the dependencies of a module object are those that
`kmod_module_get_dependencies` reads, and their objects are found by name. -/
structure ReadsDeps {M : Type} (host : Host) (d : Depmod μ) (idx : IndexMm) (mctx : ModuleCtx)
    (ctx : InsertCtx M) : Prop where
  dirname_lt : mctx.dirname.length + 2 < PATH_MAX
  fits : ∀ x ∈ d.modules, Fits mctx d x
  stat : ∀ x ∈ d.modules, 0 ≤ mctx.stat (joined mctx d x)
  dep : ∀ m, ∃ pool', kmodModuleGetDependencies mctx (indexMmSearch host idx) (ctx.name m)
    (fun _ => none) = .ok ((ctx.dep m).map ctx.name, pool')
  objects : ∀ a c x y, x ∈ ctx.dep a → y ∈ ctx.dep c → ctx.name x = ctx.name y → x = y

/-- A run that inserts modules: not a dry one, not one for the first time only, and without the
blacklist. -/
structure Plain (flags : Nat) : Prop where
  dryRun : hasFlag flags KMOD_PROBE_DRY_RUN = false
  failOnLoaded : hasFlag flags KMOD_PROBE_FAIL_ON_LOADED = false
  blacklistAll : hasFlag flags KMOD_PROBE_APPLY_BLACKLIST_ALL = false

/-! ## The loop -/

section Loop

variable {M : Type} [DecidableEq M] {ctx : InsertCtx M} {mod : M} {flags : Nat}
  {extraOptions : Option CStr} {s : ProbeState M}

/-- With its hard dependencies loaded, a module that is not loaded can be inserted. -/
def Loads (ctx : InsertCtx M) (m : M) : Prop :=
  ctx.installCommands m = none ∧ ∀ flags options kernel, (∀ y ∈ ctx.dep m, ctx.name y ∈ kernel) →
    ctx.name m ∉ kernel → ctx.insertModule m flags options kernel = (0, insert (ctx.name m) kernel)

theorem probeModule_keeps (hkeeps : Keeps ctx) (mod : M) (flags : Nat)
    (extraOptions : Option CStr) (s : ProbeState M) (m : M) (err : Int) (kernel : Kernel) :
    kernel ⊆ (probeModule ctx mod flags extraOptions s m err kernel).2 := by
  unfold probeModule
  dsimp only
  split
  · exact Finset.Subset.refl _
  · split
    · exact Finset.Subset.refl _
    · split
      · exact hkeeps.keepsCommands ..
      · exact hkeeps.keeps ..

/-- One round for a module whose dependencies are loaded: it is loaded already, or then. -/
theorem probeModule_loads (hkeeps : Keeps ctx) (hflags : Plain flags) (mod : M)
    (extraOptions : Option CStr) (s : ProbeState M) {m : M} (hm : Loads ctx m) {kernel : Kernel}
    (hdep : ∀ y ∈ ctx.dep m, ctx.name y ∈ kernel) (err : Int) :
    (probeModule ctx mod flags extraOptions s m err kernel).1 ∈ [-EEXIST, 0] ∧
      ctx.name m ∈ (probeModule ctx mod flags extraOptions s m err kernel).2 := by
  unfold probeModule
  by_cases hin : ctx.name m ∈ kernel
  · -- it is skipped, or the kernel says so
    split
    · exact ⟨List.mem_cons_self .., hin⟩
    · rw [hflags.dryRun, hm.1]
      simp [hkeeps.loaded m _ _ kernel hin, hin]
  · rw [if_neg (by simp [moduleIsInkernel, hin]), hflags.dryRun, hm.1]
    simp [hm.2 _ _ kernel hdep hin]

/--
**The loop loads what is required.** The list has hard dependencies first; `done` is what the
loop has gone through.
-/
theorem probeModules_loads (hkeeps : Keeps ctx) (hflags : Plain flags) (mod : M)
    (extraOptions : Option CStr)
    (hloads : ∀ r, s.required r = true → Loads ctx r)
    (hclosed : ∀ r, s.required r = true → ∀ y ∈ ctx.dep r, s.required y = true)
    (list : List M) (done : List M) (hplaced : Placed ctx.dep (done ++ list)) (kernel : Kernel)
    (hdone : ∀ r ∈ done, s.required r = true → ctx.name r ∈ kernel) :
    ∃ kernel', probeModules ctx mod flags extraOptions s list 0 kernel = (0, kernel') ∧
      kernel ⊆ kernel' ∧ ∀ r ∈ done ++ list, s.required r = true → ctx.name r ∈ kernel' := by
  induction list generalizing done kernel with
  | nil =>
    refine ⟨kernel, rfl, Finset.Subset.refl _, ?_⟩
    rw [List.append_nil]
    exact hdone
  | cons m list ih =>
    have hkept := probeModule_keeps hkeeps mod flags extraOptions s m 0 kernel
    -- the loop goes on, with no error and with the module loaded if it is required
    have hgo : ∀ {err kernel₁},
        probeModule ctx mod flags extraOptions s m 0 kernel = (err, kernel₁) →
        (s.required m = true → (err = -EEXIST ∨ err = 0) ∧ ctx.name m ∈ kernel₁) ∧
        probeModules ctx mod flags extraOptions s (m :: list) 0 kernel
          = probeModules ctx mod flags extraOptions s list 0 kernel₁ := by
      intro err kernel₁ hround
      have hreq : s.required m = true → (err = -EEXIST ∨ err = 0) ∧ ctx.name m ∈ kernel₁ := by
        intro hr
        have hdeps : ∀ y ∈ ctx.dep m, ctx.name y ∈ kernel := fun y hy =>
          hdone y (hplaced rfl hy) (hclosed m hr y hy)
        obtain ⟨herr, hin⟩ :=
          probeModule_loads hkeeps hflags mod extraOptions s (hloads m hr) hdeps 0
        rw [hround] at herr hin
        exact ⟨by simpa using herr, hin⟩
      refine ⟨hreq, ?_⟩
      rw [probeModules, hround]
      simp only
      rw [if_neg (fun h => Bool.false_ne_true (hflags.failOnLoaded ▸ h.2.2))]
      cases hr : s.required m with
      | false => rw [if_pos (.inr rfl)]
      | true =>
        rcases (hreq hr).1 with rfl | rfl
        · rw [if_pos (.inl rfl)]
        · rw [if_neg (by decide), if_neg (by decide)]
    obtain ⟨err, kernel₁, hround⟩ : ∃ err kernel₁,
        probeModule ctx mod flags extraOptions s m 0 kernel = (err, kernel₁) := ⟨_, _, rfl⟩
    obtain ⟨hreq, hrest⟩ := hgo hround
    rw [hround] at hkept
    have hplaced' : Placed ctx.dep ((done ++ [m]) ++ list) := by
      rw [List.append_assoc]
      exact @hplaced
    obtain ⟨kernel', hloop, hsub, hall⟩ := ih (done ++ [m]) @hplaced' kernel₁ (by
      intro r hr hrequired
      rcases List.mem_append.mp hr with hr | hr
      · exact hkept (hdone r hr hrequired)
      · obtain rfl := List.mem_singleton.mp hr
        exact (hreq hrequired).2)
    exact ⟨kernel', hrest.trans hloop, hkept.trans hsub, by simpa using hall⟩

/-- **A probe of a module with loadable dependencies** loads them all. -/
theorem kmodModuleProbeInsertModule_loads [Fintype M] (hkeeps : Keeps ctx) (hflags : Plain flags)
    (extraOptions : Option CStr) (hdep : DepsFirst ctx.dep)
    (hloads : ∀ r ∈ ctx.required mod, Loads ctx r)
    (hblack : blacklistedResult ctx mod flags = none) (s : ProbeState M) (kernel : Kernel) :
    ∃ kernel', (∀ fuel ≥ 2 * Fintype.card M + 1,
        kmodModuleProbeInsertModule ctx fuel mod flags extraOptions s kernel = .ok (0, kernel')) ∧
      kernel ⊆ kernel' ∧ ctx.name mod ∈ kernel' ∧
      ((hasFlag flags KMOD_PROBE_IGNORE_LOADED = true ∨ ctx.name mod ∉ kernel) →
        ∀ y ∈ ctx.dep mod, ctx.name y ∈ kernel') := by
  unfold kmodModuleProbeInsertModule
  by_cases hearly : (!hasFlag flags KMOD_PROBE_IGNORE_LOADED &&
      moduleIsInkernel ctx kernel mod) = true
  · have hin := hearly
    simp only [Bool.and_eq_true, Bool.not_eq_true', moduleIsInkernel, decide_eq_true_eq] at hin
    refine ⟨kernel, fun fuel _ => ?_, Finset.Subset.refl _, hin.2, fun h => ?_⟩
    · rw [if_pos hearly, hflags.failOnLoaded]
      rfl
    · rcases h with h | h
      · exact absurd (hin.1.symm.trans h) Bool.false_ne_true
      · exact absurd hin.2 h
  · obtain ⟨s', hrun, hlist⟩ := kmodModuleGetProbeList_runs ctx.toProbeCtx mod
      (hasFlag flags KMOD_PROBE_IGNORE_COMMAND) s
    have hplaced : Placed ctx.dep s'.list := hrun.placed hdep trivial (by
      intro before x after heq
      exact absurd heq (by simp [ProbeState.reset]))
    have hrequired := hrun.required_iff
    obtain ⟨kernel', hloop, hsub, hall⟩ := probeModules_loads hkeeps hflags mod extraOptions
      (fun r hr => hloads r ((hrequired r).mp hr))
      (fun r hr y hy => by
        rw [hrequired] at hr ⊢
        -- the lists of hard dependencies are closed
        rcases List.mem_cons.mp hr with rfl | hr
        · exact List.mem_cons_of_mem _ hy
        · exact List.mem_cons_of_mem _ (hdep.closed mod r hr hy))
      s'.list [] hplaced kernel (fun r hr => absurd hr List.not_mem_nil)
    have hin : ∀ r ∈ ctx.required mod, ctx.name r ∈ kernel' := fun r hr =>
      hall r (hrun.required_subset rfl hr) ((hrequired r).mpr hr)
    refine ⟨kernel', fun fuel hfuel => ?_, hsub, hin mod (List.mem_cons_self ..),
      fun _ y hy => hin y (List.mem_cons_of_mem _ hy)⟩
    rw [if_neg hearly, hblack]
    show (kmodModuleGetProbeList ctx.toProbeCtx fuel mod _ s >>= _) = _
    rw [hlist fuel hfuel, ← hloop]
    show Except.ok (probeFiltered ctx mod flags extraOptions s' kernel) = _
    rw [probeFiltered, hflags.blacklistAll]
    rfl

end Loop

/-! ## What the context reads from the file -/

section Reads

variable {d : Depmod μ} {dir : CStr}

/-- The dependencies of the module objects, as the table has them. -/
structure TableDeps {M : Type} (d : Depmod μ) (deps : μ → List μ) (ctx : InsertCtx M) : Prop where
  known : ∀ m, ∀ x ∈ d.modules, ctx.name m = d.modname x →
    (ctx.dep m).map ctx.name = (deps x).map d.modname
  unknown : ∀ m, (∀ x ∈ d.modules, ctx.name m ≠ d.modname x) → ctx.dep m = []

variable {M : Type} {ctx : InsertCtx M} {deps : μ → List μ}

variable [DecidableEq μ]

/-- A list in the order of loading leads to module objects in that order. -/
theorem TableDeps.depsFirst (hwf : d.WellFormed) (hctx : TableDeps d deps ctx)
    (horder : ∀ x ∈ d.modules, LoadOrder d x (deps x))
    (hobjects : ∀ a c x y, x ∈ ctx.dep a → y ∈ ctx.dep c → ctx.name x = ctx.name y → x = y) :
    DepsFirst ctx.dep := by
  have hmem : ∀ x ∈ d.modules, ∀ y ∈ deps x, y ∈ d.modules := fun x hx y hy =>
    hwf.mem_of_reach hx (((horder x hx).mem y).mp hy).to_reflTransGen
  -- an object with dependencies is one of the table
  have htable : ∀ {m y}, y ∈ ctx.dep m → ∃ x ∈ d.modules, ctx.name m = d.modname x := by
    intro m y hy
    by_contra hno
    have hnil := hctx.unknown m (fun x hx heq => hno ⟨x, hx, heq⟩)
    rw [hnil] at hy
    exact absurd hy List.not_mem_nil
  -- and so is the object of a dependency
  have hdep : ∀ {m x y}, x ∈ d.modules → ctx.name m = d.modname x → y ∈ ctx.dep m →
      ∃ v ∈ deps x, ctx.name y = d.modname v := by
    intro m x y hx hname hy
    have hin : ctx.name y ∈ (deps x).map d.modname := by
      rw [← hctx.known m x hx hname]
      exact List.mem_map_of_mem hy
    obtain ⟨v, hv, heq⟩ := List.mem_map.mp hin
    exact ⟨v, hv, heq.symm⟩
  refine ⟨fun m y hy z hz => ?_, fun {m before y after} heq z hz => ?_⟩
  · obtain ⟨x, hx, hname⟩ := htable hy
    obtain ⟨v, hv, hyv⟩ := hdep hx hname hy
    obtain ⟨w, hw, hzw⟩ := hdep (hmem x hx v hv) hyv hz
    have hreach : w ∈ deps x := ((horder x hx).mem w).mpr
      ((((horder x hx).mem v).mp hv).trans (((horder v (hmem x hx v hv)).mem w).mp hw))
    have hin : ctx.name z ∈ (ctx.dep m).map ctx.name := by
      rw [hctx.known m x hx hname, hzw]
      exact List.mem_map_of_mem hreach
    obtain ⟨z', hz', hsame⟩ := List.mem_map.mp hin
    exact hobjects m y z' z hz' hz hsame ▸ hz'
  · have hy : y ∈ ctx.dep m := by
      rw [heq]
      exact List.mem_append_right _ (List.mem_cons_self ..)
    obtain ⟨x, hx, hname⟩ := htable hy
    -- the table's list falls apart at the same place
    have hsplit := hctx.known m x hx hname
    rw [heq, List.map_append, List.map_cons] at hsplit
    obtain ⟨pre, rest, hdeps, hpre, hrest⟩ := List.map_eq_append_iff.mp hsplit.symm
    obtain ⟨v, post, rfl, hyv, -⟩ := List.map_eq_cons_iff.mp hrest
    have hv : v ∈ deps x := by
      rw [hdeps]
      exact List.mem_append_right _ (List.mem_cons_self ..)
    obtain ⟨w, hw, hzw⟩ := hdep (hmem x hx v hv) hyv.symm hz
    have hbefore : w ∈ pre := (horder x hx).first hdeps w
      (((horder v (hmem x hx v hv)).mem w).mp hw)
    have hin : ctx.name z ∈ before.map ctx.name := by
      rw [← hpre, hzw]
      exact List.mem_map_of_mem hbefore
    obtain ⟨z', hz', hsame⟩ := List.mem_map.mp hin
    have hz'm : z' ∈ ctx.dep m := by
      rw [heq]
      exact List.mem_append_left _ hz'
    exact hobjects m y z' z hz'm hz hsame ▸ hz'

/-- **What depmod writes is what the context reads.** -/
theorem tableDeps_written (hwf : d.WellFormed) (hac : d.Acyclic) (hnamed : Named d dir)
    (ndebug : Bool) {fuel : Nat} (hfuel : d.modules.length < fuel) :
    ∃ (d' : Depmod μ) (bin : List UInt8) (deps : μ → List μ),
      depmodCalculateDependencies d ndebug fuel = .ok ⟨0, d', none⟩ ∧
      outputDepsBin d' fuel = .ok bin ∧ (∀ x ∈ d.modules, LoadOrder d x (deps x)) ∧
      (bin.length < 2 ^ 28 → ∃ idx, indexMmOpen bin = .ok idx ∧
        ∀ {M : Type} (host : Host) (mctx : ModuleCtx) (ctx : InsertCtx M),
          ReadsDeps host d idx mctx ctx →
          TableDeps d deps ctx) := by
  obtain ⟨d', deps, entries, root, hcalc, horder, -, hentries, hinsert, -, hbin, hread⟩ :=
    modulesDep_written hwf hac hnamed ndebug hfuel
  have hmem : ∀ x ∈ d.modules, ∀ y ∈ deps x, y ∈ d.modules := fun x hx y hy =>
    hwf.mem_of_reach hx (((horder x hx).mem y).mp hy).to_reflTransGen
  have hclean : ∀ e ∈ entries, e.Clean := by
    intro e he
    rw [hentries] at he
    obtain ⟨m, hm, rfl⟩ := List.mem_map.mp he
    exact hnamed.entry_clean hm (hmem m hm) _
  refine ⟨d', indexWrite root, deps, hcalc, hbin, horder, fun hlt => ?_⟩
  obtain ⟨idx, hopen, hsearch⟩ := hread hlt
  obtain ⟨root', hinsert', hread'⟩ := indexMmSearch_entered hclean
  obtain rfl := Except.ok.inj (hinsert'.symm.trans hinsert)
  obtain ⟨idx', hopen', hall⟩ := hread' hlt
  obtain rfl := Except.ok.inj (hopen'.symm.trans hopen)
  refine ⟨idx', hopen', fun host mctx ctx hreads => ⟨fun m x hx hname => ?_, fun m hno => ?_⟩⟩
  · obtain ⟨pool', hget⟩ := hreads.dep m
    obtain ⟨pool'', hget', -⟩ := ((poolOk_empty : PoolOk mctx d deps _)).getDependencies hnamed
      hx (hmem x hx) ⟨hreads.fits x hx, fun y hy => hreads.fits y (hmem x hx y hy)⟩
      hreads.dirname_lt (fun y hy => hreads.stat y (hmem x hx y hy)) (hsearch host x hx)
    rw [hname, hget'] at hget
    exact (congrArg Prod.fst (Except.ok.inj hget)).symm
  · -- no entry has the name, so the pool's empty list is returned
    have hnone : entered entries (ctx.name m) = [] := by
      rw [hentries, entered, List.filter_map, List.map_eq_nil_iff, List.map_eq_nil_iff,
        List.filter_eq_nil_iff]
      intro x hx heq
      exact hno x hx (of_decide_eq_true heq).symm
    obtain ⟨pool', hget⟩ := hreads.dep m
    have hsearch : indexMmSearch host idx' (ctx.name m) = .ok none := by
      rw [hall, hnone]
      rfl
    unfold kmodModuleGetDependencies at hget
    rw [kmodModuleNew_empty, if_neg (by decide), hsearch] at hget
    have hnil : [] = (ctx.dep m).map ctx.name := congrArg Prod.fst (Except.ok.inj hget)
    exact List.map_eq_nil_iff.mp hnil.symm

end Reads

/-! ## What the symbols say -/

section Symbols

variable [DecidableEq μ] {b : Build μ} {dir : CStr}

/-- The passes run through: a module depends on the owners of what it needs. -/
theorem Sound.loadSymbols (hb : Sound b dir) {malloc : Nat → Bool} (hmem : ∀ n, malloc n = true) :
    ∃ t, loadSymbols b.cfg malloc b.kernel b.file b.d.modules = .ok t ∧
      ({ b.d with deps := t.deps, users := t.users } : Depmod μ).WellFormed ∧
      ∀ x y, y ∈ t.deps x ↔ b.Owes x y := by
  have hnodup : b.d.modules.Nodup := by
    rw [List.nodup_iff_injective_getElem]
    intro i j hij
    have hi := hb.idx_eq i b.d.modules[i] (List.getElem?_eq_getElem i.2)
    have hj := hb.idx_eq j b.d.modules[j] (List.getElem?_eq_getElem j.2)
    exact Fin.ext (hi.symm.trans ((congrArg b.d.idx hij).trans hj))
  obtain ⟨t₁, hkern, hdeps₁, husers₁, howner₁⟩ :=
    addKernelSymbols_spec hmem b.cfg b.kernel hb.kernelNames (Tables.init : Tables μ)
  obtain ⟨t₂, hload, hdeps₂, husers₂, howner₂, hneeds₂, -⟩ :=
    depmodLoadModules_spec hmem b.cfg b.file b.d.modules hb.exportedNames [] t₁
      (fun key => howner₁ key rfl)
  have hdeps : t₂.deps = fun _ => [] := hdeps₂.trans hdeps₁
  have husers : UsersCounted b.d.modules t₂ := by
    intro d
    rw [husers₂, husers₁, hdeps]
    simp [Tables.init]
  obtain ⟨t, hrun, hcounted, hspec, hothers⟩ := depmodLoadDependencies_spec hmem b.cfg hnodup
    hb.count_lt b.d.modules hnodup (List.Subset.refl _) (t := t₂)
    (fun x hx need hneed => by
      rw [hneeds₂ x hx] at hneed
      exact hb.neededNames x hx need.name (List.mem_map_of_mem hneed))
    husers (fun x _ => congrFun hdeps x)
  have hself : ∀ x ∈ b.d.modules, t.deps x = neededOwners b.cfg b.file b.d.modules x := by
    intro x hx
    rw [hspec x hx, hneeds₂ x hx]
    simp only [howner₂, List.nil_append]
    rfl
  refine ⟨t, by rw [Symbols.loadSymbols, hkern, ok_bind, hload, ok_bind, hrun],
    loadSymbols_wellFormed b.d hb.count_lt hb.idx_eq hself hcounted, fun x y => ?_⟩
  by_cases hx : x ∈ b.d.modules
  · rw [hself x hx]
    exact (and_iff_right hx).symm
  · rw [hothers x hx, hdeps]
    exact iff_of_false List.not_mem_nil (fun h => hx h.1)

omit [DecidableEq μ] in
theorem exports_of_ownerOf {cfg : Symbols.Cfg} {file : μ → ModuleFile} {modules : List μ} {key : CStr}
    {y : μ} (h : ownerOf cfg file modules key = some y) : Exports cfg file key y := by
  simpa using (List.mem_filter.mp (List.mem_of_getLast? h)).2

/-- With the owners of its symbols loaded, a module that is not loaded can be linked. -/
theorem Sound.linkable (hb : Sound b dir) {x : μ} (hx : x ∈ b.d.modules) {loaded : Kernel}
    (hout : b.d.modname x ∉ loaded) (howners : ∀ y, b.Owes x y → b.d.modname y ∈ loaded) :
    Linkable b loaded x where
  needs := by
    intro need hneed
    rcases hb.present x hx need hneed with hweak | hkern | ⟨y, hy, hexp⟩
    · exact .inl hweak
    · exact .inr (.inl hkern)
    · -- a symbol that a module exports has an owner
      right
      right
      obtain ⟨z, hz⟩ : ∃ z, ownerOf b.cfg b.file b.d.modules (kfind b.cfg need.name) = some z := by
        refine Option.ne_none_iff_exists'.mp (fun hnone => ?_)
        rw [ownerOf, List.getLast?_eq_none_iff, List.filter_eq_nil_iff] at hnone
        exact hnone y hy (decide_eq_true hexp)
      refine ⟨z, ownerOf_mem hz, howners z ⟨hx, ?_⟩, exports_of_ownerOf hz⟩
      rw [neededOwners, List.mem_eraseDups]
      exact List.mem_filterMap.mpr ⟨need.name, List.mem_map_of_mem hneed, hz⟩
  exports := by
    intro e he hthere
    rcases hthere with ⟨sym, hsym, hkey⟩ | ⟨y, hy, hin, hexp⟩
    · exact (hb.unique x hx e he).1 sym hsym hkey
    · obtain rfl := (hb.unique x hx e he).2 y hy hexp
      exact hout hin

/-- So a module object can be inserted when its dependencies are loaded. -/
theorem Sound.loads (hb : Sound b dir) {M : Type} {ctx : InsertCtx M}
    (hkernel : LinkingKernel b ctx) {deps : μ → List μ} (hctx : TableDeps b.d deps ctx) {m : M}
    {x : μ} (hx : x ∈ b.d.modules) (hname : ctx.name m = b.d.modname x)
    (howners : ∀ y, b.Owes x y → y ∈ deps x)
    (hcommand : ctx.installCommands m = none) : Loads ctx m := by
  refine ⟨hcommand, fun flags options kernel hdep hout => ?_⟩
  refine hkernel.links m flags options kernel x hx hname hout
    (hb.linkable hx (hname ▸ hout) (fun y hy => ?_))
  have hin : b.d.modname y ∈ (ctx.dep m).map ctx.name := by
    rw [hctx.known m x hx hname]
    exact List.mem_map_of_mem (howners y hy)
  obtain ⟨y', hy', heq⟩ := List.mem_map.mp hin
  exact heq ▸ hdep y' hy'

end Symbols

/-! ## The chain -/

/--
**From the symbols to a loaded module.** The modules fit together, with clean paths, and there is
memory. Then depmod calculates the dependencies from the symbols and writes `modules.dep.bin`; and
if the file is smaller than `2 ^ 28` bytes, a probe of any of the modules succeeds, through any
context that reads the file, on any kernel that links, with plain flags, if the blacklist does not
apply to the module and no required module has an install command: the module is loaded then,
nothing has been unloaded, and unless it was loaded before, so is every module that it needs
symbols of, directly or not.
-/
theorem modprobe_loads [DecidableEq μ] (b : Build μ) {dir : CStr} (hb : Sound b dir)
    {malloc : Nat → Bool} (hmem : ∀ n, malloc n = true) (ndebug : Bool) {fuel : Nat}
    (hfuel : b.d.modules.length < fuel) :
    ∃ t d' bin, loadSymbols b.cfg malloc b.kernel b.file b.d.modules = .ok t ∧
      depmodCalculateDependencies { b.d with deps := t.deps, users := t.users } ndebug fuel
        = .ok ⟨0, d', none⟩ ∧
      outputDepsBin d' fuel = .ok bin ∧
      (bin.length < 2 ^ 28 → ∃ idx, indexMmOpen bin = .ok idx ∧
        ∀ {M : Type} [Fintype M] [DecidableEq M] (host : Host) (mctx : ModuleCtx)
          (ctx : InsertCtx M), ReadsDeps host b.d idx mctx ctx → LinkingKernel b ctx →
          ∀ (mod : M) (x : μ) (flags : Nat) (extraOptions : Option CStr) (s : ProbeState M)
            (kernel : Kernel), x ∈ b.d.modules → ctx.name mod = b.d.modname x →
            (∀ r ∈ ctx.required mod, ctx.installCommands r = none) → Plain flags →
            blacklistedResult ctx mod flags = none →
            ∃ kernel', (∀ fuel' ≥ 2 * Fintype.card M + 1,
                kmodModuleProbeInsertModule ctx fuel' mod flags extraOptions s kernel
                  = .ok (0, kernel')) ∧
              kernel ⊆ kernel' ∧ b.d.modname x ∈ kernel' ∧
              ((hasFlag flags KMOD_PROBE_IGNORE_LOADED = true ∨ b.d.modname x ∉ kernel) →
                ∀ y, TransGen b.Owes x y → b.d.modname y ∈ kernel')) := by
  obtain ⟨t, hload, hwf, hneeds⟩ := hb.loadSymbols hmem
  have hsame : ({ b.d with deps := t.deps, users := t.users } : Depmod μ).Needs = b.Owes := by
    funext x y
    exact propext (hneeds x y)
  have hac : ({ b.d with deps := t.deps, users := t.users } : Depmod μ).Acyclic := by
    intro x _ hcycle
    exact hb.acyclic x (hsame ▸ hcycle)
  have hnamed : Named ({ b.d with deps := t.deps, users := t.users } : Depmod μ) dir :=
    ⟨hb.named.relpath, hb.named.modname, hb.named.distinct, hb.named.clean⟩
  obtain ⟨d', bin, deps, hcalc, hbin, horder, hread⟩ :=
    tableDeps_written hwf hac hnamed ndebug hfuel
  refine ⟨t, d', bin, hload, hcalc, hbin, fun hlt => ?_⟩
  obtain ⟨idx, hopen, htable⟩ := hread hlt
  refine ⟨idx, hopen, ?_⟩
  intro M _ _ host mctx ctx hreads hkernel mod x flags extraOptions s kernel hx hname hcommands hflags
    hblack
  have hctx : TableDeps ({ b.d with deps := t.deps, users := t.users } : Depmod μ) deps ctx :=
    htable host mctx ctx ⟨hreads.dirname_lt, hreads.fits, hreads.stat, hreads.dep, hreads.objects⟩
  have hctx' : TableDeps b.d deps ctx := ⟨hctx.known, hctx.unknown⟩
  have hmemDeps : ∀ x ∈ b.d.modules, ∀ y, y ∈ deps x ↔ TransGen b.Owes x y := by
    intro x hx y
    rw [← hsame]
    exact (horder x hx).mem y
  have howners : ∀ x ∈ b.d.modules, ∀ y, b.Owes x y → y ∈ deps x := fun x hx y hy =>
    (hmemDeps x hx y).mpr (.single hy)
  -- the required objects are those of the module and of what it needs
  have hrequired : ∀ r ∈ ctx.required mod, ∃ v ∈ b.d.modules, ctx.name r = b.d.modname v := by
    intro r hr
    rcases List.mem_cons.mp hr with rfl | hr
    · exact ⟨x, hx, hname⟩
    · have hin : ctx.name r ∈ (deps x).map b.d.modname := by
        rw [← hctx'.known mod x hx hname]
        exact List.mem_map_of_mem hr
      obtain ⟨v, hv, heq⟩ := List.mem_map.mp hin
      exact ⟨v, hwf.mem_of_reach hx (((horder x hx).mem v).mp hv).to_reflTransGen, heq.symm⟩
  obtain ⟨kernel', hprobe, hsub, hin, hdeps⟩ := kmodModuleProbeInsertModule_loads
    hkernel.toKeeps hflags extraOptions
    (hctx.depsFirst hwf horder hreads.objects)
    (fun r hr => by
      obtain ⟨v, hv, heq⟩ := hrequired r hr
      exact hb.loads hkernel hctx' hv heq (howners v hv) (hcommands r hr))
    hblack s kernel
  refine ⟨kernel', hprobe, hsub, hname ▸ hin, fun hfirst y hy => ?_⟩
  have hy' : b.d.modname y ∈ (ctx.dep mod).map ctx.name := by
    rw [hctx'.known mod x hx hname]
    exact List.mem_map_of_mem ((hmemDeps x hx y).mpr hy)
  obtain ⟨r, hr, heq⟩ := List.mem_map.mp hy'
  exact heq ▸ hdeps (hname ▸ hfirst) r hr

/-! ## Two modules

`b` needs a symbol of `a`, one of the kernel, and a weak one that nobody has.
-/

/-- The answer of a kernel that links, as far as symbols decide it. -/
def loadModule (b : Build μ) (loaded : Kernel) (x : μ) : Int × Kernel :=
  if b.d.modname x ∈ loaded then (-EEXIST, loaded)
  else if Linkable b loaded x then (0, insert (b.d.modname x) loaded)
  else (-ENOENT, loaded)

/-- The two modules before depmod has looked at them. -/
def linkBuild : Build (Fin 2) where
  cfg := ⟨0, false, true⟩
  kernel := [⟨cstr "printk", true, 0⟩]
  file := fun i =>
    if i = 0 then ⟨.ok [⟨cstr "foo", 0⟩], [], []⟩
    else ⟨.ok [], [],
      [⟨cstr "foo", 0, false⟩, ⟨cstr "printk", 0, false⟩, ⟨cstr "absent", 0, true⟩]⟩
  d := tableOf 2 (fun _ => []) ![cstr "a", cstr "b"] ![cstr "/m/a.ko", cstr "/m/b.ko"]
    ![some (cstr "a.ko"), some (cstr "b.ko")]

/-- The module objects of the two, on that kernel. -/
def linkCtx : InsertCtx (Fin 2) :=
  { pairCtx [] with insertModule := fun m _ _ kernel => loadModule linkBuild kernel m }

theorem linkCtx_name (m : Fin 2) : linkCtx.name m = linkBuild.d.modname m := by
  revert m
  decide

theorem linkCtx_linking : LinkingKernel linkBuild linkCtx where
  loaded := by
    intro m _ _ kernel hin
    exact if_pos (linkCtx_name m ▸ hin)
  links := by
    intro m _ _ kernel x _ hname hout hlink
    have hx : m = x := pair_distinct m x ((linkCtx_name m).symm.trans hname)
    subst hx
    show loadModule linkBuild kernel m = _
    rw [loadModule, if_neg (hname ▸ hout), if_pos hlink, ← linkCtx_name]
  keeps := by
    intro m _ _ kernel
    show kernel ⊆ (loadModule linkBuild kernel m).2
    unfold loadModule
    split
    · exact Finset.Subset.refl _
    · split
      · exact Finset.subset_insert ..
      · exact Finset.Subset.refl _
  keepsCommands := fun _ _ kernel => Finset.Subset.refl kernel

theorem linkBuild_owes {x y : Fin 2} : linkBuild.Owes x y ↔ x = 1 ∧ y = 0 := by
  have h : ∀ x y : Fin 2, (y ∈ neededOwners linkBuild.cfg linkBuild.file linkBuild.d.modules x) ↔
      x = 1 ∧ y = 0 := by decide
  rw [Build.Owes, h]
  exact and_iff_right (List.mem_finRange x)

theorem linkBuild_sound : Sound linkBuild (cstr "/m") where
  count_lt := by decide
  idx_eq := by
    intro i m hi
    obtain ⟨_, he⟩ := List.getElem?_eq_some_iff.mp hi
    rw [← he]
    simp [linkBuild, tableOf]
  named := by
    have hpair : Named (pairTable ![cstr "/m/a.ko", cstr "/m/b.ko"]
        ![some (cstr "a.ko"), some (cstr "b.ko")]) (cstr "/m") :=
      pair_named (by decide) (by decide) (by decide)
    exact ⟨hpair.relpath, hpair.modname, hpair.distinct, hpair.clean⟩
  kernelNames := by decide
  exportedNames := by decide
  neededNames := by decide
  present := by decide
  unique := by decide
  acyclic := by
    have hstep : ∀ {x y}, TransGen linkBuild.Owes x y → x = 1 ∧ y = 0 := by
      intro x y h
      induction h with
      | single h => exact linkBuild_owes.mp h
      | tail _ h ih => exact ⟨ih.1, (linkBuild_owes.mp h).2⟩
    intro x h
    exact absurd ((hstep h).1.symm.trans (hstep h).2) (by decide)

/-- The table that the symbols lead to. -/
theorem linkBuild_table {t : Tables (Fin 2)}
    (hload : loadSymbols linkBuild.cfg (fun _ => true) linkBuild.kernel linkBuild.file
      linkBuild.d.modules = .ok t) :
    ({ linkBuild.d with deps := t.deps, users := t.users } : Depmod (Fin 2))
      = pairTable ![cstr "/m/a.ko", cstr "/m/b.ko"] ![some (cstr "a.ko"), some (cstr "b.ko")] := by
  obtain ⟨t', hload', hwf, hneeds⟩ :=
    linkBuild_sound.loadSymbols (show ∀ n, (fun _ : Nat => true) n = true from fun _ => rfl)
  obtain rfl := Except.ok.inj (hload'.symm.trans hload)
  have hdeps : t'.deps = ![[], [0]] := by
    refine funext (Fin.forall_fin_two.mpr ⟨?_, ?_⟩)
    · refine List.eq_nil_iff_forall_not_mem.mpr (fun y hy => ?_)
      exact absurd (linkBuild_owes.mp ((hneeds 0 y).mp hy)).1 (by decide)
    · refine List.perm_singleton.mp ((List.perm_ext_iff_of_nodup
        (hwf.deps_nodup 1 (List.mem_finRange 1)) (List.nodup_singleton _)).mpr (fun y => ?_))
      show y ∈ t'.deps 1 ↔ _
      rw [hneeds, linkBuild_owes, List.mem_singleton]
      exact and_iff_right rfl
  have husers : t'.users = fun m => ((List.finRange 2).filter (fun x => m ∈ t'.deps x)).length :=
    funext (fun m => hwf.users_eq m (List.mem_finRange m))
  rw [husers, hdeps]
  rfl

/-- What the module objects take from the file. -/
theorem linkCtx_reads {d' : Depmod (Fin 2)} {bin : List UInt8} {idx : IndexMm}
    (hcalc : depmodCalculateDependencies (pairTable ![cstr "/m/a.ko", cstr "/m/b.ko"]
      ![some (cstr "a.ko"), some (cstr "b.ko")]) false 3 = .ok ⟨0, d', none⟩)
    (hbin : outputDepsBin d' 3 = .ok bin) (hlt : bin.length < 2 ^ 28)
    (hopen : indexMmOpen bin = .ok idx) :
    ReadsDeps littleHost linkBuild.d idx smallCtx linkCtx where
  dirname_lt := by decide
  fits := by
    intro x _
    refine .inr ?_
    revert x
    decide
  stat := fun _ _ => le_rfl
  dep := by
    have hnamed : Named (pairTable ![cstr "/m/a.ko", cstr "/m/b.ko"]
        ![some (cstr "a.ko"), some (cstr "b.ko")]) (cstr "/m") :=
      pair_named (by decide) (by decide) (by decide)
    have hfits : ∀ x, Fits smallCtx (pairTable ![cstr "/m/a.ko", cstr "/m/b.ko"]
        ![some (cstr "a.ko"), some (cstr "b.ko")]) x := fun x => .inr (by revert x; decide)
    obtain ⟨d₁, deps, _, _, hcalc₁, horder, -, -, -, -, hbin₁, hread⟩ := modulesDep_written
      pair_wellFormed pair_acyclic hnamed false (show (List.finRange 2).length < 3 by decide)
    obtain rfl : d₁ = d' := by simpa using hcalc₁.symm.trans hcalc
    obtain rfl := Except.ok.inj (hbin₁.symm.trans hbin)
    obtain ⟨idx₁, hopen₁, hsearch⟩ := hread hlt
    obtain rfl := Except.ok.inj (hopen₁.symm.trans hopen)
    have hdeps : ∀ m, (linkCtx.dep m) = deps m := by
      refine Fin.forall_fin_two.mpr ⟨?_, ?_⟩
      · exact ((horder 0 (List.mem_finRange _)).eq_nil (fun x hx =>
          absurd (pair_needs.mp hx).1 (by decide))).symm
      · exact (pair_deps (horder 1 (List.mem_finRange _)).mem
          (horder 1 (List.mem_finRange _)).nodup).symm
    intro m
    obtain ⟨pool', hget, -⟩ := (poolOk_empty : PoolOk smallCtx _ deps _).getDependencies hnamed
      (List.mem_finRange m) (fun x _ => List.mem_finRange x)
      ⟨hfits m, fun x _ => hfits x⟩
      (by decide) (fun _ _ => le_rfl) (hsearch littleHost m (List.mem_finRange m))
    refine ⟨pool', ?_⟩
    rw [hdeps, show linkCtx.name = linkBuild.d.modname from funext linkCtx_name]
    exact hget
  objects := by
    intro _ _ x y _ _ hname
    exact pair_distinct x y ((linkCtx_name x).symm.trans (hname.trans (linkCtx_name y)))

/-- `modprobe b` loads both, although nothing but the symbols says that `b` needs `a`. -/
theorem modprobe_loads_pair : ∃ t d' bin idx kernel',
    loadSymbols linkBuild.cfg (fun _ => true) linkBuild.kernel linkBuild.file
      linkBuild.d.modules = .ok t ∧
    depmodCalculateDependencies { linkBuild.d with deps := t.deps, users := t.users } false 3
      = .ok ⟨0, d', none⟩ ∧
    outputDepsBin d' 3 = .ok bin ∧ indexMmOpen bin = .ok idx ∧
    (∀ fuel' ≥ 2 * Fintype.card (Fin 2) + 1,
      kmodModuleProbeInsertModule linkCtx fuel' 1 0 none unmarked ∅ = .ok (0, kernel')) ∧
    cstr "a" ∈ kernel' ∧ cstr "b" ∈ kernel' := by
  obtain ⟨t, d', bin, hload, hcalc, hbin, hread⟩ := modprobe_loads linkBuild linkBuild_sound
    (show ∀ n, (fun _ : Nat => true) n = true from fun _ => rfl) false
    (show (List.finRange 2).length < 3 by decide)
  have hcalc' := hcalc
  rw [linkBuild_table hload] at hcalc'
  have hnamed : Named (pairTable ![cstr "/m/a.ko", cstr "/m/b.ko"]
      ![some (cstr "a.ko"), some (cstr "b.ko")]) (cstr "/m") :=
    pair_named (by decide) (by decide) (by decide)
  obtain ⟨hcleanA, hcleanB, d₁, hcalc₁, hbin₁, -⟩ := pair_written hnamed
  obtain rfl : d₁ = d' := by simpa using hcalc₁.symm.trans hcalc'
  have hlt : bin.length < 2 ^ 28 := by
    rw [← Except.ok.inj (hbin₁.symm.trans hbin), length_indexWrite_two hcleanA hcleanB]
    decide
  obtain ⟨idx, hopen, hprobe⟩ := hread hlt
  obtain ⟨kernel', hrun, -, hb, hall⟩ := hprobe littleHost smallCtx linkCtx
    (linkCtx_reads hcalc' hbin hlt hopen) linkCtx_linking 1 1 0 none unmarked ∅
    (List.mem_finRange 1) (linkCtx_name 1) (fun _ _ => rfl) ⟨rfl, rfl, rfl⟩ rfl
  exact ⟨t, d₁, bin, idx, kernel', hload, hcalc, hbin, hopen, hrun,
    hall (.inr (Finset.notMem_empty _)) 0 (.single (linkBuild_owes.mpr ⟨rfl, rfl⟩)), hb⟩

end Kmod.ModulesLoad
