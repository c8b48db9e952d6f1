import Mathlib.Data.List.Flatten
import Kmod.Libkmod.ProbeInsert

/-!
# Dry runs

modprobe prints what it does, and with `--dry-run` it prints without doing it. A dry run looks at
the kernel as it is, while a real run goes on from what it has loaded so far. So a dry run shows a
module as often as it is listed, and it goes on where a real run would have failed.

But a real run never does anything that the dry run has not shown, whatever the kernel answers,
and it does it in the same order (`dryRun_shows`). If nothing fails, it does all that was shown,
each module once.
-/

namespace Kmod.DryRun

/-! ## The model -/

/-- What modprobe uses of the context when it inserts modules. -/
structure ModprobeCtx (M : Type) extends InsertCtx M where
  /-- `kmod_module_new_from_path` -/
  newFromPath : CStr → Except Int M
  /-- `kmod_module_get_path` -/
  path : M → Option CStr
  /-- Whether `kmod_module_get_initstate` is `KMOD_MODULE_BUILTIN`. -/
  isBuiltin : M → Bool

/-- The options of modprobe that are used when it inserts modules. -/
structure InsmodOpts where
  stripModversion : Bool
  stripVermagic : Bool
  force : Bool
  ignoreCommands : Bool
  ignoreLoaded : Bool
  dryRun : Bool
  useBlacklist : Bool
  firstTime : Bool
  doShow : Bool
  /-- `verbose > DEFAULT_VERBOSE` -/
  verbose : Bool
  lookupOnly : Bool

/-- What happens to a module. -/
inductive Event (M : Type) where
  /-- Its name is printed, with `--resolve-alias`. -/
  | name (mod : M)
  /-- `print_action` is called, and then it is inserted, or its install command is run. -/
  | action (mod : M) (install : Bool) (options : CStr)
  deriving DecidableEq

def KMOD_PROBE_FORCE_VERMAGIC : Nat := 0x00001
def KMOD_PROBE_FORCE_MODVERSION : Nat := 0x00002

section Model

variable {M : Type} [DecidableEq M]

/-- What is done with a module of the list: nothing, if it is loaded. -/
def shownModule (ctx : InsertCtx M) (mod : M) (flags : Nat) (extraOptions : Option CStr)
    (s : ProbeState M) (m : M) (kernel : Kernel) : List (Event M) :=
  if !hasFlag flags KMOD_PROBE_IGNORE_LOADED && moduleIsInkernel ctx kernel m then []
  else [.action m ((ctx.installCommands m).isSome && !s.ignorecmd m)
    ((moduleOptionsConcat (ctx.options m) (if m = mod then extraOptions else none)).getD [])]

/-- The loop of `kmod_module_probe_insert_module`, with the calls of `print_action`. -/
def probeShown (ctx : InsertCtx M) (mod : M) (flags : Nat) (extraOptions : Option CStr)
    (s : ProbeState M) : List M → Int → Kernel → (Int × Kernel) × List (Event M)
  | [], err, kernel => ((err, kernel), [])
  | m :: list, err, kernel =>
    let shown := shownModule ctx mod flags extraOptions s m kernel
    let (err, kernel) := probeModule ctx mod flags extraOptions s m err kernel
    if err = -EEXIST ∧ m = mod ∧ hasFlag flags KMOD_PROBE_FAIL_ON_LOADED then
      ((err, kernel), shown)
    else if err = -EEXIST ∨ s.required m = false then
      let rest := probeShown ctx mod flags extraOptions s list 0 kernel
      (rest.1, shown ++ rest.2)
    else if err < 0 then ((err, kernel), shown)
    else
      let rest := probeShown ctx mod flags extraOptions s list err kernel
      (rest.1, shown ++ rest.2)

/-- What is filtered. -/
def filteredShown (ctx : InsertCtx M) (mod : M) (flags : Nat) (extraOptions : Option CStr)
    (s : ProbeState M) (kernel : Kernel) : (Int × Kernel) × List (Event M) :=
  if hasFlag flags KMOD_PROBE_APPLY_BLACKLIST_ALL then
    match s.list.filter (fun m => !moduleIsBlacklisted ctx m) with
    | [] => ((KMOD_PROBE_APPLY_BLACKLIST_ALL, kernel), [])
    | m :: list => probeShown ctx mod flags extraOptions s (m :: list) 0 kernel
  else probeShown ctx mod flags extraOptions s s.list 0 kernel

/-- What a run leaves: the fields of the modules, the kernel, and what has happened. -/
structure Outcome (M : Type) where
  err : Int
  kernel : Kernel
  marks : ProbeState M
  events : List (Event M)

/-- `kmod_module_probe_insert_module`, with the calls of `print_action`. -/
def probeInsert (ctx : InsertCtx M) (fuel : Nat) (mod : M) (flags : Nat)
    (extraOptions : Option CStr) (s : ProbeState M) (kernel : Kernel) :
    Except Fault (Outcome M) :=
  if !hasFlag flags KMOD_PROBE_IGNORE_LOADED && moduleIsInkernel ctx kernel mod then
    if hasFlag flags KMOD_PROBE_FAIL_ON_LOADED then .ok ⟨-EEXIST, kernel, s, []⟩
    else .ok ⟨0, kernel, s, []⟩
  else
    match blacklistedResult ctx mod flags with
    | some ret => .ok ⟨ret, kernel, s, []⟩
    | none => do
      let s ← kmodModuleGetProbeList ctx.toProbeCtx fuel mod
        (hasFlag flags KMOD_PROBE_IGNORE_COMMAND) s
      let r := filteredShown ctx mod flags extraOptions s kernel
      .ok ⟨r.1.1, r.1.2, s, r.2⟩

/-- The flags that `insmod` of modprobe sets. -/
def insmodFlags (opts : InsmodOpts) : Nat :=
  (if opts.stripModversion || opts.force then KMOD_PROBE_FORCE_MODVERSION else 0) |||
  (if opts.stripVermagic || opts.force then KMOD_PROBE_FORCE_VERMAGIC else 0) |||
  (if opts.ignoreCommands then KMOD_PROBE_IGNORE_COMMAND else 0) |||
  (if opts.ignoreLoaded then KMOD_PROBE_IGNORE_LOADED else 0) |||
  (if opts.dryRun then KMOD_PROBE_DRY_RUN else 0) |||
  KMOD_PROBE_APPLY_BLACKLIST_ALIAS_ONLY |||
  (if opts.useBlacklist then KMOD_PROBE_APPLY_BLACKLIST else 0) |||
  (if opts.firstTime then KMOD_PROBE_FAIL_ON_LOADED else 0)

/-- `insmod_insert`. Flags that are returned are no errors. -/
def insmodInsert (ctx : ModprobeCtx M) (opts : InsmodOpts) (fuel : Nat) (mod : M)
    (extraOptions : Option CStr) (s : ProbeState M) (kernel : Kernel) :
    Except Fault (Outcome M) :=
  if opts.lookupOnly then .ok ⟨0, kernel, s, [.name mod]⟩
  else do
    let r ← probeInsert ctx.toInsertCtx fuel mod (insmodFlags opts) extraOptions s kernel
    .ok { r with err := min r.err 0 }

/-- `module_new_from_any`: the module of a path, or the modules that are found. -/
def moduleNewFromAny (ctx : ModprobeCtx M) (module : CStr) : Except Int (List M) :=
  if (cstr "/").isPrefixOf module || (cstr "./").isPrefixOf module then
    match ctx.newFromPath module with
    | .error _ => .error (-ENOENT)
    | .ok mod => .ok [mod]
  else
    match ctx.newFromLookup module with
    | .error _ => .error (-ENOENT)
    | .ok [] => .error (-ENOENT)
    | .ok list => .ok list

/-- The loop of `insmod` over the modules: the last error is returned. -/
def insmodList (ctx : ModprobeCtx M) (opts : InsmodOpts) (fuel : Nat)
    (extraOptions : Option CStr) : List M → Outcome M → Except Fault (Outcome M)
  | [], r => .ok r
  | mod :: list, r => do
    let r' ← insmodInsert ctx opts fuel mod extraOptions r.marks r.kernel
    insmodList ctx opts fuel extraOptions list { r' with events := r.events ++ r'.events }

/-- `insmod` of modprobe. -/
def insmod (ctx : ModprobeCtx M) (opts : InsmodOpts) (fuel : Nat) (alias_ : CStr)
    (extraOptions : Option CStr) (s : ProbeState M) (kernel : Kernel) :
    Except Fault (Outcome M) :=
  match moduleNewFromAny ctx alias_ with
  | .error err => .ok ⟨err, kernel, s, []⟩
  | .ok list => insmodList ctx opts fuel extraOptions list ⟨0, kernel, s, []⟩

/-- The loop of `insmod_all`. -/
def insmodAllFrom (ctx : ModprobeCtx M) (opts : InsmodOpts) (fuel : Nat) :
    List CStr → Outcome M → Except Fault (Outcome M)
  | [], r => .ok r
  | arg :: args, r => do
    let r' ← insmod ctx opts fuel arg none r.marks r.kernel
    insmodAllFrom ctx opts fuel args
      ⟨if r'.err < 0 then r'.err else r.err, r'.kernel, r'.marks, r.events ++ r'.events⟩

/-- `insmod_all` -/
def insmodAll (ctx : ModprobeCtx M) (opts : InsmodOpts) (fuel : Nat) (args : List CStr)
    (s : ProbeState M) (kernel : Kernel) : Except Fault (Outcome M) :=
  insmodAllFrom ctx opts fuel args ⟨0, kernel, s, []⟩

/-- `print_action`, and the name with `--resolve-alias`. -/
def printEvent (ctx : ModprobeCtx M) (opts : InsmodOpts) : Event M → CStr
  | .name mod => ctx.name mod ++ cstr "\n"
  | .action mod install options =>
    if opts.doShow || opts.verbose then
      if install then
        cstr "install " ++ (ctx.installCommands mod).getD [] ++ cstr " " ++ options ++ cstr "\n"
      else
        match ctx.path mod with
        | none => if ctx.isBuiltin mod then cstr "builtin " ++ ctx.name mod ++ cstr "\n" else []
        | some path => cstr "insmod " ++ path ++ cstr " " ++ options ++ cstr "\n"
    else []

/-- What modprobe prints. -/
def printed (ctx : ModprobeCtx M) (opts : InsmodOpts) (r : Outcome M) : CStr :=
  r.events.flatMap (printEvent ctx opts)

end Model

section

variable {M : Type} [DecidableEq M]

/-- The events leave out nothing of what the loop does. -/
theorem probeShown_fst (ctx : InsertCtx M) (mod : M) (flags : Nat) (extraOptions : Option CStr)
    (s : ProbeState M) (list : List M) : ∀ (err : Int) (kernel : Kernel),
      (probeShown ctx mod flags extraOptions s list err kernel).1
        = probeModules ctx mod flags extraOptions s list err kernel := by
  induction list with
  | nil => exact fun _ _ => rfl
  | cons m list ih =>
    intro err kernel
    rw [probeShown, probeModules]
    generalize probeModule ctx mod flags extraOptions s m err kernel = r
    obtain ⟨err, kernel⟩ := r
    dsimp only
    split
    · rfl
    · split
      · exact ih 0 kernel
      · split
        · rfl
        · exact ih err kernel

/-- `probeInsert` is `kmod_module_probe_insert_module`. -/
theorem probeInsert_result (ctx : InsertCtx M) (fuel : Nat) (mod : M) (flags : Nat)
    (extraOptions : Option CStr) (s : ProbeState M) (kernel : Kernel) :
    (probeInsert ctx fuel mod flags extraOptions s kernel).map (fun r => (r.err, r.kernel))
      = kmodModuleProbeInsertModule ctx fuel mod flags extraOptions s kernel := by
  have hfiltered : ∀ s, (filteredShown ctx mod flags extraOptions s kernel).1
      = probeFiltered ctx mod flags extraOptions s kernel := by
    intro s
    unfold filteredShown probeFiltered
    split
    · cases s.list.filter (fun m => !moduleIsBlacklisted ctx m) with
      | nil => rfl
      | cons m list => exact probeShown_fst ..
    · exact probeShown_fst ..
  unfold probeInsert kmodModuleProbeInsertModule
  split
  · split <;> rfl
  · cases blacklistedResult ctx mod flags with
    | some ret => rfl
    | none =>
      cases kmodModuleGetProbeList ctx.toProbeCtx fuel mod
          (hasFlag flags KMOD_PROBE_IGNORE_COMMAND) s with
      | error fault => rfl
      | ok s => exact congrArg Except.ok (hfiltered s)

/-! ## The list does not depend on earlier runs -/

/-- Two states that differ in a field of modules that are not listed. -/
structure Same (s t : ProbeState M) : Prop where
  visited : s.visited = t.visited
  required : s.required = t.required
  list : s.list = t.list
  ignorecmd : ∀ m ∈ s.list, s.ignorecmd m = t.ignorecmd m

theorem Same.append {s t : ProbeState M} (h : Same s t) (mod : M) (b : Bool) :
    Same (s.append mod b) (t.append mod b) where
  visited := h.visited
  required := h.required
  list := congrArg (· ++ [mod]) h.list
  ignorecmd := by
    intro m hm
    show Function.update s.ignorecmd mod b m = Function.update t.ignorecmd mod b m
    by_cases hmod : m = mod
    · rw [hmod, Function.update_self, Function.update_self]
    · rw [Function.update_of_ne hmod, Function.update_of_ne hmod]
      rcases List.mem_append.mp hm with hm | hm
      · exact h.ignorecmd m hm
      · exact absurd (List.mem_singleton.mp hm) hmod

theorem Same.enter {s t : ProbeState M} (h : Same s t) (mod : M) (required : Bool)
    (dep : List M) : Same (s.enter mod required dep) (t.enter mod required dep) where
  visited := by rw [enter_visited, enter_visited, h.visited]
  required := by
    cases required with
    | false => exact h.required
    | true =>
      show (fun m => _ || s.required m) = (fun m => _ || t.required m)
      rw [h.required]
  list := by rw [enter_list, enter_list, h.list]
  ignorecmd := by
    have hkeep : ∀ u : ProbeState M, (u.enter mod required dep).ignorecmd = u.ignorecmd :=
      fun u => by cases required <;> rfl
    intro m hm
    rw [enter_list] at hm
    rw [hkeep, hkeep]
    exact h.ignorecmd m hm

theorem Same.run {ctx : ProbeCtx M} {call : ProbeCall M} {s s' : ProbeState M}
    (hrun : Runs ctx call s s') : ∀ {t : ProbeState M}, Same s t →
      ∃ t', Runs ctx call t t' ∧ Same s' t' := by
  induction hrun with
  | fill _ _ ih ih' =>
    intro t h
    obtain ⟨t₁, hpre, h₁⟩ := ih h
    obtain ⟨t₂, hpost, h₂⟩ := ih' (h₁.append _ _)
    exact ⟨t₂, .fill hpre hpost, h₂⟩
  | visited hv => exact fun h => ⟨_, .visited (h.visited ▸ hv), h⟩
  | probe hv _ _ ih ih' =>
    intro t h
    obtain ⟨t₁, hdep, h₁⟩ := ih (h.enter _ _ _)
    obtain ⟨t₂, hfill, h₂⟩ := ih' h₁
    exact ⟨t₂, .probe (h.visited ▸ hv) hdep hfill, h₂⟩
  | command hv _ ih =>
    intro t h
    obtain ⟨t₁, hdep, h₁⟩ := ih (h.enter _ _ _)
    exact ⟨_, .command (h.visited ▸ hv) hdep, h₁.append _ _⟩
  | fillsNil => exact fun h => ⟨_, .fillsNil, h⟩
  | fillsCons _ _ ih ih' =>
    intro t h
    obtain ⟨t₁, hfirst, h₁⟩ := ih h
    obtain ⟨t₂, hmore, h₂⟩ := ih' h₁
    exact ⟨t₂, .fillsCons hfirst hmore, h₂⟩
  | probesNil => exact fun h => ⟨_, .probesNil, h⟩
  | probesCons _ _ ih ih' =>
    intro t h
    obtain ⟨t₁, hfirst, h₁⟩ := ih h
    obtain ⟨t₂, hmore, h₂⟩ := ih' h₁
    exact ⟨t₂, .probesCons hfirst hmore, h₂⟩

/-- **A list is built**, and the same whatever has been marked before. -/
theorem same_list [Fintype M] (ctx : ProbeCtx M) {fuel : Nat}
    (hfuel : 2 * Fintype.card M + 1 ≤ fuel) (mod : M) (ignorecmd : Bool) (s t : ProbeState M) :
    ∃ s' t', kmodModuleGetProbeList ctx fuel mod ignorecmd s = .ok s' ∧
      kmodModuleGetProbeList ctx fuel mod ignorecmd t = .ok t' ∧ Same s' t' := by
  obtain ⟨s', hruns, hs'⟩ := kmodModuleGetProbeList_runs ctx mod ignorecmd s
  obtain ⟨t', hrunt, ht'⟩ := kmodModuleGetProbeList_runs ctx mod ignorecmd t
  have hreset : Same s.reset t.reset := ⟨rfl, rfl, rfl, fun _ h => absurd h List.not_mem_nil⟩
  obtain ⟨t'', hrun, hsame⟩ := Same.run hruns hreset
  rw [hrun.unique hrunt] at hsame
  exact ⟨s', t', hs' fuel hfuel, ht' fuel hfuel, hsame⟩

/-! ## The dry run -/

/-- What is shown in a dry run. -/
def shownAll (ctx : InsertCtx M) (mod : M) (flags : Nat) (extraOptions : Option CStr)
    (s : ProbeState M) (kernel : Kernel) (list : List M) : List (Event M) :=
  list.flatMap (fun m => shownModule ctx mod flags extraOptions s m kernel)

/-- The run looks at the module, or it does not care what is loaded. -/
def Looks (ctx : InsertCtx M) (mod : M) (flags : Nat) (kernel : Kernel) : Prop :=
  (!hasFlag flags KMOD_PROBE_IGNORE_LOADED && moduleIsInkernel ctx kernel mod) = false

/-- **A dry run shows all that is not loaded**, and it does not fail. -/
theorem probeShown_dry {ctx : InsertCtx M} {mod : M} {flags : Nat} {kernel : Kernel}
    (hdry : hasFlag flags KMOD_PROBE_DRY_RUN = true) (hlooks : Looks ctx mod flags kernel)
    (extraOptions : Option CStr) (s : ProbeState M) (list : List M) : ∀ err : Int, 0 ≤ err →
      ∃ err', probeShown ctx mod flags extraOptions s list err kernel
        = ((err', kernel), shownAll ctx mod flags extraOptions s kernel list) := by
  induction list with
  | nil => exact fun err _ => ⟨err, rfl⟩
  | cons m list ih =>
    intro err herr
    obtain ⟨err₀, hzero⟩ := ih 0 (Int.le_refl 0)
    obtain ⟨err₁, hmore⟩ := ih err herr
    rw [probeShown, shownAll, List.flatMap_cons]
    by_cases hm : (!hasFlag flags KMOD_PROBE_IGNORE_LOADED && moduleIsInkernel ctx kernel m) = true
    · -- the module is loaded, so it is not the one that is asked for
      have hprobe : probeModule ctx mod flags extraOptions s m err kernel = (-EEXIST, kernel) :=
        if_pos hm
      have hne : m ≠ mod := by
        rintro rfl
        exact Bool.false_ne_true (hlooks.symm.trans hm)
      rw [hprobe]
      dsimp only
      rw [if_neg (fun h => hne h.2.1), if_pos (.inl rfl), hzero]
      exact ⟨err₀, rfl⟩
    · have hprobe : probeModule ctx mod flags extraOptions s m err kernel = (err, kernel) := by
        unfold probeModule
        rw [if_neg hm]
        exact if_pos hdry
      have hexist : err ≠ -EEXIST := by
        unfold EEXIST
        omega
      rw [hprobe]
      dsimp only
      rw [if_neg (fun h => hexist h.1)]
      split
      · exact ⟨err₀, by rw [hzero]; rfl⟩
      · rw [if_neg (Int.not_lt.mpr herr), hmore]
        exact ⟨err₁, rfl⟩

/-! ## The real run -/

/-- Nothing is removed from the kernel while modules are inserted. -/
structure Grows (ctx : InsertCtx M) : Prop where
  command : ∀ m options kernel, kernel ⊆ (ctx.doInstallCommands m options kernel).2
  insert : ∀ m flags options kernel, kernel ⊆ (ctx.insertModule m flags options kernel).2

theorem Grows.probeModule {ctx : InsertCtx M} (h : Grows ctx) (mod : M) (flags : Nat)
    (extraOptions : Option CStr) (s : ProbeState M) (m : M) (err : Int) (kernel : Kernel) :
    kernel ⊆ (probeModule ctx mod flags extraOptions s m err kernel).2 := by
  unfold Kmod.probeModule
  split
  · exact Finset.Subset.refl _
  · dsimp only
    split
    · exact Finset.Subset.refl _
    · split
      · exact h.command ..
      · exact h.insert ..

/-- The flags of a dry run and of the real one. -/
structure SameFlags (dry real : Nat) : Prop where
  dryRun : hasFlag dry KMOD_PROBE_DRY_RUN = true
  ignoreLoaded : hasFlag dry KMOD_PROBE_IGNORE_LOADED = hasFlag real KMOD_PROBE_IGNORE_LOADED
  ignoreCommand : hasFlag dry KMOD_PROBE_IGNORE_COMMAND = hasFlag real KMOD_PROBE_IGNORE_COMMAND
  failOnLoaded : hasFlag dry KMOD_PROBE_FAIL_ON_LOADED = hasFlag real KMOD_PROBE_FAIL_ON_LOADED
  all : hasFlag dry KMOD_PROBE_APPLY_BLACKLIST_ALL = hasFlag real KMOD_PROBE_APPLY_BLACKLIST_ALL
  blacklist : hasFlag dry KMOD_PROBE_APPLY_BLACKLIST = hasFlag real KMOD_PROBE_APPLY_BLACKLIST
  aliasOnly : hasFlag dry KMOD_PROBE_APPLY_BLACKLIST_ALIAS_ONLY
    = hasFlag real KMOD_PROBE_APPLY_BLACKLIST_ALIAS_ONLY

section Runs

variable {ctx : InsertCtx M} {dry real : Nat} {s t : ProbeState M} {kernel kernel' : Kernel}
  (mod : M) (extraOptions : Option CStr)

/-- What a real run does with a module, the dry run has shown. -/
theorem shownModule_sublist (hflags : SameFlags dry real) (hsub : kernel ⊆ kernel') {m : M}
    (hignore : s.ignorecmd m = t.ignorecmd m) :
    (shownModule ctx mod real extraOptions t m kernel').Sublist
      (shownModule ctx mod dry extraOptions s m kernel) := by
  unfold shownModule
  split
  · exact List.nil_sublist _
  · rename_i hreal
    -- what is not loaded now was not loaded before
    have hdry : ¬ (!hasFlag dry KMOD_PROBE_IGNORE_LOADED && moduleIsInkernel ctx kernel m)
        = true := by
      intro h
      rw [hflags.ignoreLoaded, Bool.and_eq_true] at h
      refine hreal (Bool.and_eq_true_iff.mpr ⟨h.1, decide_eq_true ?_⟩)
      exact hsub (of_decide_eq_true h.2)
    rw [if_neg hdry, hignore]

/-- **The loop of a real run.** -/
theorem probeShown_sublist (hgrows : Grows ctx) (hflags : SameFlags dry real) (list : List M) :
    ∀ (err : Int) (kernel' : Kernel), kernel ⊆ kernel' →
      (∀ m ∈ list, s.ignorecmd m = t.ignorecmd m) →
      (probeShown ctx mod real extraOptions t list err kernel').2.Sublist
          (shownAll ctx mod dry extraOptions s kernel list) ∧
        kernel ⊆ (probeShown ctx mod real extraOptions t list err kernel').1.2 := by
  induction list with
  | nil => exact fun _ _ hsub _ => ⟨List.Sublist.refl _, hsub⟩
  | cons m list ih =>
    intro err kernel' hsub hignore
    have hfirst : (shownModule ctx mod real extraOptions t m kernel').Sublist
        (shownModule ctx mod dry extraOptions s m kernel) :=
      shownModule_sublist mod extraOptions hflags hsub (hignore m (List.mem_cons_self ..))
    have hkernel := hsub.trans (hgrows.probeModule mod real extraOptions t m err kernel')
    rw [probeShown, shownAll, List.flatMap_cons]
    generalize Kmod.probeModule ctx mod real extraOptions t m err kernel' = r at hkernel ⊢
    obtain ⟨err, kernel'⟩ := r
    have hrest := fun err => ih err kernel' hkernel
      (fun m hm => hignore m (List.mem_cons_of_mem _ hm))
    have hstop := hfirst.trans (List.sublist_append_left _
      (shownAll ctx mod dry extraOptions s kernel list))
    dsimp only
    split
    · exact ⟨hstop, hkernel⟩
    · split
      · exact ⟨hfirst.append (hrest 0).1, (hrest 0).2⟩
      · split
        · exact ⟨hstop, hkernel⟩
        · exact ⟨hfirst.append (hrest err).1, (hrest err).2⟩

end Runs

/-! ## modprobe -/

/-- What a dry run and a real run have come to: the kernel is as it was, and the real run has done
no more than the dry run has shown. -/
structure Shown (before : Kernel) (dry real : Outcome M) : Prop where
  kernel : dry.kernel = before
  grown : before ⊆ real.kernel
  events : real.events.Sublist dry.events

omit [DecidableEq M] in
theorem blacklistedResult_eq {ctx : InsertCtx M} {dry real : Nat} (hflags : SameFlags dry real)
    (mod : M) : blacklistedResult ctx mod dry = blacklistedResult ctx mod real := by
  unfold blacklistedResult
  rw [hflags.aliasOnly, hflags.all, hflags.blacklist]

theorem filteredShown_shows {ctx : InsertCtx M} (hgrows : Grows ctx) {dry real : Nat}
    (hflags : SameFlags dry real) {mod : M} (extraOptions : Option CStr) {s t : ProbeState M}
    (hsame : Same s t) {kernel kernel' : Kernel} (hlooks : Looks ctx mod dry kernel)
    (hsub : kernel ⊆ kernel') :
    (filteredShown ctx mod dry extraOptions s kernel).1.2 = kernel ∧
      kernel ⊆ (filteredShown ctx mod real extraOptions t kernel').1.2 ∧
      (filteredShown ctx mod real extraOptions t kernel').2.Sublist
        (filteredShown ctx mod dry extraOptions s kernel).2 := by
  have hlist : ∀ list ⊆ s.list,
      (probeShown ctx mod dry extraOptions s list 0 kernel).1.2 = kernel ∧
      kernel ⊆ (probeShown ctx mod real extraOptions t list 0 kernel').1.2 ∧
      (probeShown ctx mod real extraOptions t list 0 kernel').2.Sublist
        (probeShown ctx mod dry extraOptions s list 0 kernel).2 := by
    intro list hlist
    obtain ⟨err, hdry⟩ := probeShown_dry hflags.dryRun hlooks extraOptions s list 0 (Int.le_refl 0)
    obtain ⟨hsublist, hgrown⟩ := probeShown_sublist mod extraOptions hgrows hflags list 0 kernel'
      hsub (fun m hm => hsame.ignorecmd m (hlist hm))
    rw [hdry]
    exact ⟨rfl, hgrown, hsublist⟩
  unfold filteredShown
  rw [hflags.all, ← hsame.list]
  split
  · cases hfilter : s.list.filter (fun m => !moduleIsBlacklisted ctx m) with
    | nil => exact ⟨rfl, hsub, List.Sublist.refl _⟩
    | cons m list => exact hlist _ (hfilter ▸ List.filter_sublist.subset)
  · exact hlist _ (List.Subset.refl _)

section Calls

variable [Fintype M] {fuel : Nat}

/-- **Probing for a module**, in a kernel that has grown since the dry run. -/
theorem probeInsert_shows {ctx : InsertCtx M} (hgrows : Grows ctx)
    (hfuel : 2 * Fintype.card M + 1 ≤ fuel) {dry real : Nat} (hflags : SameFlags dry real)
    (mod : M) (extraOptions : Option CStr) (s t : ProbeState M) {kernel kernel' : Kernel}
    (hsub : kernel ⊆ kernel') :
    ∃ d r, probeInsert ctx fuel mod dry extraOptions s kernel = .ok d ∧
      probeInsert ctx fuel mod real extraOptions t kernel' = .ok r ∧ Shown kernel d r := by
  obtain ⟨s', t', hs', ht', hsame⟩ := same_list ctx.toProbeCtx hfuel mod
    (hasFlag real KMOD_PROBE_IGNORE_COMMAND) s t
  -- a module that was loaded before is loaded now
  have hloaded :
      (!hasFlag real KMOD_PROBE_IGNORE_LOADED && moduleIsInkernel ctx kernel mod) = true →
      (!hasFlag real KMOD_PROBE_IGNORE_LOADED && moduleIsInkernel ctx kernel' mod) = true := by
    intro h
    rw [Bool.and_eq_true] at h ⊢
    exact ⟨h.1, decide_eq_true (hsub (of_decide_eq_true h.2))⟩
  have hnone : ∀ err err', Shown kernel ⟨err, kernel, s, []⟩ ⟨err', kernel', t, []⟩ :=
    fun _ _ => ⟨rfl, hsub, List.Sublist.refl _⟩
  unfold probeInsert
  rw [hflags.ignoreLoaded, hflags.failOnLoaded, hflags.ignoreCommand,
    blacklistedResult_eq hflags]
  by_cases hdry : (!hasFlag real KMOD_PROBE_IGNORE_LOADED && moduleIsInkernel ctx kernel mod) = true
  · rw [if_pos hdry, if_pos (hloaded hdry)]
    split <;> exact ⟨_, _, rfl, rfl, hnone _ _⟩
  · rw [if_neg hdry]
    have hlooks : Looks ctx mod dry kernel := by
      unfold Looks
      rw [hflags.ignoreLoaded]
      exact Bool.eq_false_iff.mpr hdry
    by_cases hreal :
        (!hasFlag real KMOD_PROBE_IGNORE_LOADED && moduleIsInkernel ctx kernel' mod) = true
    · -- it has been loaded in the meantime
      have hearly : ∃ err, (if hasFlag real KMOD_PROBE_FAIL_ON_LOADED = true
          then Except.ok ⟨-EEXIST, kernel', t, []⟩ else .ok ⟨0, kernel', t, []⟩)
            = (Except.ok ⟨err, kernel', t, []⟩ : Except Fault (Outcome M)) := by
        split <;> exact ⟨_, rfl⟩
      obtain ⟨err, hearly⟩ := hearly
      rw [if_pos hreal, hearly]
      cases blacklistedResult ctx mod real with
      | some ret => exact ⟨_, _, rfl, rfl, hnone _ _⟩
      | none =>
        rw [hs']
        refine ⟨_, _, rfl, rfl, ?_, hsub, List.nil_sublist _⟩
        exact (filteredShown_shows hgrows hflags extraOptions hsame hlooks hsub).1
    · rw [if_neg hreal]
      cases blacklistedResult ctx mod real with
      | some ret => exact ⟨_, _, rfl, rfl, hnone _ _⟩
      | none =>
        rw [hs', ht']
        obtain ⟨hkernel, hgrown, hevents⟩ :=
          filteredShown_shows hgrows hflags extraOptions hsame hlooks hsub
        exact ⟨_, _, rfl, rfl, hkernel, hgrown, hevents⟩

omit [DecidableEq M] [Fintype M] in
theorem hasFlag_or (a b flag : Nat) :
    hasFlag (a ||| b) flag = (hasFlag a flag || hasFlag b flag) := by
  unfold hasFlag
  rw [Nat.and_or_distrib_right, ← Bool.decide_or, decide_eq_decide, Ne, Nat.or_eq_zero_iff,
    not_and_or]

omit [DecidableEq M] [Fintype M] in
theorem hasFlag_ite (b : Bool) (a flag : Nat) :
    hasFlag (if b then a else 0) flag = (b && hasFlag a flag) := by
  cases b with
  | true => rfl
  | false =>
    unfold hasFlag
    rw [if_neg Bool.false_ne_true, Nat.zero_and]
    rfl

/-- What `insmod` sets. -/
theorem hasFlag_insmodFlags (opts : InsmodOpts) :
    hasFlag (insmodFlags opts) KMOD_PROBE_DRY_RUN = opts.dryRun ∧
      hasFlag (insmodFlags opts) KMOD_PROBE_IGNORE_LOADED = opts.ignoreLoaded ∧
      hasFlag (insmodFlags opts) KMOD_PROBE_IGNORE_COMMAND = opts.ignoreCommands ∧
      hasFlag (insmodFlags opts) KMOD_PROBE_FAIL_ON_LOADED = opts.firstTime ∧
      hasFlag (insmodFlags opts) KMOD_PROBE_APPLY_BLACKLIST_ALL = false ∧
      hasFlag (insmodFlags opts) KMOD_PROBE_APPLY_BLACKLIST = opts.useBlacklist ∧
      hasFlag (insmodFlags opts) KMOD_PROBE_APPLY_BLACKLIST_ALIAS_ONLY = true := by
  unfold insmodFlags
  simp only [hasFlag_or, hasFlag_ite]
  refine ⟨?_, ?_, ?_, ?_, ?_, ?_, ?_⟩ <;> simp [hasFlag, KMOD_PROBE_DRY_RUN,
    KMOD_PROBE_IGNORE_LOADED, KMOD_PROBE_IGNORE_COMMAND, KMOD_PROBE_FAIL_ON_LOADED,
    KMOD_PROBE_APPLY_BLACKLIST_ALL, KMOD_PROBE_APPLY_BLACKLIST,
    KMOD_PROBE_APPLY_BLACKLIST_ALIAS_ONLY, KMOD_PROBE_FORCE_MODVERSION, KMOD_PROBE_FORCE_VERMAGIC]

/-- The options of a dry run and of the real one set the same flags. -/
theorem sameFlags_of_opts (opts : InsmodOpts) :
    SameFlags (insmodFlags { opts with dryRun := true })
      (insmodFlags { opts with dryRun := false }) := by
  obtain ⟨hdry, hloaded, hcommand, hfirst, hall, hblack, halias⟩ :=
    hasFlag_insmodFlags { opts with dryRun := true }
  obtain ⟨-, hloaded', hcommand', hfirst', hall', hblack', halias'⟩ :=
    hasFlag_insmodFlags { opts with dryRun := false }
  exact ⟨hdry, hloaded.trans hloaded'.symm, hcommand.trans hcommand'.symm,
    hfirst.trans hfirst'.symm, hall.trans hall'.symm, hblack.trans hblack'.symm,
    halias.trans halias'.symm⟩

section Modprobe

variable {ctx : ModprobeCtx M} (opts : InsmodOpts)

theorem insmodInsert_shows (hgrows : Grows ctx.toInsertCtx)
    (hfuel : 2 * Fintype.card M + 1 ≤ fuel) (mod : M) (extraOptions : Option CStr)
    (s t : ProbeState M) {kernel kernel' : Kernel} (hsub : kernel ⊆ kernel') :
    ∃ d r, insmodInsert ctx { opts with dryRun := true } fuel mod extraOptions s kernel = .ok d ∧
      insmodInsert ctx { opts with dryRun := false } fuel mod extraOptions t kernel' = .ok r ∧
      Shown kernel d r := by
  unfold insmodInsert
  by_cases hlookup : opts.lookupOnly = true
  · rw [if_pos hlookup, if_pos hlookup]
    exact ⟨_, _, rfl, rfl, rfl, hsub, List.Sublist.refl _⟩
  · obtain ⟨d, r, hd, hr, hkernel, hgrown, hevents⟩ := probeInsert_shows hgrows hfuel
      (sameFlags_of_opts opts) mod extraOptions s t hsub
    rw [if_neg hlookup, if_neg hlookup, hd, hr]
    exact ⟨_, _, rfl, rfl, hkernel, hgrown, hevents⟩

/-- One more module. -/
theorem insmodList_shows (hgrows : Grows ctx.toInsertCtx)
    (hfuel : 2 * Fintype.card M + 1 ≤ fuel) (extraOptions : Option CStr) (list : List M) :
    ∀ {before : Kernel} {dry real : Outcome M}, Shown before dry real →
      ∃ d r, insmodList ctx { opts with dryRun := true } fuel extraOptions list dry = .ok d ∧
        insmodList ctx { opts with dryRun := false } fuel extraOptions list real = .ok r ∧
        Shown before d r := by
  induction list with
  | nil => exact fun h => ⟨_, _, rfl, rfl, h⟩
  | cons mod list ih =>
    intro before dry real h
    obtain ⟨d, r, hd, hr, hshown⟩ := insmodInsert_shows opts hgrows hfuel mod extraOptions
      dry.marks real.marks (show dry.kernel ⊆ real.kernel from h.kernel ▸ h.grown)
    rw [insmodList, insmodList, hd, hr]
    exact ih ⟨hshown.kernel.trans h.kernel, h.kernel ▸ hshown.grown,
      h.events.append hshown.events⟩

theorem insmod_shows (hgrows : Grows ctx.toInsertCtx)
    (hfuel : 2 * Fintype.card M + 1 ≤ fuel) (alias_ : CStr) (extraOptions : Option CStr)
    (s t : ProbeState M) {kernel kernel' : Kernel} (hsub : kernel ⊆ kernel') :
    ∃ d r, insmod ctx { opts with dryRun := true } fuel alias_ extraOptions s kernel = .ok d ∧
      insmod ctx { opts with dryRun := false } fuel alias_ extraOptions t kernel' = .ok r ∧
      Shown kernel d r := by
  unfold insmod
  cases moduleNewFromAny ctx alias_ with
  | error err => exact ⟨_, _, rfl, rfl, rfl, hsub, List.Sublist.refl _⟩
  | ok list =>
    exact insmodList_shows opts hgrows hfuel extraOptions list ⟨rfl, hsub, List.Sublist.refl _⟩

theorem insmodAllFrom_shows (hgrows : Grows ctx.toInsertCtx)
    (hfuel : 2 * Fintype.card M + 1 ≤ fuel) (args : List CStr) :
    ∀ {before : Kernel} {dry real : Outcome M}, Shown before dry real →
      ∃ d r, insmodAllFrom ctx { opts with dryRun := true } fuel args dry = .ok d ∧
        insmodAllFrom ctx { opts with dryRun := false } fuel args real = .ok r ∧
        Shown before d r := by
  induction args with
  | nil => exact fun h => ⟨_, _, rfl, rfl, h⟩
  | cons arg args ih =>
    intro before dry real h
    obtain ⟨d, r, hd, hr, hshown⟩ := insmod_shows opts hgrows hfuel arg none
      dry.marks real.marks (show dry.kernel ⊆ real.kernel from h.kernel ▸ h.grown)
    rw [insmodAllFrom, insmodAllFrom, hd, hr]
    exact ih ⟨hshown.kernel.trans h.kernel, h.kernel ▸ hshown.grown,
      h.events.append hshown.events⟩

end Modprobe

end Calls

/-! ## If nothing fails -/

/-- Whatever is done with a module that is not loaded succeeds, and loads it. -/
structure Works (ctx : InsertCtx M) : Prop where
  command : ∀ m options kernel, ctx.name m ∉ kernel →
    ctx.doInstallCommands m options kernel = (0, insert (ctx.name m) kernel)
  insert : ∀ m flags options kernel, ctx.name m ∉ kernel →
    ctx.insertModule m flags options kernel = (0, insert (ctx.name m) kernel)

/-- What is left of events if each module is loaded once. -/
def onceEach (ctx : InsertCtx M) : Kernel → List (Event M) → List (Event M)
  | _, [] => []
  | kernel, .name mod :: events => .name mod :: onceEach ctx kernel events
  | kernel, .action mod install options :: events =>
    if ctx.name mod ∈ kernel then onceEach ctx kernel events
    else .action mod install options :: onceEach ctx (insert (ctx.name mod) kernel) events

/-- **A run in which nothing fails** does all that the dry run shows, each module once. -/
theorem probeShown_works {ctx : InsertCtx M} (hworks : Works ctx) {dry real : Nat}
    (hflags : SameFlags dry real) (hreal : hasFlag real KMOD_PROBE_DRY_RUN = false)
    (hignore : hasFlag real KMOD_PROBE_IGNORE_LOADED = false)
    (hfirst : hasFlag real KMOD_PROBE_FAIL_ON_LOADED = false) (mod : M)
    (extraOptions : Option CStr) (s : ProbeState M) {kernel : Kernel} (list : List M) :
    ∀ kernel' : Kernel, kernel ⊆ kernel' →
      ∃ kernel'', probeShown ctx mod real extraOptions s list 0 kernel'
        = ((0, kernel''),
          onceEach ctx kernel' (shownAll ctx mod dry extraOptions s kernel list)) := by
  have hdry := hflags.ignoreLoaded.trans hignore
  induction list with
  | nil => exact fun kernel' _ => ⟨kernel', rfl⟩
  | cons m list ih =>
    intro kernel' hsub
    have hno : ¬ hasFlag real KMOD_PROBE_FAIL_ON_LOADED = true := by
      rw [hfirst]
      exact Bool.false_ne_true
    have hcons : shownAll ctx mod dry extraOptions s kernel (m :: list)
        = shownModule ctx mod dry extraOptions s m kernel ++
          shownAll ctx mod dry extraOptions s kernel list := rfl
    rw [probeShown, hcons]
    by_cases hm : ctx.name m ∈ kernel'
    · -- it is loaded by now, whether it was before or not
      have hloaded : (!hasFlag real KMOD_PROBE_IGNORE_LOADED && moduleIsInkernel ctx kernel' m)
          = true := by
        rw [hignore]
        exact decide_eq_true hm
      have hprobe : probeModule ctx mod real extraOptions s m 0 kernel' = (-EEXIST, kernel') :=
        if_pos hloaded
      have hshown : shownModule ctx mod real extraOptions s m kernel' = [] := if_pos hloaded
      have honce : ∀ events, onceEach ctx kernel'
          (shownModule ctx mod dry extraOptions s m kernel ++ events)
            = onceEach ctx kernel' events := by
        intro events
        unfold shownModule
        split
        · rfl
        · exact if_pos hm
      obtain ⟨kernel'', hrest⟩ := ih kernel' hsub
      rw [hprobe, hshown]
      dsimp only
      rw [if_neg (fun h => hno h.2.2), if_pos (.inl rfl), hrest, honce]
      exact ⟨kernel'', rfl⟩
    · have hnot : ¬ (!hasFlag real KMOD_PROBE_IGNORE_LOADED && moduleIsInkernel ctx kernel' m)
          = true := by
        rw [hignore]
        exact fun h => hm (of_decide_eq_true h)
      have hbefore : ¬ (!hasFlag dry KMOD_PROBE_IGNORE_LOADED && moduleIsInkernel ctx kernel m)
          = true := by
        rw [hdry]
        exact fun h => hm (hsub (of_decide_eq_true h))
      have hprobe : probeModule ctx mod real extraOptions s m 0 kernel'
          = (0, insert (ctx.name m) kernel') := by
        unfold probeModule
        rw [if_neg hnot, hreal]
        dsimp only
        rw [if_neg Bool.false_ne_true]
        split
        · exact hworks.command m _ kernel' hm
        · exact hworks.insert m real _ kernel' hm
      have hshown : shownModule ctx mod real extraOptions s m kernel'
          = shownModule ctx mod dry extraOptions s m kernel := by
        unfold shownModule
        rw [if_neg hnot, if_neg hbefore]
      have honce : ∀ events, onceEach ctx kernel'
          (shownModule ctx mod dry extraOptions s m kernel ++ events)
            = shownModule ctx mod dry extraOptions s m kernel ++
              onceEach ctx (insert (ctx.name m) kernel') events := by
        intro events
        unfold shownModule
        rw [if_neg hbefore]
        exact if_neg hm
      obtain ⟨kernel'', hrest⟩ := ih (insert (ctx.name m) kernel')
        (hsub.trans (Finset.subset_insert ..))
      have hgo : ∀ {α : Type} (a b : α),
          (if (0 : Int) = -EEXIST ∨ s.required m = false then a else if (0 : Int) < 0 then b else a)
            = a := by
        intro α a b
        split
        · rfl
        · exact if_neg (by decide)
      rw [hprobe, hshown]
      dsimp only
      rw [if_neg (fun h => hno h.2.2), hgo, hrest, honce]
      exact ⟨kernel'', rfl⟩

omit [DecidableEq M] in
theorem blacklistedResult_nonneg {ctx : InsertCtx M} {mod : M} {flags : Nat} {ret : Int}
    (h : blacklistedResult ctx mod flags = some ret) : 0 ≤ ret := by
  unfold blacklistedResult at h
  repeat' split at h
  all_goals first
    | cases h; decide
    | cases h

section Works

variable [Fintype M] {fuel : Nat}

theorem probeInsert_works {ctx : InsertCtx M} (hworks : Works ctx)
    (hfuel : 2 * Fintype.card M + 1 ≤ fuel) {dry real : Nat} (hflags : SameFlags dry real)
    (hreal : hasFlag real KMOD_PROBE_DRY_RUN = false)
    (hignore : hasFlag real KMOD_PROBE_IGNORE_LOADED = false)
    (hfirst : hasFlag real KMOD_PROBE_FAIL_ON_LOADED = false) (mod : M)
    (extraOptions : Option CStr) (s : ProbeState M) (kernel : Kernel) :
    ∃ d r, probeInsert ctx fuel mod dry extraOptions s kernel = .ok d ∧
      probeInsert ctx fuel mod real extraOptions s kernel = .ok r ∧
      0 ≤ r.err ∧ r.events = onceEach ctx kernel d.events := by
  obtain ⟨s', _, hs', -, -⟩ := same_list ctx.toProbeCtx hfuel mod
    (hasFlag real KMOD_PROBE_IGNORE_COMMAND) s s
  unfold probeInsert
  rw [hflags.ignoreLoaded, hflags.failOnLoaded, hflags.ignoreCommand, hfirst,
    blacklistedResult_eq hflags]
  by_cases hloaded : (!hasFlag real KMOD_PROBE_IGNORE_LOADED && moduleIsInkernel ctx kernel mod)
      = true
  · rw [if_pos hloaded, if_pos hloaded]
    exact ⟨_, _, rfl, rfl, Int.le_refl 0, rfl⟩
  · rw [if_neg hloaded, if_neg hloaded]
    have hlooks : Looks ctx mod dry kernel := by
      unfold Looks
      rw [hflags.ignoreLoaded]
      exact Bool.eq_false_iff.mpr hloaded
    cases hblack : blacklistedResult ctx mod real with
    | some ret => exact ⟨_, _, rfl, rfl, blacklistedResult_nonneg hblack, rfl⟩
    | none =>
      rw [hs']
      refine ⟨_, _, rfl, rfl, ?_⟩
      have hlist : ∀ list, 0 ≤ (probeShown ctx mod real extraOptions s' list 0 kernel).1.1 ∧
          (probeShown ctx mod real extraOptions s' list 0 kernel).2
            = onceEach ctx kernel (probeShown ctx mod dry extraOptions s' list 0 kernel).2 := by
        intro list
        obtain ⟨err, hdry⟩ := probeShown_dry hflags.dryRun hlooks extraOptions s' list 0
          (Int.le_refl 0)
        obtain ⟨kernel'', hrun⟩ := probeShown_works hworks hflags hreal hignore hfirst mod
          extraOptions s' list kernel (Finset.Subset.refl kernel)
        rw [hrun, hdry]
        exact ⟨Int.le_refl 0, rfl⟩
      show 0 ≤ (filteredShown ctx mod real extraOptions s' kernel).1.1 ∧
        (filteredShown ctx mod real extraOptions s' kernel).2
          = onceEach ctx kernel (filteredShown ctx mod dry extraOptions s' kernel).2
      unfold filteredShown
      rw [hflags.all]
      split
      · cases s'.list.filter (fun m => !moduleIsBlacklisted ctx m) with
        | nil => exact ⟨Int.natCast_nonneg _, rfl⟩
        | cons m list => exact hlist _
      · exact hlist _

theorem insmodAll_works {ctx : ModprobeCtx M} (hworks : Works ctx.toInsertCtx)
    (hfuel : 2 * Fintype.card M + 1 ≤ fuel) {opts : InsmodOpts}
    (hignore : opts.ignoreLoaded = false) (hfirst : opts.firstTime = false) {arg : CStr} {mod : M}
    (hmod : moduleNewFromAny ctx arg = .ok [mod]) (s : ProbeState M) (kernel : Kernel) :
    ∃ d r, insmodAll ctx { opts with dryRun := true } fuel [arg] s kernel = .ok d ∧
      insmodAll ctx { opts with dryRun := false } fuel [arg] s kernel = .ok r ∧
      r.err = 0 ∧ r.events = onceEach ctx.toInsertCtx kernel d.events := by
  have hflags := sameFlags_of_opts opts
  obtain ⟨hreal, hloaded, -, hfail, -⟩ := hasFlag_insmodFlags { opts with dryRun := false }
  obtain ⟨d, r, hd, hr, herr, honce⟩ := probeInsert_works hworks hfuel hflags hreal
    (hloaded.trans hignore) (hfail.trans hfirst) mod none s kernel
  unfold insmodAll insmodAllFrom insmod
  rw [hmod]
  dsimp only [insmodList]
  unfold insmodInsert
  by_cases hlookup : opts.lookupOnly = true
  · rw [if_pos hlookup, if_pos hlookup]
    exact ⟨_, _, rfl, rfl, rfl, rfl⟩
  · rw [if_neg hlookup, if_neg hlookup, hd, hr]
    refine ⟨_, _, rfl, rfl, ?_, honce⟩
    show (if min r.err 0 < 0 then min r.err 0 else 0) = 0
    rw [min_eq_right herr]
    rfl

end Works

/-- **A dry run shows all that a real run can do.** It leaves the kernel alone. Whatever succeeds
or fails, a real run does nothing else, and it does it in the order that was shown; so what it
prints is a part of what was printed. If nothing fails, and one module is asked for that may be
loaded already, it does all that was shown, each module once. -/
theorem dryRun_shows [Fintype M] {ctx : ModprobeCtx M} (hgrows : Grows ctx.toInsertCtx)
    {fuel : Nat} (hfuel : 2 * Fintype.card M + 1 ≤ fuel) (opts : InsmodOpts) (args : List CStr)
    (s : ProbeState M) (kernel : Kernel) :
    ∃ dry real, insmodAll ctx { opts with dryRun := true } fuel args s kernel = .ok dry ∧
      insmodAll ctx { opts with dryRun := false } fuel args s kernel = .ok real ∧
      dry.kernel = kernel ∧ kernel ⊆ real.kernel ∧ real.events.Sublist dry.events ∧
      (printed ctx opts real).Sublist (printed ctx opts dry) ∧
      (Works ctx.toInsertCtx → opts.ignoreLoaded = false → opts.firstTime = false →
        ∀ arg mod, args = [arg] → moduleNewFromAny ctx arg = .ok [mod] →
          real.err = 0 ∧ real.events = onceEach ctx.toInsertCtx kernel dry.events) := by
  obtain ⟨dry, real, hdry, hreal, hkernel, hgrown, hevents⟩ := insmodAllFrom_shows opts hgrows
    hfuel args (show Shown kernel ⟨0, kernel, s, []⟩ ⟨0, kernel, s, []⟩ from
      ⟨rfl, Finset.Subset.refl _, List.Sublist.refl _⟩)
  refine ⟨dry, real, hdry, hreal, hkernel, hgrown, hevents, hevents.flatMap _, ?_⟩
  rintro hworks hignore hfirst arg mod rfl hmod
  obtain ⟨d, r, hd, hr, herr, honce⟩ := insmodAll_works hworks hfuel hignore hfirst hmod s kernel
  obtain rfl : d = dry := Except.ok.inj (hd.symm.trans hdry)
  obtain rfl : r = real := Except.ok.inj (hr.symm.trans hreal)
  exact ⟨herr, honce⟩

end

/-- The module `b` needs `a`, and is a softdep of it that comes before. -/
def softCtx : ModprobeCtx (Fin 2) where
  toInsertCtx := { preCtx with
    doInstallCommands := fun m _ kernel => (0, insert (preCtx.name m) kernel) }
  newFromPath := fun _ => .error (-ENOENT)
  path := fun m => some (preCtx.name m ++ cstr ".ko")
  isBuiltin := fun _ => false

/-- `modprobe -v` -/
def verboseOpts : InsmodOpts where
  stripModversion := false
  stripVermagic := false
  force := false
  ignoreCommands := false
  ignoreLoaded := false
  dryRun := false
  useBlacklist := false
  firstTime := false
  doShow := false
  verbose := true
  lookupOnly := false

/-- A dry run shows `a` twice, and a real run inserts it once. -/
theorem dryRun_shows_soft : ∃ dry real,
    insmodAll softCtx { verboseOpts with dryRun := true } 5 [cstr "a"] unmarked ∅ = .ok dry ∧
      insmodAll softCtx verboseOpts 5 [cstr "a"] unmarked ∅ = .ok real ∧
      printed softCtx verboseOpts dry = cstr "insmod a.ko \ninsmod b.ko \ninsmod a.ko \n" ∧
      printed softCtx verboseOpts real = cstr "insmod a.ko \ninsmod b.ko \n" := by
  have hgrows : Grows softCtx.toInsertCtx :=
    ⟨fun _ _ _ => Finset.subset_insert .., fun _ _ _ _ => Finset.subset_insert ..⟩
  have hworks : Works softCtx.toInsertCtx := ⟨fun _ _ _ _ => rfl, fun _ _ _ _ _ => rfl⟩
  obtain ⟨dry, real, hdry, hreal, -, -, -, -, honce⟩ := dryRun_shows hgrows
    (show 2 * Fintype.card (Fin 2) + 1 ≤ 5 by decide) verboseOpts [cstr "a"] unmarked ∅
  obtain ⟨-, hevents⟩ := honce hworks rfl rfl (cstr "a") 0 rfl (by decide)
  have hshown : (insmodAll softCtx { verboseOpts with dryRun := true } 5 [cstr "a"] unmarked ∅).map
      Outcome.events = .ok [.action 0 false [], .action 1 false [], .action 0 false []] := by
    decide +kernel
  rw [hdry] at hshown
  have hdryEvents := Except.ok.inj hshown
  rw [hdryEvents] at hevents
  refine ⟨dry, real, hdry, hreal, ?_, ?_⟩
  · unfold printed
    rw [hdryEvents]
    decide
  · unfold printed
    rw [hevents]
    decide

end Kmod.DryRun
