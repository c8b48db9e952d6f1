import Kmod.Libkmod.ProbeInsert
import Mathlib.Data.Finset.Card

/-!
# Removing a module

`rmmod_do_module` of modprobe removes a module and then, of its dependencies,
those that are not in use any more. It goes through the dependencies in the order
of `kmod_module_get_dependencies`, each one before the modules that use it, so a
dependency is looked at while its users are still there.

The kernel is an interface here (`RmmodCtx`); `graphKernel` is the kernel in which
the refcount of a module counts the loaded modules that directly depend on it.
Over it the result of a removal is computed (`rmmodDoModule_graph`), and the states
are characterised from which it leaves no unused dependency
(`rmmodDoModule_leaves_none_iff`).
-/

namespace Kmod

open Relation

/-! ## The model -/

def KMOD_MODULE_BUILTIN : Int := 0
def KMOD_MODULE_LIVE : Int := 1

def RMMOD_FLAG_REMOVE_HOLDERS : Nat := 0x1
def RMMOD_FLAG_IGNORE_BUILTIN : Nat := 0x2

/-- The options of modprobe that a removal uses; `wait_msec` is zero. -/
structure RmmodOpts where
  dryRun : Bool
  force : Bool
  firstTime : Bool
  ignoreCommands : Bool
  ignoreLoaded : Bool

/-- What a removal uses of a context, and of a kernel with states `S`. -/
structure RmmodCtx (M S : Type) extends ProbeCtx M where
  /-- `kmod_module_get_remove_commands`. -/
  removeCommands : M → Option CStr
  /-- `kmod_module_get_initstate`. -/
  initstate : M → S → Int
  /-- `kmod_module_get_refcnt`. -/
  refcnt : M → S → Int
  /-- `kmod_module_get_holders`. -/
  holders : M → S → List M
  /-- `kmod_module_remove_module`, with or without `KMOD_REMOVE_FORCE`. -/
  removeModule : M → Bool → S → Int × S
  /-- `command_do` for a remove command. -/
  commandDo : M → CStr → S → Int × S

section Model

variable {M S : Type} (ctx : RmmodCtx M S) (opts : RmmodOpts)

/-- `rmmod_do_remove_module`. -/
def rmmodDoRemoveModule (mod : M) (s : S) : Int × S :=
  if opts.dryRun then (0, s)
  else
    let (err, s) := ctx.removeModule mod opts.force s
    if err = -EEXIST then (if opts.firstTime then err else 0, s) else (err, s)

/-- `rmmod_do_modlist`, with what is to be done for a module; `list` is in reverse order already. -/
def rmmodDoModlist (doModule : M → S → Except Fault (Int × S)) (stopOnErrors : Bool) :
    List M → S → Except Fault (Int × S)
  | [], s => .ok (0, s)
  | m :: list, s => do
    let (r, s) ← doModule m s
    if r < 0 ∧ stopOnErrors then .ok (r, s) else rmmodDoModlist doModule stopOnErrors list s

/-- The quick check: what is returned if there is nothing to remove. -/
def nothingToRemove (mod : M) (flags : Nat) (cmd : Option CStr) (s : S) : Option Int :=
  if cmd.isNone && !opts.ignoreLoaded then
    let state := ctx.initstate mod s
    if state < 0 then some (if opts.firstTime then -ENOENT else 0)
    else if state = KMOD_MODULE_BUILTIN then
      some (if hasFlag flags RMMOD_FLAG_IGNORE_BUILTIN then 0 else -ENOENT)
    else none
  else none

/-- Step 3: the module itself. -/
def removeItself (mod : M) (cmd : Option CStr) (s : S) : Int × S :=
  if cmd.isNone && !opts.ignoreLoaded && 0 < ctx.refcnt mod s then (-EBUSY, s)
  else
    match cmd with
    | none => if ctx.refcnt mod s ≠ -ENOENT then rmmodDoRemoveModule ctx opts mod s else (0, s)
    | some cmd => ctx.commandDo mod cmd s

/-- Step 4: other modules that became unused; errors are not fatal. -/
def removeUnused (deps : List M) (s : S) : S :=
  deps.foldl (fun s dep => if ctx.refcnt dep s = 0 then (rmmodDoRemoveModule ctx opts dep s).2 else s) s

/-- The softdeps of a module, unless they are ignored. -/
def rmmodSoftdeps (mod : M) : List M × List M :=
  if opts.ignoreCommands then ([], []) else kmodModuleGetSoftdeps ctx.toProbeCtx mod

/-- The remove command of a module, unless it is ignored. -/
def rmmodCommand (mod : M) : Option CStr :=
  if opts.ignoreCommands then none else ctx.removeCommands mod

/-- Step 2: other modules that hold the module. -/
def removeHolders (doModule : M → S → Except Fault (Int × S)) (mod : M) (flags : Nat) (s : S) :
    Except Fault (Int × S) :=
  if hasFlag flags RMMOD_FLAG_REMOVE_HOLDERS then
    rmmodDoModlist doModule true (ctx.holders mod s).reverse s
  else .ok (0, s)

/-- `rmmod_do_module`: what it returns, and the state of the kernel then. -/
def rmmodDoModule : Nat → M → Nat → S → Except Fault (Int × S)
  | 0, _, _, _ => .error .outOfFuel
  | fuel + 1, mod, flags, s =>
    let doModule := fun m s => rmmodDoModule fuel m RMMOD_FLAG_IGNORE_BUILTIN s
    let cmd := rmmodCommand ctx opts mod
    match nothingToRemove ctx opts mod flags cmd s with
    | some err => .ok (err, s)
    | none => do
      let (_, s) ← rmmodDoModlist doModule false (rmmodSoftdeps ctx opts mod).2.reverse s
      let (err, s) ← removeHolders ctx doModule mod flags s
      if err < 0 then .ok (err, s)
      else
        let (err, s) := removeItself ctx opts mod cmd s
        if err < 0 then .ok (err, s)
        else do
          let s := if cmd.isNone then removeUnused ctx opts (ctx.dep mod) s else s
          let (_, s) ← rmmodDoModlist doModule false (rmmodSoftdeps ctx opts mod).1.reverse s
          .ok (err, s)

end Model

/-! ## A kernel that counts users -/

section GraphKernel

variable {M : Type} [DecidableEq M]

/-- The loaded modules that directly depend on `d`. -/
def users (direct : M → List M) (loaded : Finset M) (d : M) : Finset M :=
  loaded.filter (fun u => d ∈ direct u)

/-- How many they are. -/
def graphRefcnt (direct : M → List M) (d : M) (loaded : Finset M) : Int :=
  if d ∈ loaded then (users direct loaded d).card else -ENOENT

/-- The kernel is a set of loaded modules; one that no loaded module depends on can be removed. -/
def graphKernel (ctx : RmmodCtx M (Finset M)) (direct : M → List M) : RmmodCtx M (Finset M) :=
  { ctx with
    initstate := fun m loaded => if m ∈ loaded then KMOD_MODULE_LIVE else -ENOENT
    refcnt := graphRefcnt direct
    removeModule := fun m _ loaded =>
      if graphRefcnt direct m loaded = 0 then (0, loaded.erase m)
      else if m ∈ loaded then (-EAGAIN, loaded)
      else (-ENOENT, loaded) }

/-- `dep` lists the modules a module depends on, each once and dependencies first. -/
structure TransitiveDeps (direct dep : M → List M) : Prop where
  mem : ∀ {m d}, d ∈ dep m ↔ TransGen (fun a b => b ∈ direct a) m d
  nodup : ∀ m, (dep m).Nodup
  first : DepsFirst dep

omit [DecidableEq M] in
theorem TransitiveDeps.irrefl {direct dep : M → List M} (h : TransitiveDeps direct dep) (m : M) :
    m ∉ dep m := by
  intro hmem
  obtain ⟨before, after, heq⟩ := List.append_of_mem hmem
  have hnd := h.nodup m
  rw [heq, List.nodup_append] at hnd
  exact hnd.2.2 m (h.first.first heq hmem) m (List.mem_cons_self ..) rfl

variable {ctx : RmmodCtx M (Finset M)} {direct : M → List M} {opts : RmmodOpts} {loaded : Finset M}

theorem graphRefcnt_eq_zero {d : M} :
    graphRefcnt direct d loaded = 0 ↔ d ∈ loaded ∧ users direct loaded d = ∅ := by
  unfold graphRefcnt
  by_cases hd : d ∈ loaded
  · simp [hd]
  · simp [hd, ENOENT]

theorem graphRefcnt_pos {d : M} (hd : d ∈ loaded) :
    0 < graphRefcnt direct d loaded ↔ (users direct loaded d).Nonempty := by
  unfold graphRefcnt
  rw [if_pos hd, ← Finset.card_pos]
  omega

/-- Removing a module that is not in use. -/
theorem rmmodDoRemoveModule_graph (hdry : opts.dryRun = false) {d : M}
    (h : graphRefcnt direct d loaded = 0) :
    rmmodDoRemoveModule (graphKernel ctx direct) opts d loaded = (0, loaded.erase d) := by
  unfold rmmodDoRemoveModule
  rw [hdry]
  simp only [graphKernel, h, if_true]
  rfl

/-! ## What a removal leaves -/

/-- `d` is used by no loaded module but `m`. -/
def OnlyUser (direct : M → List M) (loaded : Finset M) (m d : M) : Prop :=
  users direct (loaded.erase m) d = ∅

instance (m : M) : DecidablePred (OnlyUser direct loaded m) := fun d =>
  inferInstanceAs (Decidable (users direct (loaded.erase m) d = ∅))

/-- The modules left when `m` and the dependencies in `deps` that only `m` uses are removed. -/
def leftover (direct : M → List M) (loaded : Finset M) (m : M) (deps : List M) : Finset M :=
  (loaded.erase m).filter (fun x => ¬ (x ∈ deps ∧ OnlyUser direct loaded m x))

theorem mem_leftover {m x : M} {deps : List M} :
    x ∈ leftover direct loaded m deps ↔
      (x ≠ m ∧ x ∈ loaded) ∧ ¬ (x ∈ deps ∧ OnlyUser direct loaded m x) := by
  unfold leftover
  rw [Finset.mem_filter, Finset.mem_erase]

/--
**Step 4.** When the turn of a dependency comes, all its users but `m` are still
loaded: they stand behind it in the list.
-/
theorem users_leftover {m d : M} {before after : List M} (hdeps : TransitiveDeps direct ctx.dep)
    (heq : ctx.dep m = before ++ d :: after) :
    users direct (leftover direct loaded m before) d = users direct (loaded.erase m) d := by
  have hnd := hdeps.nodup m
  rw [heq, List.nodup_append] at hnd
  ext u
  rw [users, users, Finset.mem_filter, Finset.mem_filter, mem_leftover, Finset.mem_erase]
  refine ⟨fun h => ⟨h.1.1, h.2⟩, fun h => ⟨⟨h.1, fun hu => ?_⟩, h.2⟩⟩
  -- a user that was removed would stand before `d`, but `d` stands before its users
  obtain ⟨before₁, before₂, hsplit⟩ := List.append_of_mem hu.1
  have hfirst : ctx.dep u ⊆ before₁ := by
    have hu : ctx.dep m = before₁ ++ u :: (before₂ ++ d :: after) := by
      rw [heq, hsplit]
      simp
    exact hdeps.first.first hu
  have hd : d ∈ before₁ := hfirst (hdeps.mem.mpr (.single h.2))
  exact hnd.2.2 d (hsplit ▸ List.mem_append_left _ hd) d (List.mem_cons_self ..) rfl

/-- One round of step 4. -/
theorem leftover_step (hdry : opts.dryRun = false) {m d : M} {before after : List M}
    (hdeps : TransitiveDeps direct ctx.dep) (heq : ctx.dep m = before ++ d :: after)
    (hd : d ∈ loaded) :
    (if (graphKernel ctx direct).refcnt d (leftover direct loaded m before) = 0 then
        (rmmodDoRemoveModule (graphKernel ctx direct) opts d (leftover direct loaded m before)).2
      else leftover direct loaded m before) = leftover direct loaded m (before ++ [d]) := by
  have hne : d ≠ m := by
    rintro rfl
    exact hdeps.irrefl d (heq ▸ List.mem_append_right _ (List.mem_cons_self ..))
  have hnew : d ∉ before := by
    have hnd := hdeps.nodup m
    rw [heq, List.nodup_append] at hnd
    exact fun hin => hnd.2.2 d hin d (List.mem_cons_self ..) rfl
  have hin : d ∈ leftover direct loaded m before :=
    mem_leftover.mpr ⟨⟨hne, hd⟩, fun h => hnew h.1⟩
  -- the counter is zero exactly if only `m` used it
  have hzero : (graphKernel ctx direct).refcnt d (leftover direct loaded m before) = 0 ↔
      OnlyUser direct loaded m d := by
    refine graphRefcnt_eq_zero.trans ?_
    rw [users_leftover hdeps heq]
    exact ⟨fun h => h.2, fun h => ⟨hin, h⟩⟩
  ext x
  by_cases hu : OnlyUser direct loaded m d
  · rw [if_pos (hzero.mpr hu), rmmodDoRemoveModule_graph hdry (hzero.mpr hu), Finset.mem_erase,
      mem_leftover, mem_leftover, List.mem_append, List.mem_singleton]
    by_cases hx : x = d
    · simp [hx, hu]
    · simp [hx]
  · rw [if_neg (fun h => hu (hzero.mp h)), mem_leftover, mem_leftover, List.mem_append,
      List.mem_singleton]
    by_cases hx : x = d
    · simp [hx, hu]
    · simp [hx]

/-- The whole of step 4, from the point where the dependencies in `before` are done. -/
theorem removeUnused_graph (hdry : opts.dryRun = false) {m : M}
    (hdeps : TransitiveDeps direct ctx.dep) (hloaded : ∀ d ∈ ctx.dep m, d ∈ loaded) :
    ∀ {after before : List M}, ctx.dep m = before ++ after →
      removeUnused (graphKernel ctx direct) opts after (leftover direct loaded m before)
        = leftover direct loaded m (ctx.dep m) := by
  intro after
  -- on the dependencies still to come
  induction after with
  | nil =>
    intro before heq
    rw [List.append_nil] at heq
    rw [heq]
    rfl
  | cons d after ih =>
    intro before heq
    have hd : d ∈ ctx.dep m := heq ▸ List.mem_append_right _ (List.mem_cons_self ..)
    show removeUnused (graphKernel ctx direct) opts after (if _ then _ else _) = _
    rw [leftover_step hdry hdeps heq (hloaded d hd)]
    exact ih (by rw [heq, List.append_assoc]; rfl)

section Removal

variable {m : M} (hdry : opts.dryRun = false) (hdeps : TransitiveDeps direct ctx.dep)
  (hclosed : ∀ u ∈ loaded, ∀ d ∈ direct u, d ∈ loaded) (hm : m ∈ loaded)
  (hunused : graphRefcnt direct m loaded = 0)
  (hsoft : kmodModuleGetSoftdeps ctx.toProbeCtx m = ([], [])) (hcmd : ctx.removeCommands m = none)
include hdeps hclosed hm

omit [DecidableEq M] in
/-- The dependencies of a loaded module are loaded. -/
theorem dep_loaded : ∀ d ∈ ctx.dep m, d ∈ loaded := by
  intro d hd
  have hpath := hdeps.mem.mp hd
  induction hpath with
  | single h => exact hclosed _ hm _ h
  | tail hpath h ih => exact hclosed _ (ih (hdeps.mem.mpr hpath)) _ h

include hdry hunused hsoft hcmd

/-- **What a removal leaves**: all but the module and the dependencies that only it used. -/
theorem rmmodDoModule_graph (fuel : Nat) :
    rmmodDoModule (graphKernel ctx direct) opts (fuel + 1) m 0 loaded
      = .ok (0, leftover direct loaded m (ctx.dep m)) := by
  have hnocmd : rmmodCommand (graphKernel ctx direct) opts m = none := by
    show (if opts.ignoreCommands then none else ctx.removeCommands m) = none
    rw [hcmd]
    split <;> rfl
  have hnosoft : rmmodSoftdeps (graphKernel ctx direct) opts m = ([], []) := by
    show (if opts.ignoreCommands then ([], []) else kmodModuleGetSoftdeps ctx.toProbeCtx m) = _
    rw [hsoft]
    split <;> rfl
  have hcheck : nothingToRemove (graphKernel ctx direct) opts m 0 none loaded = none := by
    unfold nothingToRemove
    have hstate : (graphKernel ctx direct).initstate m loaded = KMOD_MODULE_LIVE := if_pos hm
    rw [hstate]
    split <;> rfl
  -- step 3 removes the module, step 4 goes through its dependencies
  have hitself : removeItself (graphKernel ctx direct) opts m none loaded =
      (0, loaded.erase m) := by
    have hzero : (graphKernel ctx direct).refcnt m loaded = 0 := hunused
    unfold removeItself
    rw [hzero, if_neg (by simp)]
    show (if (0 : Int) ≠ -ENOENT then _ else _) = _
    rw [if_pos (by decide), rmmodDoRemoveModule_graph hdry hunused]
  have hempty : leftover direct loaded m [] = loaded.erase m := by
    ext x
    simp [mem_leftover]
  have hrest : removeUnused (graphKernel ctx direct) opts (ctx.dep m) (loaded.erase m)
      = leftover direct loaded m (ctx.dep m) := by
    rw [← hempty]
    exact removeUnused_graph hdry hdeps (dep_loaded hdeps hclosed hm) rfl
  have hholders : ∀ doModule, removeHolders (graphKernel ctx direct) doModule m 0 loaded
      = .ok (0, loaded) := fun _ => rfl
  unfold rmmodDoModule
  simp only [hnocmd, hcheck, hnosoft, List.reverse_nil, rmmodDoModlist, hholders, bind,
    Except.bind, hitself]
  show Except.ok (0, removeUnused (graphKernel ctx direct) opts (ctx.dep m) (loaded.erase m)) = _
  rw [hrest]

/--
**Removing a module and what became unused.** In every kernel state that is closed
under dependencies, removing a loaded module that is not in use succeeds, and it
leaves no dependency of the module loaded and unused exactly if every dependency
that has another user than `m` has one that is not itself used by `m` alone.
-/
theorem rmmodDoModule_leaves_none_iff :
    ∃ loaded', (∀ fuel, rmmodDoModule (graphKernel ctx direct) opts (fuel + 1) m 0 loaded
        = .ok (0, loaded')) ∧
      ((∀ d ∈ ctx.dep m, d ∈ loaded' → 0 < graphRefcnt direct d loaded') ↔
        ∀ d ∈ ctx.dep m, (∃ u ∈ loaded, u ≠ m ∧ d ∈ direct u) →
          ∃ u ∈ loaded, u ≠ m ∧ d ∈ direct u ∧
            ¬ (u ∈ ctx.dep m ∧ ∀ w ∈ loaded, u ∈ direct w → w = m)) := by
  refine ⟨leftover direct loaded m (ctx.dep m),
    rmmodDoModule_graph hdry hdeps hclosed hm hunused hsoft hcmd, forall₂_congr (fun d hd => ?_)⟩
  have honly : ∀ x, OnlyUser direct loaded m x ↔ ∀ w ∈ loaded, x ∈ direct w → w = m := by
    intro x
    unfold OnlyUser users
    rw [Finset.filter_eq_empty_iff]
    simp only [Finset.mem_erase]
    exact ⟨fun h w hw hx => by_contra (fun hne => h ⟨hne, hw⟩ hx),
      fun h w hw hx => hw.1 (h w hw.2 hx)⟩
  have hne : d ≠ m := fun h => hdeps.irrefl m (h ▸ hd)
  -- a dependency is left exactly if it had another user than `m`
  have hin : d ∈ leftover direct loaded m (ctx.dep m) ↔ ∃ u ∈ loaded, u ≠ m ∧ d ∈ direct u := by
    rw [mem_leftover, honly]
    simp only [dep_loaded hdeps hclosed hm d hd, hne, hd, ne_eq, not_false_eq_true, true_and,
      not_forall, exists_prop]
    exact ⟨fun ⟨w, hw, hdw, hwm⟩ => ⟨w, hw, hwm, hdw⟩, fun ⟨w, hw, hwm, hdw⟩ => ⟨w, hw, hdw, hwm⟩⟩
  rw [hin]
  refine imp_congr_right (fun hused => ?_)
  rw [graphRefcnt_pos (hin.mpr hused)]
  refine ⟨?_, ?_⟩
  · rintro ⟨u, hu⟩
    unfold users at hu
    rw [Finset.mem_filter, mem_leftover, honly] at hu
    exact ⟨u, hu.1.1.2, hu.1.1.1, hu.2, hu.1.2⟩
  · rintro ⟨u, hu, hum, hdu, hkeep⟩
    refine ⟨u, ?_⟩
    unfold users
    rw [Finset.mem_filter, mem_leftover, honly]
    exact ⟨⟨⟨hum, hu⟩, hkeep⟩, hdu⟩

end Removal

end GraphKernel

/-! ## A chain of three modules -/

/-- Module `2` directly depends on `1`, and `1` on `0`. -/
def chainDirect (m : Fin 3) : List (Fin 3) := (List.finRange 3).filter (fun d => d.val + 1 = m.val)

/-- A context for them, without softdeps and commands. -/
def chainCtx : RmmodCtx (Fin 3) (Finset (Fin 3)) where
  name := fun m => [97 + UInt8.ofNat m]
  dep := fun m => (List.finRange 3).filter (· < m)
  softdeps := []
  newFromLookup := fun _ => .ok []
  fnmatch := fun pat str => pat = str
  removeCommands := fun _ => none
  initstate := fun _ _ => -ENOENT
  refcnt := fun _ _ => -ENOENT
  holders := fun _ _ => []
  removeModule := fun _ _ s => (0, s)
  commandDo := fun _ _ s => (0, s)

def plainOpts : RmmodOpts := ⟨false, false, false, false, false⟩

theorem chain_transitive : TransitiveDeps chainDirect chainCtx.dep where
  mem := by
    have hstep : ∀ a b : Fin 3, b ∈ chainDirect a ↔ b.val + 1 = a.val := by decide
    have hdown : ∀ m d : Fin 3, d < m → d ∈ chainDirect m ∨ ∃ c ∈ chainDirect m,
        d ∈ chainDirect c := by
      decide
    intro m d
    have hmem : d ∈ chainCtx.dep m ↔ d < m := by simp [chainCtx]
    rw [hmem]
    refine ⟨?_, ?_⟩
    · intro hlt
      rcases hdown m d hlt with h | ⟨c, hc, hd⟩
      · exact .single h
      · exact .tail (.single hc) hd
    · intro hpath
      clear hmem
      induction hpath with
      | single h =>
        rw [hstep] at h
        omega
      | tail _ h ih =>
        rw [hstep] at h
        omega
  nodup := by decide
  first := depsFirst_of_take (by decide)

theorem rmmodDoModule_leaves_none_chain :
    TransitiveDeps chainDirect chainCtx.dep ∧ graphRefcnt chainDirect 1 {0, 1} = 0 ∧
      ∃ loaded', (∀ fuel, rmmodDoModule (graphKernel chainCtx chainDirect) plainOpts (fuel + 1) 1 0
          {0, 1} = .ok (0, loaded')) ∧
        ∀ d ∈ chainCtx.dep 1, d ∈ loaded' → 0 < graphRefcnt chainDirect d loaded' := by
  have hclosed : ∀ u ∈ ({0, 1} : Finset (Fin 3)), ∀ d ∈ chainDirect u,
      d ∈ ({0, 1} : Finset (Fin 3)) := by
    decide
  obtain ⟨loaded', hrun, hiff⟩ := rmmodDoModule_leaves_none_iff
    (show plainOpts.dryRun = false from rfl) chain_transitive hclosed
    (show (1 : Fin 3) ∈ _ by decide) (by decide) rfl rfl
  exact ⟨chain_transitive, by decide, loaded', hrun, hiff.mpr (by decide)⟩

/-- Removing `2` removes `1` too, but leaves `0`, which nothing uses then. -/
theorem chain_leaves_unused :
    TransitiveDeps chainDirect chainCtx.dep ∧ graphRefcnt chainDirect 2 Finset.univ = 0 ∧
      (∀ fuel, rmmodDoModule (graphKernel chainCtx chainDirect) plainOpts (fuel + 1) 2 0 Finset.univ
        = .ok (0, {0})) ∧
      0 ∈ chainCtx.dep 2 ∧ graphRefcnt chainDirect 0 {0} = 0 := by
  refine ⟨chain_transitive, by decide, fun fuel => ?_, by decide, by decide⟩
  have hleft : leftover chainDirect Finset.univ 2 (chainCtx.dep 2) = {0} := by decide
  rw [rmmodDoModule_graph rfl chain_transitive (by simp) (by simp) (by decide) rfl rfl, hleft]

end Kmod
