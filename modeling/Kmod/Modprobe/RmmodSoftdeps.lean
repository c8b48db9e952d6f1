import Kmod.Lib.Digraph
import Kmod.Modprobe.Rmmod

/-!
# When a removal with softdeps ends

`rmmod_do_module` calls itself for the softdeps of a module, and nothing marks the
modules it is working on. What can stop it is that a module that has been removed is
not removed again: the `pre` softdeps of a module are looked at when the module is
gone, so there are fewer modules then. Its `post` softdeps are looked at before, and
so are its `pre` softdeps if the module is not removed at all, as in a dry run.

So a removal ends, whatever is loaded and in use, exactly if the softdeps of the
second kind (`HardEdge`) have no cycle (`rmmodDoModule_ends_iff`).
-/

namespace Kmod

open Kmod.Digraph

/-! ## The property -/

section Property

variable {M S : Type}

/-- A kernel in which modules are removed and none are loaded; `loaded` says which there are. -/
structure ShrinkingKernel (ctx : RmmodCtx M S) (loaded : S → Finset M) : Prop where
  live : ∀ {m s}, KMOD_MODULE_BUILTIN < ctx.initstate m s → m ∈ loaded s
  refcnt : ∀ {m s}, ctx.refcnt m s = -ENOENT → m ∉ loaded s
  remove : ∀ m force s, loaded (ctx.removeModule m force s).2 ⊆ loaded s
  removed : ∀ {m force s}, 0 ≤ (ctx.removeModule m force s).1 ∨
    (ctx.removeModule m force s).1 = -EEXIST →
    m ∉ loaded (ctx.removeModule m force s).2
  command : ∀ m cmd s, loaded (ctx.commandDo m cmd s).2 ⊆ loaded s

/-- The softdeps that are looked at while the module is still there. -/
def HardEdge (pctx : ProbeCtx M) (removeCommands : M → Option CStr) (opts : RmmodOpts)
    (m p : M) : Prop :=
  opts.ignoreCommands = false ∧
    (p ∈ pctx.post m ∨
      p ∈ pctx.pre m ∧ (opts.dryRun = true ∨ opts.ignoreLoaded = true ∨
      (removeCommands m).isSome = true))

/-- The call ends. -/
def Ends (ctx : RmmodCtx M S) (opts : RmmodOpts) (mod : M) (flags : Nat) (s : S) : Prop :=
  ∃ fuel r, rmmodDoModule ctx opts fuel mod flags s = .ok r

end Property

/-! ## What a call does -/

section Round

variable {M S : Type} (ctx : RmmodCtx M S) (opts : RmmodOpts)

/-- What is left to do for the `pre` softdeps, after the module. -/
def afterRemoval (mod : M) (s : S) : S :=
  if (rmmodCommand ctx opts mod).isNone then removeUnused ctx opts (ctx.dep mod) s else s

/-- What is done for the modules that hold the module. -/
def HoldersRun (runs : Bool → List M → S → Int × S → Prop) (mod : M) (flags : Nat) (s : S)
    (r : Int × S) : Prop :=
  if hasFlag flags RMMOD_FLAG_REMOVE_HOLDERS then runs true (ctx.holders mod s).reverse s r
  else r = (0, s)

/-- A call of `rmmod_do_module`, given what its loops do; every way to return is one case. -/
inductive RmmodRound (runs : Bool → List M → S → Int × S → Prop) (mod : M) (flags : Nat) (s : S) :
    Int × S → Prop where
  | nothing {err : Int} : nothingToRemove ctx opts mod flags (rmmodCommand ctx opts mod) s = some err →
      RmmodRound runs mod flags s (err, s)
  | held {r₁ r₂ : Int × S} : nothingToRemove ctx opts mod flags (rmmodCommand ctx opts mod) s = none →
      runs false (rmmodSoftdeps ctx opts mod).2.reverse s r₁ →
        HoldersRun ctx runs mod flags r₁.2 r₂ →
      r₂.1 < 0 → RmmodRound runs mod flags s r₂
  | kept {r₁ r₂ r₃ : Int × S} : nothingToRemove ctx opts mod flags (rmmodCommand ctx opts mod) s = none →
      runs false (rmmodSoftdeps ctx opts mod).2.reverse s r₁ →
        HoldersRun ctx runs mod flags r₁.2 r₂ →
      ¬ r₂.1 < 0 → removeItself ctx opts mod (rmmodCommand ctx opts mod) r₂.2 = r₃ → r₃.1 < 0 →
      RmmodRound runs mod flags s r₃
  | removed {r₁ r₂ r₃ r₄ : Int × S} :
      nothingToRemove ctx opts mod flags (rmmodCommand ctx opts mod) s = none →
      runs false (rmmodSoftdeps ctx opts mod).2.reverse s r₁ →
        HoldersRun ctx runs mod flags r₁.2 r₂ →
      ¬ r₂.1 < 0 → removeItself ctx opts mod (rmmodCommand ctx opts mod) r₂.2 = r₃ → ¬ r₃.1 < 0 →
      runs false (rmmodSoftdeps ctx opts mod).1.reverse (afterRemoval ctx opts mod r₃.2) r₄ →
      RmmodRound runs mod flags s (r₃.1, r₄.2)

/-- The loop over a list, with a given fuel. -/
def ListRuns (fuel : Nat) (stopOnErrors : Bool) (list : List M) (s : S) (r : Int × S) : Prop :=
  rmmodDoModlist (fun m s => rmmodDoModule ctx opts fuel m RMMOD_FLAG_IGNORE_BUILTIN s) stopOnErrors
    list s = .ok r

variable {ctx opts}

theorem removeHolders_iff {fuel : Nat} {mod : M} {flags : Nat} {s : S} {r : Int × S} :
    removeHolders ctx (fun m s => rmmodDoModule ctx opts fuel m RMMOD_FLAG_IGNORE_BUILTIN s) mod flags s
        = .ok r ↔ HoldersRun ctx (ListRuns ctx opts fuel) mod flags s r := by
  unfold removeHolders HoldersRun
  split
  · rfl
  · exact ⟨fun h => (Except.ok.inj h).symm, fun h => by rw [h]⟩

/-- **One call.** -/
theorem rmmodDoModule_round {fuel : Nat} {mod : M} {flags : Nat} {s : S} {r : Int × S} :
    rmmodDoModule ctx opts (fuel + 1) mod flags s = .ok r ↔
      RmmodRound ctx opts (ListRuns ctx opts fuel) mod flags s r := by
  rw [rmmodDoModule]
  cases hnothing : nothingToRemove ctx opts mod flags (rmmodCommand ctx opts mod) s with
  | some err =>
    simp only
    refine ⟨fun h => ?_, fun h => ?_⟩
    · obtain rfl := Except.ok.inj h
      exact .nothing hnothing
    · cases h with
      | nothing h => rw [hnothing] at h; rw [Option.some.inj h]
      | held h => rw [hnothing] at h; cases h
      | kept h => rw [hnothing] at h; cases h
      | removed h => rw [hnothing] at h; cases h
  | none =>
    simp only
    refine ⟨fun h => ?_, fun h => ?_⟩
    · obtain ⟨r₁, hpost, h⟩ := ok_of_bind h
      obtain ⟨r₂, hholders, h⟩ := ok_of_bind h
      have hholders := removeHolders_iff.mp hholders
      split at h
      · next herr =>
        obtain rfl := Except.ok.inj h
        exact .held hnothing hpost hholders herr
      · next herr =>
        split at h
        · next herr' =>
          obtain rfl := Except.ok.inj h
          exact .kept hnothing hpost hholders herr rfl herr'
        · next herr' =>
          obtain ⟨r₄, hpre, h⟩ := ok_of_bind h
          obtain rfl := Except.ok.inj h
          exact .removed hnothing hpost hholders herr rfl herr' hpre
    · cases h with
      | nothing h => rw [hnothing] at h; cases h
      | held _ hpost hholders herr =>
        rw [hpost, ok_bind]
        simp only [removeHolders_iff.mpr hholders, ok_bind]
        rw [if_pos herr]
      | kept _ hpost hholders herr hitself herr' =>
        rw [hpost, ok_bind]
        simp only [removeHolders_iff.mpr hholders, ok_bind]
        rw [if_neg herr, hitself, if_pos herr']
      | removed _ hpost hholders herr hitself herr' hpre =>
        rw [hpost, ok_bind]
        simp only [removeHolders_iff.mpr hholders, ok_bind]
        rw [if_neg herr, hitself, if_neg herr']
        unfold afterRemoval ListRuns at hpre
        rw [hpre, ok_bind]

/-! ## More fuel does no harm -/

theorem HoldersRun.mono {runs runs' : Bool → List M → S → Int × S → Prop}
    (hruns : ∀ stop list s r, runs stop list s r → runs' stop list s r) {mod : M}
    {flags : Nat} {s : S}
    {r : Int × S} (h : HoldersRun ctx runs mod flags s r) : HoldersRun ctx runs' mod flags s r := by
  unfold HoldersRun at h ⊢
  split
  · next hflag => rw [if_pos hflag] at h; exact hruns _ _ _ _ h
  · next hflag => rw [if_neg hflag] at h; exact h

theorem RmmodRound.mono {runs runs' : Bool → List M → S → Int × S → Prop}
    (hruns : ∀ stop list s r, runs stop list s r → runs' stop list s r) {mod : M}
    {flags : Nat} {s : S}
    {r : Int × S} (h : RmmodRound ctx opts runs mod flags s r) :
    RmmodRound ctx opts runs' mod flags s r := by
  cases h with
  | nothing h => exact .nothing h
  | held h hpost hh herr => exact .held h (hruns _ _ _ _ hpost) (hh.mono hruns) herr
  | kept h hpost hh herr hitself herr' =>
    exact .kept h (hruns _ _ _ _ hpost) (hh.mono hruns) herr hitself herr'
  | removed h hpost hh herr hitself herr' hpre =>
    exact .removed h (hruns _ _ _ _ hpost) (hh.mono hruns) herr hitself herr' (hruns _ _ _ _ hpre)

theorem rmmodDoModlist_mono {f g : M → S → Except Fault (Int × S)}
    (hfg : ∀ m s r, f m s = .ok r → g m s = .ok r) {stopOnErrors : Bool} (list : List M) :
    ∀ s r, rmmodDoModlist f stopOnErrors list s = .ok r →
      rmmodDoModlist g stopOnErrors list s = .ok r := by
  induction list with
  | nil => intro s r h; exact h
  | cons m list ih =>
    intro s r h
    unfold rmmodDoModlist at h ⊢
    obtain ⟨⟨err, s₁⟩, hm, hrest⟩ := ok_of_bind h
    rw [hfg m s _ hm, ok_bind]
    simp only at hrest ⊢
    split at hrest
    · next hstop => rw [if_pos hstop]; exact hrest
    · next hstop => rw [if_neg hstop]; exact ih _ _ hrest

theorem rmmodDoModule_succ (fuel : Nat) :
    ∀ mod flags s r, rmmodDoModule ctx opts fuel mod flags s = .ok r →
      rmmodDoModule ctx opts (fuel + 1) mod flags s = .ok r := by
  induction fuel with
  | zero => intro mod flags s r h; cases h
  | succ fuel ih =>
    intro mod flags s r h
    rw [rmmodDoModule_round] at h ⊢
    exact h.mono (fun _ list => rmmodDoModlist_mono (fun m s r => ih m _ s r) list)

theorem rmmodDoModule_mono {fuel fuel' : Nat} (hle : fuel ≤ fuel') {mod : M} {flags : Nat} {s : S}
    {r : Int × S} (h : rmmodDoModule ctx opts fuel mod flags s = .ok r) :
    rmmodDoModule ctx opts fuel' mod flags s = .ok r := by
  induction hle with
  | refl => exact h
  | step _ ih => exact rmmodDoModule_succ _ _ _ _ _ ih

theorem ListRuns.mono {fuel fuel' : Nat} (hle : fuel ≤ fuel') {stop : Bool} {list : List M} {s : S}
    {r : Int × S} (h : ListRuns ctx opts fuel stop list s r) :
      ListRuns ctx opts fuel' stop list s r :=
  rmmodDoModlist_mono (fun _ _ _ hm => rmmodDoModule_mono hle hm) list s r h

end Round

/-! ## A removal ends if hard edges have no cycle -/

section Sufficient

variable {M S : Type} {ctx : RmmodCtx M S} {opts : RmmodOpts} {loaded : S → Finset M}

/-- The call ends, and no module was loaded by it. -/
def EndsBelow (ctx : RmmodCtx M S) (opts : RmmodOpts) (loaded : S → Finset M)
    (mod : M) (flags : Nat)
    (s : S) : Prop :=
  ∃ fuel r, rmmodDoModule ctx opts fuel mod flags s = .ok r ∧ loaded r.2 ⊆ loaded s

/-- **A loop ends** if the calls for its modules do, from every state with as few modules. -/
theorem listRuns_ends {list : List M} {n : Nat}
    (hends : ∀ m ∈ list, ∀ s, (loaded s).card ≤ n →
      EndsBelow ctx opts loaded m RMMOD_FLAG_IGNORE_BUILTIN s) (stop : Bool) :
    ∀ s, (loaded s).card ≤ n →
      ∃ fuel r, ListRuns ctx opts fuel stop list s r ∧ loaded r.2 ⊆ loaded s := by
  induction list with
  | nil => intro s _; exact ⟨0, (0, s), rfl, Finset.Subset.refl _⟩
  | cons m list ih =>
    intro s hs
    obtain ⟨fuel, ⟨err, s₁⟩, hm, hsub⟩ := hends m (List.mem_cons_self ..) s hs
    have hs₁ : (loaded s₁).card ≤ n := (Finset.card_le_card hsub).trans hs
    obtain ⟨fuel', r, hrest, hsub'⟩ :=
      ih (fun m hm => hends m (List.mem_cons_of_mem _ hm)) s₁ hs₁
    by_cases hstop : err < 0 ∧ stop = true
    · refine ⟨fuel, (err, s₁), ?_, hsub⟩
      unfold ListRuns rmmodDoModlist
      rw [hm, ok_bind]
      exact if_pos hstop
    · refine ⟨max fuel fuel', r, ?_, hsub'.trans hsub⟩
      have hrest := hrest.mono (Nat.le_max_right fuel fuel')
      unfold ListRuns at hrest
      unfold ListRuns rmmodDoModlist
      rw [rmmodDoModule_mono (Nat.le_max_left fuel fuel') hm, ok_bind]
      exact (if_neg hstop).trans hrest

variable (hkernel : ShrinkingKernel ctx loaded)
include hkernel

theorem rmmodDoRemoveModule_subset (mod : M) (s : S) :
    loaded (rmmodDoRemoveModule ctx opts mod s).2 ⊆ loaded s := by
  unfold rmmodDoRemoveModule
  split
  · exact Finset.Subset.refl _
  · simp only
    split
    · exact hkernel.remove mod opts.force s
    · exact hkernel.remove mod opts.force s

theorem removeItself_subset (mod : M) (cmd : Option CStr) (s : S) :
    loaded (removeItself ctx opts mod cmd s).2 ⊆ loaded s := by
  unfold removeItself
  split
  · exact Finset.Subset.refl _
  · cases cmd with
    | none =>
      simp only
      split
      · exact rmmodDoRemoveModule_subset hkernel mod s
      · exact Finset.Subset.refl _
    | some cmd => exact hkernel.command mod cmd s

theorem removeUnused_subset (deps : List M) :
    ∀ s, loaded (removeUnused ctx opts deps s) ⊆ loaded s := by
  induction deps with
  | nil => intro s; exact Finset.Subset.refl _
  | cons dep deps ih =>
    intro s
    show loaded (removeUnused ctx opts deps _) ⊆ loaded s
    refine (ih _).trans ?_
    beta_reduce
    split
    · exact rmmodDoRemoveModule_subset hkernel dep s
    · exact Finset.Subset.refl _

/-- A module without a command that was to be removed, and was, is gone. -/
theorem removeItself_removes {mod : M} {s : S} (hdry : opts.dryRun = false)
    (hok : ¬ (removeItself ctx opts mod none s).1 < 0) :
      mod ∉ loaded (removeItself ctx opts mod none s).2 := by
  unfold removeItself at hok ⊢
  split at hok
  · exact absurd (by decide : -EBUSY < 0) hok
  · next hfree =>
    rw [if_neg hfree]
    simp only at hok ⊢
    by_cases hrefcnt : ctx.refcnt mod s ≠ -ENOENT
    · rw [if_pos hrefcnt] at hok ⊢
      unfold rmmodDoRemoveModule at hok ⊢
      rw [if_neg (by simp [hdry])] at hok ⊢
      simp only at hok ⊢
      by_cases hgone : (ctx.removeModule mod opts.force s).1 = -EEXIST
      · rw [if_pos hgone]
        exact hkernel.removed (.inr hgone)
      · rw [if_neg hgone] at hok ⊢
        exact hkernel.removed (.inl (Int.not_lt.mp hok))
    · rw [if_neg hrefcnt]
      exact hkernel.refcnt (by simpa using hrefcnt)

omit hkernel in
/-- A module without a command is looked at only if it is loaded, or if that is not asked. -/
theorem initstate_of_something {mod : M} {flags : Nat} {s : S} (hignore : opts.ignoreLoaded = false)
    (h : nothingToRemove ctx opts mod flags none s = none) :
      KMOD_MODULE_BUILTIN < ctx.initstate mod s := by
  unfold nothingToRemove at h
  rw [if_pos (by simp [hignore])] at h
  simp only at h
  split at h
  · cases h
  · next hneg =>
    split at h
    · cases h
    · next hbuiltin =>
      unfold KMOD_MODULE_BUILTIN at hbuiltin ⊢
      omega

/-- **One call ends** if its loops do; for the last one there may be fewer modules. -/
theorem endsBelow_round {mod : M} {flags : Nat} {s : S}
    (hpost : ∀ p ∈ (rmmodSoftdeps ctx opts mod).2, ∀ s', (loaded s').card ≤ (loaded s).card →
      EndsBelow ctx opts loaded p RMMOD_FLAG_IGNORE_BUILTIN s')
    (hholders : hasFlag flags RMMOD_FLAG_REMOVE_HOLDERS = true → ∀ m s',
      EndsBelow ctx opts loaded m RMMOD_FLAG_IGNORE_BUILTIN s')
    (hpre : ∀ k, k ≤ (loaded s).card →
      (opts.dryRun = false ∧ opts.ignoreLoaded = false ∧ rmmodCommand ctx opts mod = none →
        k < (loaded s).card) →
      ∀ p ∈ (rmmodSoftdeps ctx opts mod).1, ∀ s', (loaded s').card ≤ k →
        EndsBelow ctx opts loaded p RMMOD_FLAG_IGNORE_BUILTIN s') :
    EndsBelow ctx opts loaded mod flags s := by
  cases hnothing : nothingToRemove ctx opts mod flags (rmmodCommand ctx opts mod) s with
  | some err => exact ⟨1, _, rmmodDoModule_round.mpr (.nothing hnothing), Finset.Subset.refl _⟩
  | none =>
    obtain ⟨fuel₁, r₁, hrun₁, hsub₁⟩ := listRuns_ends
      (fun p hp => hpost p (List.mem_reverse.mp hp)) false s (Nat.le_refl _)
    obtain ⟨fuel₂, r₂, hrun₂, hsub₂⟩ : ∃ fuel r₂,
        HoldersRun ctx (ListRuns ctx opts fuel) mod flags r₁.2 r₂ ∧ loaded r₂.2 ⊆ loaded r₁.2 := by
      unfold HoldersRun
      split
      · next hflag =>
        exact listRuns_ends (fun m _ s' _ => hholders hflag m s') true r₁.2 (Nat.le_refl _)
      · exact ⟨0, (0, r₁.2), rfl, Finset.Subset.refl _⟩
    have hsub := hsub₂.trans hsub₁
    have hpost' : ListRuns ctx opts (max fuel₁ fuel₂) false (rmmodSoftdeps ctx opts mod).2.reverse s r₁ :=
      hrun₁.mono (Nat.le_max_left ..)
    have hholders' : HoldersRun ctx (ListRuns ctx opts (max fuel₁ fuel₂)) mod flags r₁.2 r₂ :=
      hrun₂.mono (fun _ _ _ _ h => h.mono (Nat.le_max_right ..))
    by_cases herr : r₂.1 < 0
    · exact ⟨_, _, rmmodDoModule_round.mpr (.held hnothing hpost' hholders' herr), hsub⟩
    · generalize hitself : removeItself ctx opts mod (rmmodCommand ctx opts mod) r₂.2 = r₃
      have hsub₃ : loaded r₃.2 ⊆ loaded s := by
        rw [← hitself]
        exact (removeItself_subset hkernel mod _ r₂.2).trans hsub
      by_cases herr' : r₃.1 < 0
      · exact ⟨_, _, rmmodDoModule_round.mpr (.kept hnothing hpost' hholders' herr hitself herr'), hsub₃⟩
      · have hafter : loaded (afterRemoval ctx opts mod r₃.2) ⊆ loaded r₃.2 := by
          unfold afterRemoval
          split
          · exact removeUnused_subset hkernel _ _
          · exact Finset.Subset.refl _
        have hfewer : opts.dryRun = false ∧ opts.ignoreLoaded = false ∧
            rmmodCommand ctx opts mod = none →
            (loaded (afterRemoval ctx opts mod r₃.2)).card < (loaded s).card := by
          rintro ⟨hdry, hignore, hcmd⟩
          rw [hcmd] at hnothing hitself
          have hin := hkernel.live (initstate_of_something hignore hnothing)
          have hout : mod ∉ loaded r₃.2 := by
            rw [← hitself] at herr' ⊢
            exact removeItself_removes hkernel hdry herr'
          refine Finset.card_lt_card
            ((Finset.ssubset_iff_of_subset (hafter.trans hsub₃)).mpr ⟨mod, hin, ?_⟩)
          exact fun h => hout (hafter h)
        obtain ⟨fuel₃, r₄, hrun₄, hsub₄⟩ := listRuns_ends
          (fun p hp => hpre _ (Finset.card_le_card (hafter.trans hsub₃)) hfewer p (List.mem_reverse.mp hp))
          false (afterRemoval ctx opts mod r₃.2) (Nat.le_refl _)
        refine ⟨max (max fuel₁ fuel₂) fuel₃ + 1, (r₃.1, r₄.2), rmmodDoModule_round.mpr
          (.removed hnothing (hpost'.mono (Nat.le_max_left ..))
            (hholders'.mono (fun _ _ _ _ h => h.mono (Nat.le_max_left ..))) herr hitself herr'
            (hrun₄.mono (Nat.le_max_right ..))), ?_⟩
        exact hsub₄.trans (hafter.trans hsub₃)

/-- The modules that occur in softdeps. -/
def softdepTargets (pctx : ProbeCtx M) : List M :=
  pctx.softdeps.flatMap (fun l => lookupDep pctx l.pre ++ lookupDep pctx l.post)

omit hkernel in
theorem hardEdge_target {pctx : ProbeCtx M} {removeCommands : M → Option CStr} {m p : M}
    (h : HardEdge pctx removeCommands opts m p) : p ∈ softdepTargets pctx := by
  have hmem : p ∈ pctx.pre m ∨ p ∈ pctx.post m := by
    rcases h.2 with h | h
    · exact .inr h
    · exact .inl h.1
  unfold ProbeCtx.pre ProbeCtx.post kmodModuleGetSoftdeps at hmem
  cases hfind : pctx.softdeps.find? (fun l => pctx.fnmatch l.name (pctx.name m)) with
  | none =>
    rw [hfind] at hmem
    rcases hmem with h | h
    · exact absurd h (by simp)
    · exact absurd h (by simp)
  | some l =>
    rw [hfind] at hmem
    refine List.mem_flatMap.mpr ⟨l, List.mem_of_find?_eq_some hfind, ?_⟩
    rw [List.mem_append]
    exact hmem

/-- **A removal ends**, by induction on the number of loaded modules and then along hard edges. -/
theorem endsBelow_of_acyclic
    (hac : ∀ m, ¬ OnCycle (HardEdge ctx.toProbeCtx ctx.removeCommands opts) m) (n : Nat) :
    ∀ mod s, (loaded s).card ≤ n → EndsBelow ctx opts loaded mod RMMOD_FLAG_IGNORE_BUILTIN s := by
  induction n using Nat.strong_induction_on with
  | _ n ih =>
    -- a call ends if those along hard edges do
    have hstep : ∀ mod, (∀ p, HardEdge ctx.toProbeCtx ctx.removeCommands opts mod p →
        ∀ s, (loaded s).card ≤ n → EndsBelow ctx opts loaded p RMMOD_FLAG_IGNORE_BUILTIN s) →
        ∀ s, (loaded s).card ≤ n → EndsBelow ctx opts loaded mod RMMOD_FLAG_IGNORE_BUILTIN s := by
      intro mod hnext s hs
      refine endsBelow_round hkernel ?_ (fun h => absurd h (by decide)) ?_
      · intro p hp s' hs'
        unfold rmmodSoftdeps at hp
        split at hp
        · exact absurd hp (by simp)
        · next hcommands => exact hnext p ⟨by simpa using hcommands, .inl hp⟩ s' (hs'.trans hs)
      · intro k hk hsoft p hp s' hs'
        unfold rmmodSoftdeps at hp
        split at hp
        · exact absurd hp (by simp)
        · next hcommands =>
          have hcommands : opts.ignoreCommands = false := by simpa using hcommands
          have hcmd : rmmodCommand ctx opts mod = ctx.removeCommands mod := by
            unfold rmmodCommand
            rw [if_neg (by simp [hcommands])]
          by_cases hhard : opts.dryRun = true ∨ opts.ignoreLoaded = true ∨
              (ctx.removeCommands mod).isSome = true
          · exact hnext p ⟨hcommands, .inr ⟨hp, hhard⟩⟩ s' ((hs'.trans hk).trans hs)
          · have hlt : k < (loaded s).card := by
              refine hsoft ⟨?_, ?_, ?_⟩
              · exact Bool.eq_false_of_not_eq_true (fun h => hhard (.inl h))
              · exact Bool.eq_false_of_not_eq_true (fun h => hhard (.inr (.inl h)))
              · rw [hcmd]
                exact Option.not_isSome_iff_eq_none.mp (fun h => hhard (.inr (.inr h)))
            exact ih k (Nat.lt_of_lt_of_le hlt hs) p s' hs'
    have htargets : ∀ p ∈ {p | p ∈ softdepTargets ctx.toProbeCtx}, ∀ s, (loaded s).card ≤ n →
        EndsBelow ctx opts loaded p RMMOD_FLAG_IGNORE_BUILTIN s :=
      acyclic_induction (List.finite_toSet _) (fun m _ => hac m)
        (fun m _ hnext => hstep m (fun p hp => hnext p (hardEdge_target hp) hp))
    exact fun mod => hstep mod (fun p hp => htargets p (hardEdge_target hp))

theorem ends_of_acyclic (hac : ∀ m, ¬ OnCycle (HardEdge ctx.toProbeCtx ctx.removeCommands opts) m)
    (mod : M) (flags : Nat) (s : S) : Ends ctx opts mod flags s := by
  have hall : ∀ m s, EndsBelow ctx opts loaded m RMMOD_FLAG_IGNORE_BUILTIN s :=
    fun m s => endsBelow_of_acyclic hkernel hac _ m s (Nat.le_refl _)
  obtain ⟨fuel, r, hrun, _⟩ : EndsBelow ctx opts loaded mod flags s :=
    endsBelow_round hkernel (fun p _ s' _ => hall p s') (fun _ m s' => hall m s')
      (fun _ _ _ p _ s' _ => hall p s')
  exact ⟨fuel, r, hrun⟩

end Sufficient

/-! ## A cycle of hard edges can be followed forever -/

section Necessary

variable {M : Type} [DecidableEq M] (pctx : ProbeCtx M) (removeCommands : M → Option CStr)
  (opts : RmmodOpts)

/-- What is loaded in the kernel below: the modules of all softdeps, if that is asked. -/
def stuckLoaded (_ : Unit) : Finset M :=
  if opts.ignoreLoaded && !opts.dryRun then ∅ else (softdepTargets pctx).toFinset

/-- A kernel in which nothing changes. -/
def stuckKernel : RmmodCtx M Unit :=
  { pctx with
    removeCommands := removeCommands
    initstate := fun m s => if m ∈ stuckLoaded pctx opts s then KMOD_MODULE_LIVE else -ENOENT
    refcnt := fun _ _ => if opts.dryRun then 0 else if opts.ignoreLoaded then -ENOENT else 1
    holders := fun _ _ => []
    removeModule := fun _ _ s => (-EAGAIN, s)
    commandDo := fun _ _ s => (0, s) }

theorem stuckKernel_shrinking :
    ShrinkingKernel (stuckKernel pctx removeCommands opts) (stuckLoaded pctx opts) where
  live := by
    intro m s h
    by_contra hm
    have hstate : (stuckKernel pctx removeCommands opts).initstate m s = -ENOENT := if_neg hm
    rw [hstate] at h
    exact absurd h (by decide)
  refcnt := by
    intro m s h hm
    have hrefcnt : (if opts.dryRun = true then 0 else if opts.ignoreLoaded = true then -ENOENT else 1)
      = -ENOENT := h
    cases hdry : opts.dryRun with
    | true => rw [hdry, if_pos rfl] at hrefcnt; exact absurd hrefcnt (by decide)
    | false =>
      cases hignore : opts.ignoreLoaded with
      | true => simp [stuckLoaded, hdry, hignore] at hm
      | false => rw [hdry, hignore] at hrefcnt; exact absurd hrefcnt (by decide)
  remove := fun _ _ _ => Finset.Subset.refl _
  removed := by
    rintro m force s (h | h)
    · exact absurd h (by show ¬ (0 : Int) ≤ -EAGAIN; decide)
    · exact absurd h (by show ¬ -EAGAIN = -EEXIST; decide)
  command := fun _ _ _ => Finset.Subset.refl _

variable {pctx removeCommands opts}

/-- The `pre` softdeps are reached where their edges are hard. -/
theorem removeItself_stuck {mod : M} {cmd : Option CStr}
    (hhard : opts.dryRun = true ∨ opts.ignoreLoaded = true ∨ cmd.isSome = true) (s : Unit) :
    (removeItself (stuckKernel pctx removeCommands opts) opts mod cmd s).1 = 0 := by
  unfold removeItself rmmodDoRemoveModule stuckKernel
  cases cmd with
  | some cmd => simp
  | none =>
    cases hdry : opts.dryRun with
    | true => simp
    | false =>
      have hignore : opts.ignoreLoaded = true := by simpa [hdry] using hhard
      simp [hignore]

theorem listRuns_stuck {fuel : Nat} {p : M}
    (hp : ∀ s r, rmmodDoModule (stuckKernel pctx removeCommands opts) opts fuel p
      RMMOD_FLAG_IGNORE_BUILTIN s ≠ .ok r) (list : List M) (hmem : p ∈ list) :
    ∀ s r, ¬ ListRuns (stuckKernel pctx removeCommands opts) opts fuel false list s r := by
  induction list with
  | nil => exact absurd hmem (by simp)
  | cons m list ih =>
    intro s r h
    unfold ListRuns rmmodDoModlist at h
    obtain ⟨r₁, hm, hrest⟩ := ok_of_bind h
    rcases List.mem_cons.mp hmem with rfl | hmem
    · exact hp _ _ hm
    · exact ih hmem r₁.2 r ((if_neg (by simp)).symm.trans hrest)

omit [DecidableEq M] in
/-- A vertex on a cycle has a successor on a cycle, and a predecessor. -/
theorem onCycle_next {r : M → M → Prop} {v : M} (h : OnCycle r v) :
    (∃ w, r v w ∧ OnCycle r w) ∧ ∃ u, r u v := by
  obtain ⟨w, hvw, hwv⟩ := Relation.TransGen.head'_iff.mp h
  obtain ⟨u, _, huv⟩ := Relation.TransGen.tail'_iff.mp h
  exact ⟨⟨w, hvw, Relation.TransGen.tail' hwv hvw⟩, ⟨u, huv⟩⟩

/-- **A module on a cycle of hard edges is never done with.** -/
theorem rmmodDoModule_stuck (fuel : Nat) :
    ∀ m, OnCycle (HardEdge pctx removeCommands opts) m → ∀ s r,
      rmmodDoModule (stuckKernel pctx removeCommands opts) opts fuel m RMMOD_FLAG_IGNORE_BUILTIN s
        ≠ .ok r := by
  induction fuel with
  | zero => intro m _ s r h; cases h
  | succ fuel ih =>
    intro m hm s r h
    obtain ⟨⟨p, ⟨hcommands, hedge⟩, hp⟩, ⟨u, hu⟩⟩ := onCycle_next hm
    have hsoft : rmmodSoftdeps (stuckKernel pctx removeCommands opts) opts m =
        (pctx.pre m, pctx.post m) := by
      unfold rmmodSoftdeps
      rw [if_neg (by simp [hcommands])]
      rfl
    have hcmd : rmmodCommand (stuckKernel pctx removeCommands opts) opts m = removeCommands m := by
      unfold rmmodCommand
      rw [if_neg (by simp [hcommands])]
      rfl
    have hnothing : nothingToRemove (stuckKernel pctx removeCommands opts) opts m
        RMMOD_FLAG_IGNORE_BUILTIN (rmmodCommand (stuckKernel pctx removeCommands opts) opts m) s = none := by
      unfold nothingToRemove
      split
      · next hquick =>
        have hignore : opts.ignoreLoaded = false := by
          rw [Bool.and_eq_true] at hquick
          simpa using hquick.2
        have hstate : (stuckKernel pctx removeCommands opts).initstate m s = KMOD_MODULE_LIVE := by
          refine if_pos ?_
          unfold stuckLoaded
          rw [if_neg (by simp [hignore]), List.mem_toFinset]
          exact hardEdge_target hu
        simp only [hstate]
        rw [if_neg (by decide), if_neg (by decide)]
      · rfl
    -- the loop over the `post` softdeps is in every case, so `p` is one of the `pre` softdeps
    have hpre : ∀ {r₁ : Int × Unit}, ListRuns (stuckKernel pctx removeCommands opts) opts fuel false
        (rmmodSoftdeps (stuckKernel pctx removeCommands opts) opts m).2.reverse s r₁ →
        p ∈ pctx.pre m ∧ (opts.dryRun = true ∨ opts.ignoreLoaded = true ∨
          (removeCommands m).isSome = true) := by
      intro r₁ hrun
      rcases hedge with hpost | hpre
      · rw [hsoft] at hrun
        exact absurd hrun (listRuns_stuck (ih p hp) _ (List.mem_reverse.mpr hpost) s r₁)
      · exact hpre
    have hholders : ∀ {s : Unit} {r₂ : Int × Unit},
        HoldersRun (stuckKernel pctx removeCommands opts)
        (ListRuns (stuckKernel pctx removeCommands opts) opts fuel) m RMMOD_FLAG_IGNORE_BUILTIN s r₂ →
        r₂.1 = 0 := by
      intro s r₂ hrun
      unfold HoldersRun at hrun
      rw [if_neg (by decide)] at hrun
      rw [hrun]
    have hround := rmmodDoModule_round.mp h
    clear h
    cases hround with
    | nothing hsome => rw [hnothing] at hsome; cases hsome
    | held _ _ hrun herr =>
      rw [hholders hrun] at herr
      exact absurd herr (by decide)
    | kept _ hrun _ _ hitself herr =>
      rw [hcmd] at hitself
      rw [← hitself, removeItself_stuck (hpre hrun).2] at herr
      exact absurd herr (by decide)
    | removed _ hrun _ _ _ _ hrun' =>
      rw [hsoft] at hrun'
      exact listRuns_stuck (ih p hp) _ (List.mem_reverse.mpr (hpre hrun).1) _ _ hrun'

end Necessary

/-! ## The result -/

/--
**When removals end.** For a configuration and the options of modprobe: the removal of
every module ends, in every kernel, whatever is loaded and in use, exactly if there is
no cycle of hard edges.
-/
theorem rmmodDoModule_ends_iff {M : Type} [DecidableEq M] (pctx : ProbeCtx M)
    (removeCommands : M → Option CStr) (opts : RmmodOpts) :
    (∀ (S : Type) (ctx : RmmodCtx M S) (loaded : S → Finset M), ctx.toProbeCtx = pctx →
      ctx.removeCommands = removeCommands → ShrinkingKernel ctx loaded →
      ∀ mod flags s, Ends ctx opts mod flags s) ↔
    ∀ m, ¬ OnCycle (HardEdge pctx removeCommands opts) m := by
  refine ⟨fun h m hm => ?_, fun hac S ctx loaded hctx hcommands hkernel mod flags s => ?_⟩
  · obtain ⟨fuel, r, hrun⟩ := h Unit (stuckKernel pctx removeCommands opts)
      (stuckLoaded pctx opts) rfl rfl
      (stuckKernel_shrinking pctx removeCommands opts) m RMMOD_FLAG_IGNORE_BUILTIN ()
    exact rmmodDoModule_stuck fuel m hm () r hrun
  · subst hctx hcommands
    exact ends_of_acyclic hkernel hac mod flags s

/-- Two modules, each with a `post` softdep on the other, in a kernel in which nothing is in use. -/
def mutualPost : RmmodCtx CStr (Finset CStr) :=
  graphKernel
    { name := id
      dep := fun _ => []
      softdeps := [⟨cstr "a", [], [cstr "b"]⟩, ⟨cstr "b", [], [cstr "a"]⟩]
      newFromLookup := fun n => .ok [n]
      fnmatch := fun pat str => pat = str
      removeCommands := fun _ => none
      initstate := fun _ _ => 0
      refcnt := fun _ _ => 0
      holders := fun _ _ => []
      removeModule := fun _ _ s => (0, s)
      commandDo := fun _ _ s => (0, s) }
    (fun _ => [])

/-- The removal of such a module does not end if both are loaded. -/
theorem rmmodDoModule_mutualPost :
    ¬ Ends mutualPost ⟨false, false, false, false, false⟩ (cstr "a") 0 {cstr "a", cstr "b"} := by
  have hnever : ∀ fuel flags, ∀ m ∈ [cstr "a", cstr "b"],
      rmmodDoModule mutualPost ⟨false, false, false, false, false⟩ fuel m flags {cstr "a", cstr "b"}
        = .error .outOfFuel := by
    intro fuel
    induction fuel with
    | zero => intro flags m _; rfl
    | succ fuel ih =>
      intro flags m hm
      have hstep : ∀ p ∈ [cstr "a", cstr "b"],
          nothingToRemove mutualPost ⟨false, false, false, false, false⟩ m flags
            (rmmodCommand mutualPost ⟨false, false, false, false, false⟩ m)
              {cstr "a", cstr "b"} = none →
          rmmodSoftdeps mutualPost ⟨false, false, false, false, false⟩ m = ([], [p]) →
          rmmodDoModule mutualPost ⟨false, false, false, false, false⟩ (fuel + 1) m flags
            {cstr "a", cstr "b"} = .error .outOfFuel := by
        intro p hp hnothing hsoft
        rw [rmmodDoModule, hnothing, hsoft]
        simp only [List.reverse_singleton, rmmodDoModlist, ih _ p hp, error_bind]
      rw [List.mem_cons, List.mem_singleton] at hm
      rcases hm with rfl | rfl
      · exact hstep (cstr "b") (by decide) rfl rfl
      · exact hstep (cstr "a") (by decide) rfl rfl
  rintro ⟨fuel, r, hrun⟩
  rw [hnever fuel 0 _ (by decide)] at hrun
  cases hrun

end Kmod
