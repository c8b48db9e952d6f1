import Kmod.Libkmod.ProbeInsert

/-!
# What decides the outcome of a probe

A probe goes through a list in which the modules asked for, the required ones,
stand among soft dependencies. An error of a required module ends the loop; an
error of another one is dropped. So the results of the soft dependencies should
not matter, although one variable carries them all.

They do not matter for what is returned and for how far the loop gets
(`probe_outcome`). They can matter for what is attempted: a module that is listed
twice is tried a second time if it failed the first time, and skipped if it is
loaded.
-/

namespace Kmod

variable {M : Type}

/-! ## A record of the attempts -/

/-- The module is not skipped as loaded, and the run is not a dry one. -/
def attempted (ctx : InsertCtx M) (flags : Nat) (kernel : Kernel) (m : M) : Bool :=
  !(!hasFlag flags KMOD_PROBE_IGNORE_LOADED && moduleIsInkernel ctx kernel m) &&
    !hasFlag flags KMOD_PROBE_DRY_RUN

variable [DecidableEq M]

/-- The loop of `kmod_module_probe_insert_module`, with a record of the modules it goes through and
of whether it tried to insert them. -/
def probeModulesLog (ctx : InsertCtx M) (mod : M) (flags : Nat) (extraOptions : Option CStr)
    (s : ProbeState M) : List M → Int → Kernel → (Int × Kernel) × List (M × Bool)
  | [], err, kernel => ((err, kernel), [])
  | m :: list, err, kernel =>
    let entry := (m, attempted ctx flags kernel m)
    let (err, kernel) := probeModule ctx mod flags extraOptions s m err kernel
    if err = -EEXIST ∧ m = mod ∧ hasFlag flags KMOD_PROBE_FAIL_ON_LOADED then
      ((err, kernel), [entry])
    else if err = -EEXIST ∨ s.required m = false then
      let (res, log) := probeModulesLog ctx mod flags extraOptions s list 0 kernel
      (res, entry :: log)
    else if err < 0 then ((err, kernel), [entry])
    else
      let (res, log) := probeModulesLog ctx mod flags extraOptions s list err kernel
      (res, entry :: log)

/-- `probeFiltered`, with that record. -/
def probeFilteredLog (ctx : InsertCtx M) (mod : M) (flags : Nat) (extraOptions : Option CStr)
    (s : ProbeState M) (kernel : Kernel) : (Int × Kernel) × List (M × Bool) :=
  if hasFlag flags KMOD_PROBE_APPLY_BLACKLIST_ALL then
    match s.list.filter (fun m => !moduleIsBlacklisted ctx m) with
    | [] => ((KMOD_PROBE_APPLY_BLACKLIST_ALL, kernel), [])
    | m :: list => probeModulesLog ctx mod flags extraOptions s (m :: list) 0 kernel
  else probeModulesLog ctx mod flags extraOptions s s.list 0 kernel

/-- `kmod_module_probe_insert_module`, with that record. -/
def kmodModuleProbeInsertModuleLog (ctx : InsertCtx M) (fuel : Nat) (mod : M) (flags : Nat)
    (extraOptions : Option CStr) (s : ProbeState M) (kernel : Kernel) :
    Except Fault ((Int × Kernel) × List (M × Bool)) :=
  if !hasFlag flags KMOD_PROBE_IGNORE_LOADED && moduleIsInkernel ctx kernel mod then
    if hasFlag flags KMOD_PROBE_FAIL_ON_LOADED then .ok ((-EEXIST, kernel), [])
    else .ok ((0, kernel), [])
  else
    match blacklistedResult ctx mod flags with
    | some ret => .ok ((ret, kernel), [])
    | none => do
      let s ← kmodModuleGetProbeList ctx.toProbeCtx fuel mod
        (hasFlag flags KMOD_PROBE_IGNORE_COMMAND) s
      .ok (probeFilteredLog ctx mod flags extraOptions s kernel)

/-- The record changes nothing. -/
theorem probeModulesLog_fst (ctx : InsertCtx M) (mod : M) (flags : Nat) (extraOptions : Option CStr)
    (s : ProbeState M) (list : List M) :
    ∀ err kernel, (probeModulesLog ctx mod flags extraOptions s list err kernel).1
      = probeModules ctx mod flags extraOptions s list err kernel := by
  induction list with
  | nil => exact fun _ _ => rfl
  | cons m list ih =>
    intro err kernel
    unfold probeModulesLog probeModules
    dsimp only
    split
    · rfl
    · split
      · exact ih _ _
      · split
        · rfl
        · exact ih _ _

theorem probeFilteredLog_fst (ctx : InsertCtx M) (mod : M) (flags : Nat)
    (extraOptions : Option CStr)
    (s : ProbeState M) (kernel : Kernel) :
    (probeFilteredLog ctx mod flags extraOptions s kernel).1
      = probeFiltered ctx mod flags extraOptions s kernel := by
  unfold probeFilteredLog probeFiltered
  split
  · cases s.list.filter (fun m => !moduleIsBlacklisted ctx m) with
    | nil => rfl
    | cons m list => exact probeModulesLog_fst ..
  · exact probeModulesLog_fst ..

theorem kmodModuleProbeInsertModuleLog_fst (ctx : InsertCtx M) (fuel : Nat) (mod : M) (flags : Nat)
    (extraOptions : Option CStr) (s : ProbeState M) (kernel : Kernel) :
    (kmodModuleProbeInsertModuleLog ctx fuel mod flags extraOptions s kernel).map Prod.fst
      = kmodModuleProbeInsertModule ctx fuel mod flags extraOptions s kernel := by
  unfold kmodModuleProbeInsertModuleLog kmodModuleProbeInsertModule
  split
  · split <;> rfl
  · cases blacklistedResult ctx mod flags with
    | some ret => rfl
    | none =>
      dsimp only
      cases kmodModuleGetProbeList ctx.toProbeCtx fuel mod
        (hasFlag flags KMOD_PROBE_IGNORE_COMMAND) s with
      | error e => rfl
      | ok s => exact congrArg Except.ok (probeFilteredLog_fst ..)

/-! ## Results of insertions -/

/--
Without install commands, inserting a module of a name gives the result for the
name. With success, or if the kernel has it already, the module is loaded then.
-/
def withResults (ctx : InsertCtx M) (result : CStr → Int) : InsertCtx M :=
  { ctx with
    installCommands := fun _ => none
    insertModule := fun m _ _ kernel =>
      (result (ctx.name m),
        if result (ctx.name m) = 0 ∨ result (ctx.name m) = -EEXIST then insert (ctx.name m) kernel
        else kernel) }

/-- An error that is not "already loaded". -/
def OtherError (err : Int) : Prop := err ≠ 0 ∧ err ≠ -EEXIST

instance : DecidablePred OtherError := fun err =>
  inferInstanceAs (Decidable (err ≠ 0 ∧ err ≠ -EEXIST))

/-- The required modules: the one asked for, and its hard dependencies. -/
def ProbeCtx.required (ctx : ProbeCtx M) (mod : M) : List M := mod :: ctx.dep mod

/-! ## The required modules -/

/-- Only the call from outside makes modules required. -/
theorem Runs.required_eq {ctx : ProbeCtx M} {call : ProbeCall M} {s s' : ProbeState M}
    (h : Runs ctx call s s') (hcall : ∀ mod ignorecmd, call ≠ .probe mod true ignorecmd) :
    s'.required = s.required := by
  have henter : ∀ (s : ProbeState M) (mod : M) (required : Bool) (ignorecmd : Bool) (dep : List M),
      (∀ mod' ignorecmd', ProbeCall.probe mod required ignorecmd ≠ .probe mod' true ignorecmd') →
      (s.enter mod required dep).required = s.required := by
    intro s mod required ignorecmd dep hne
    cases required with
    | false => rfl
    | true => exact absurd rfl (hne mod ignorecmd)
  induction h with
  | fill _ _ ih ih' => exact (ih' (by simp)).trans (ih (by simp))
  | visited _ => rfl
  | probe _ _ _ ih ih' =>
    exact ((ih' (by simp)).trans (ih (by simp))).trans (henter _ _ _ false _ hcall)
  | command _ _ ih => exact (ih (by simp)).trans (henter _ _ _ true _ hcall)
  | fillsNil => rfl
  | fillsCons _ _ ih ih' => exact (ih' (by simp)).trans (ih (by simp))
  | probesNil => rfl
  | probesCons _ _ ih ih' => exact (ih' (by simp)).trans (ih (by simp))

/-- **The flag `required`** of a probe: it is set on the required modules and on no other. -/
theorem Runs.required_iff {ctx : ProbeCtx M} {mod : M} {ignorecmd : Bool} {s s' : ProbeState M}
    (h : Runs ctx (.probe mod true ignorecmd) s.reset s') (m : M) :
    s'.required m = true ↔ m ∈ ctx.required mod := by
  have henter : (s.reset.enter mod true (ctx.dep mod)).required m = true ↔
      m ∈ ctx.required mod := by
    simp [ProbeState.enter, ProbeState.require, ProbeState.reset, ProbeCtx.required]
  cases h with
  | visited hv => exact absurd hv (by simp [ProbeState.reset])
  | probe _ hdep hfill =>
    rw [hfill.required_eq (by simp), hdep.required_eq (by simp)]
    exact henter
  | command _ hdep =>
    show (ProbeState.append _ _ _).required m = true ↔ _
    rw [show ∀ (s : ProbeState M) b, (s.append mod b).required = s.required from fun _ _ => rfl,
      hdep.required_eq (by simp)]
    exact henter

/-- The required modules are listed. -/
theorem Runs.required_subset {ctx : ProbeCtx M} {mod : M} {required ignorecmd : Bool}
    {s s' : ProbeState M} (h : Runs ctx (.probe mod required ignorecmd) s s')
    (hv : s.visited mod = false) : ctx.required mod ⊆ s'.list := by
  refine List.cons_subset.mpr ⟨h.mem_probed hv, ?_⟩
  cases h with
  | visited hv' => exact absurd (hv.symm.trans hv') (by simp)
  | probe _ hdep hfill => exact List.Subset.trans hdep.listed_subset hfill.list_prefix.subset
  | command _ hdep => exact List.Subset.trans hdep.listed_subset (List.subset_append_left ..)

/-! ## One round -/

section Round

variable (ctx : InsertCtx M) (flags : Nat) (kernel : Kernel) (m : M)

/-- The module is loaded, and that matters. -/
def skipped : Bool := !hasFlag flags KMOD_PROBE_IGNORE_LOADED && decide (ctx.name m ∈ kernel)

/-- What a round finds out about its module. -/
def roundResult (result : CStr → Int) : Int :=
  if skipped ctx flags kernel m then -EEXIST else result (ctx.name m)

/-- The kernel after a round. -/
def roundKernel (result : CStr → Int) : Kernel :=
  if OtherError (roundResult ctx flags kernel m result) then kernel else insert (ctx.name m) kernel

/-- Whether a round is the last one. -/
def halts (mod : M) (s : ProbeState M) (err : Int) : Bool :=
  if err = -EEXIST then m = mod && hasFlag flags KMOD_PROBE_FAIL_ON_LOADED
  else s.required m && err < 0

variable {ctx flags kernel m} {result : CStr → Int} {mod : M} {extraOptions : Option CStr}
  {s : ProbeState M}

omit [DecidableEq M] in
theorem skipped_eq : (!hasFlag flags KMOD_PROBE_IGNORE_LOADED &&
    moduleIsInkernel (withResults ctx result) kernel m) = skipped ctx flags kernel m := rfl

theorem probeModule_withResults (hdry : hasFlag flags KMOD_PROBE_DRY_RUN = false) (err : Int) :
    probeModule (withResults ctx result) mod flags extraOptions s m err kernel
      = (roundResult ctx flags kernel m result, roundKernel ctx flags kernel m result) := by
  unfold probeModule roundKernel roundResult
  rw [skipped_eq]
  cases hskip : skipped ctx flags kernel m with
  | true =>
    have hmem : ctx.name m ∈ kernel := by
      simp only [skipped, Bool.and_eq_true, decide_eq_true_eq] at hskip
      exact hskip.2
    simp only [if_true]
    rw [if_neg (by decide), Finset.insert_eq_of_mem hmem]
  | false =>
    rw [if_neg (by simp), hdry]
    simp only [withResults, Option.isSome_none, Bool.false_and, Bool.false_eq_true, if_false]
    by_cases hother : OtherError (result (ctx.name m))
    · rw [if_pos hother, if_neg]
      rintro (h | h)
      · exact hother.1 h
      · exact hother.2 h
    · rw [if_neg hother, if_pos]
      unfold OtherError at hother
      omega

omit [DecidableEq M] in
theorem attempted_withResults (hdry : hasFlag flags KMOD_PROBE_DRY_RUN = false) :
    attempted (withResults ctx result) flags kernel m = !skipped ctx flags kernel m := by
  unfold attempted
  rw [skipped_eq, hdry, Bool.not_false, Bool.and_true]

/-- **One round of the loop.** -/
theorem probeModulesLog_cons (hdry : hasFlag flags KMOD_PROBE_DRY_RUN = false)
    (hresult : ∀ x, result x ≤ 0) (list : List M) :
    probeModulesLog (withResults ctx result) mod flags extraOptions s (m :: list) 0 kernel
      = if halts flags m mod s (roundResult ctx flags kernel m result) then
          ((roundResult ctx flags kernel m result, roundKernel ctx flags kernel m result),
            [(m, !skipped ctx flags kernel m)])
        else
          ((probeModulesLog (withResults ctx result) mod flags extraOptions s list 0
              (roundKernel ctx flags kernel m result)).1,
            (m, !skipped ctx flags kernel m) ::
              (probeModulesLog (withResults ctx result) mod flags extraOptions s list 0
                (roundKernel ctx flags kernel m result)).2) := by
  have hle : roundResult ctx flags kernel m result ≤ 0 := by
    unfold roundResult
    split
    · decide
    · exact hresult _
  rw [probeModulesLog, probeModule_withResults hdry, attempted_withResults hdry]
  dsimp only
  generalize roundResult ctx flags kernel m result = err at hle ⊢
  unfold halts
  by_cases hexist : err = -EEXIST
  · rw [if_pos hexist]
    by_cases hfail : m = mod ∧ hasFlag flags KMOD_PROBE_FAIL_ON_LOADED = true
    · rw [if_pos ⟨hexist, hfail⟩, if_pos (by simp [hfail])]
    · rw [if_neg (fun h => hfail h.2), if_pos (.inl hexist), if_neg (by simpa using hfail)]
  · rw [if_neg hexist, if_neg (fun h => hexist h.1)]
    cases hreq : s.required m with
    | false =>
      rw [if_pos (.inr rfl), if_neg (by simp)]
    | true =>
      rw [if_neg (by simp [hexist])]
      by_cases hneg : err < 0
      · rw [if_pos hneg, if_pos (by simp [hneg])]
      · obtain rfl : err = 0 := by omega
        rw [if_neg hneg, if_neg (by simp)]

end Round

/-! ## Two runs side by side -/

/-- The name of a required module. -/
def requiredName (ctx : ProbeCtx M) (mod : M) (x : CStr) : Bool :=
  (ctx.required mod).any (fun r => ctx.name r = x)

/-- The names in a list that no required module has. -/
def unrequiredNames (ctx : ProbeCtx M) (mod : M) (list : List M) : List CStr :=
  (list.map ctx.name).filter (fun x => !requiredName ctx mod x)

/-- The two runs return the same, go through the same modules, and do the same with all that have
the name of a required one. -/
structure SameCourse (ctx : ProbeCtx M) (mod : M) (run run' : (Int × Kernel) × List (M × Bool)) :
    Prop where
  ret : run.1.1 = run'.1.1
  gone : run.2.map Prod.fst = run'.2.map Prod.fst
  required : run.2.filter (fun e => requiredName ctx mod (ctx.name e.1))
    = run'.2.filter (fun e => requiredName ctx mod (ctx.name e.1))

section Agree

variable {ctx : InsertCtx M} {mod : M} {flags : Nat} {extraOptions : Option CStr}
  {s : ProbeState M} {result result' : CStr → Int} {kernel kernel' : Kernel} {m : M}

omit [DecidableEq M] in
theorem requiredName_of_mem {r : M} (h : r ∈ ctx.required mod) :
    requiredName ctx.toProbeCtx mod (ctx.name r) = true :=
  List.any_eq_true.mpr ⟨r, h, by simp⟩

omit [DecidableEq M] in
theorem mem_unrequiredNames {list : List M} (hm : m ∈ list)
    (hother : requiredName ctx.toProbeCtx mod (ctx.name m) = false) :
    ctx.name m ∈ unrequiredNames ctx.toProbeCtx mod list :=
  List.mem_filter.mpr ⟨List.mem_map_of_mem hm, by simp [hother]⟩

omit [DecidableEq M] in
theorem unrequiredNames_cons_of_other
    (hother : requiredName ctx.toProbeCtx mod (ctx.name m) = false) (list : List M) :
    unrequiredNames ctx.toProbeCtx mod (m :: list)
      = ctx.name m :: unrequiredNames ctx.toProbeCtx mod list := by
  unfold unrequiredNames
  rw [List.map_cons, List.filter_cons_of_pos (by simp [hother])]

omit [DecidableEq M] in
theorem mem_roundKernel {x : CStr} :
    x ∈ roundKernel ctx flags kernel m result ↔
      x ∈ kernel ∨ x = ctx.name m ∧ ¬ OtherError (roundResult ctx flags kernel m result) := by
  unfold roundKernel
  by_cases hother : OtherError (roundResult ctx flags kernel m result)
  · simp [hother]
  · simp [hother, or_comm]

omit [DecidableEq M] in
/-- Kernels that agree on a name treat a module of the name alike. -/
theorem skipped_congr (h : ctx.name m ∈ kernel ↔ ctx.name m ∈ kernel') :
    skipped ctx flags kernel m = skipped ctx flags kernel' m := by
  unfold skipped
  rw [decide_eq_decide.mpr h]

/-- A module without the name of a required one does not end the loop. -/
theorem halts_of_other (hreq : ∀ m, s.required m = true → m ∈ ctx.required mod)
    (hm : requiredName ctx.toProbeCtx mod (ctx.name m) = false) (err : Int) :
    halts flags m mod s err = false := by
  have hno : m ∉ ctx.required mod := fun h => by
    rw [requiredName_of_mem h] at hm
    exact nomatch hm
  have hne : m ≠ mod := fun h => hno (h ▸ List.mem_cons_self ..)
  have hflag : s.required m = false := by
    rw [← Bool.not_eq_true]
    exact fun h => hno (hreq m h)
  unfold halts
  split
  · simp [hne]
  · simp [hflag]

section Lockstep

variable (hagree : ∀ r ∈ ctx.required mod, result (ctx.name r) = result' (ctx.name r))
  (hk : ∀ r ∈ ctx.required mod, ctx.name r ∈ kernel ↔ ctx.name r ∈ kernel')
include hagree hk

omit [DecidableEq M] in
/-- A round with the name of a required module is the same in both runs. -/
theorem round_agree (hm : requiredName ctx.toProbeCtx mod (ctx.name m) = true) :
    skipped ctx flags kernel m = skipped ctx flags kernel' m ∧
      roundResult ctx flags kernel m result = roundResult ctx flags kernel' m result' := by
  obtain ⟨r, hr, hname⟩ := List.any_eq_true.mp hm
  rw [decide_eq_true_eq] at hname
  have hskip : skipped ctx flags kernel m = skipped ctx flags kernel' m :=
    skipped_congr (hname ▸ hk r hr)
  refine ⟨hskip, ?_⟩
  unfold roundResult
  rw [hskip, show result (ctx.name m) = result' (ctx.name m) from hname ▸ hagree r hr]

omit [DecidableEq M] in
theorem roundKernel_agree (flags : Nat) (m : M) :
    ∀ r ∈ ctx.required mod, ctx.name r ∈ roundKernel ctx flags kernel m result ↔
      ctx.name r ∈ roundKernel ctx flags kernel' m result' := by
  intro r hr
  rw [mem_roundKernel, mem_roundKernel, hk r hr]
  by_cases hname : ctx.name r = ctx.name m
  · have hm : requiredName ctx.toProbeCtx mod (ctx.name m) = true := hname ▸ requiredName_of_mem hr
    rw [(round_agree hagree hk hm).2]
  · simp [hname]

end Lockstep

omit [DecidableEq M] in
/-- Both runs go through one more module first. -/
theorem SameCourse.cons {run run' : (Int × Kernel) × List (M × Bool)}
    (h : SameCourse ctx.toProbeCtx mod run run') (m : M) {b b' : Bool}
    (hb : requiredName ctx.toProbeCtx mod (ctx.name m) = true → b = b') :
    SameCourse ctx.toProbeCtx mod (run.1, (m, b) :: run.2) (run'.1, (m, b') :: run'.2) where
  ret := h.ret
  gone := by
    rw [List.map_cons, List.map_cons, h.gone]
  required := by
    rw [List.filter_cons, List.filter_cons, h.required]
    split
    · rename_i hm
      rw [hb hm]
    · rfl

section Loops

variable (hdry : hasFlag flags KMOD_PROBE_DRY_RUN = false)
  (hresult : ∀ x, result x ≤ 0) (hresult' : ∀ x, result' x ≤ 0)
  (hreq : ∀ m, s.required m = true → m ∈ ctx.required mod)
  (hagree : ∀ r ∈ ctx.required mod, result (ctx.name r) = result' (ctx.name r))
include hdry hresult hresult' hreq hagree

/-- **The loops of two runs take the same course** if the results agree on the required modules. -/
theorem probeModulesLog_agree (list : List M) :
    ∀ kernel kernel', (∀ r ∈ ctx.required mod, ctx.name r ∈ kernel ↔ ctx.name r ∈ kernel') →
      SameCourse ctx.toProbeCtx mod
        (probeModulesLog (withResults ctx result) mod flags extraOptions s list 0 kernel)
        (probeModulesLog (withResults ctx result') mod flags extraOptions s list 0 kernel') := by
  induction list with
  | nil => exact fun _ _ _ => ⟨rfl, rfl, rfl⟩
  | cons m list ih =>
    intro kernel kernel' hk
    rw [probeModulesLog_cons hdry hresult, probeModulesLog_cons hdry hresult']
    have hrest := ih _ _ (roundKernel_agree hagree hk flags m)
    cases hm : requiredName ctx.toProbeCtx mod (ctx.name m) with
    | true =>
      -- the same round in both runs
      obtain ⟨hskip, hround⟩ := round_agree hagree hk hm
      rw [hround, hskip]
      split
      · exact ⟨rfl, rfl, rfl⟩
      · exact hrest.cons m (fun _ => rfl)
    | false =>
      -- whatever the rounds do, both runs go on
      rw [halts_of_other hreq hm, halts_of_other hreq hm]
      exact hrest.cons m (fun h => absurd (hm.symm.trans h) (by simp))

/-- Unless a name that is not required is listed twice, the same modules are attempted. -/
theorem probeModulesLog_once (list : List M) :
    ∀ kernel kernel', (∀ r ∈ ctx.required mod, ctx.name r ∈ kernel ↔ ctx.name r ∈ kernel') →
      (∀ m ∈ list, ctx.name m ∈ kernel ↔ ctx.name m ∈ kernel') →
      (unrequiredNames ctx.toProbeCtx mod list).Nodup →
      (probeModulesLog (withResults ctx result) mod flags extraOptions s list 0 kernel).2
        = (probeModulesLog (withResults ctx result') mod flags extraOptions s list 0 kernel').2 := by
  induction list with
  | nil => exact fun _ _ _ _ _ => rfl
  | cons m list ih =>
    intro kernel kernel' hk hlist honce
    have hskip : skipped ctx flags kernel m = skipped ctx flags kernel' m :=
      skipped_congr (hlist m (List.mem_cons_self ..))
    have hk' := roundKernel_agree hagree hk flags m
    -- an entry with the name of this one has the name of a required module
    have hname : ∀ x ∈ list, ctx.name x = ctx.name m →
        requiredName ctx.toProbeCtx mod (ctx.name m) = true := by
      intro x hx heq
      by_contra hm
      rw [Bool.not_eq_true] at hm
      rw [unrequiredNames_cons_of_other hm, List.nodup_cons] at honce
      exact honce.1 (heq ▸ mem_unrequiredNames hx (heq ▸ hm))
    have hlist' : ∀ x ∈ list, ctx.name x ∈ roundKernel ctx flags kernel m result ↔
        ctx.name x ∈ roundKernel ctx flags kernel' m result' := by
      intro x hx
      by_cases heq : ctx.name x = ctx.name m
      · obtain ⟨r, hr, hrm⟩ := List.any_eq_true.mp (hname x hx heq)
        rw [decide_eq_true_eq] at hrm
        rw [heq, ← hrm]
        exact hk' r hr
      · rw [mem_roundKernel, mem_roundKernel, hlist x (List.mem_cons_of_mem _ hx)]
        simp [heq]
    have hrest := ih _ _ hk' hlist' 
      (honce.sublist (((List.sublist_cons_self m list).map _).filter _))
    rw [probeModulesLog_cons hdry hresult, probeModulesLog_cons hdry hresult', hskip]
    cases hm : requiredName ctx.toProbeCtx mod (ctx.name m) with
    | true =>
      rw [(round_agree hagree hk hm).2]
      split
      · rfl
      · exact congrArg (List.cons _) hrest
    | false =>
      rw [halts_of_other hreq hm, halts_of_other hreq hm]
      exact congrArg (List.cons _) hrest

end Loops

/-- With `KMOD_PROBE_IGNORE_LOADED` everything the loop goes through is attempted. -/
theorem probeModulesLog_ignoreLoaded (hdry : hasFlag flags KMOD_PROBE_DRY_RUN = false)
    (hresult : ∀ x, result x ≤ 0) (hignore : hasFlag flags KMOD_PROBE_IGNORE_LOADED = true)
    (list : List M) : ∀ kernel,
      (probeModulesLog (withResults ctx result) mod flags extraOptions s list 0 kernel).2
        = ((probeModulesLog (withResults ctx result) mod flags extraOptions s list 0 kernel).2.map
            Prod.fst).map (fun m => (m, true)) := by
  induction list with
  | nil => exact fun _ => rfl
  | cons m list ih =>
    intro kernel
    have hskip : skipped ctx flags kernel m = false := by simp [skipped, hignore]
    rw [probeModulesLog_cons hdry hresult, hskip]
    split
    · rfl
    · exact congrArg (List.cons _) (ih _)

end Agree

/-! ## The first error of a required module -/

/-- The module ends the loop: it is required, it is not skipped, and inserting it fails. -/
structure StopsAt (ctx : InsertCtx M) (mod : M) (flags : Nat) (kernel : Kernel)
    (result : CStr → Int) (m : M) : Prop where
  required : m ∈ ctx.required mod
  notSkipped : skipped ctx flags kernel m = false
  error : OtherError (result (ctx.name m))

/--
What the results of the required modules come to: 0 with the whole list gone
through, or the first error, with nothing behind it.
-/
def FirstError (ctx : InsertCtx M) (mod : M) (flags : Nat) (kernel : Kernel)
    (result : CStr → Int) (list : List M) (run : (Int × Kernel) × List (M × Bool)) : Prop :=
  (∀ m ∈ list, ¬ StopsAt ctx mod flags kernel result m) ∧ run.1.1 = 0 ∧ run.2.map Prod.fst = list ∨
  ∃ before m after, list = before ++ m :: after ∧
    (∀ x ∈ before, ¬ StopsAt ctx mod flags kernel result x) ∧
    StopsAt ctx mod flags kernel result m ∧
    run.1.1 = result (ctx.name m) ∧ run.2.map Prod.fst = before ++ [m]

section StopsAt

variable {ctx : InsertCtx M} {mod : M} {flags : Nat} {extraOptions : Option CStr}
  {s : ProbeState M} {result : CStr → Int} {kernel : Kernel} {m : M}

omit [DecidableEq M] in
/-- A round loads no module whose insertion fails. -/
theorem stopsAt_roundKernel (m x : M) :
    StopsAt ctx mod flags (roundKernel ctx flags kernel m result) result x ↔
      StopsAt ctx mod flags kernel result x := by
  have hskip : OtherError (result (ctx.name x)) →
      skipped ctx flags (roundKernel ctx flags kernel m result) x = skipped ctx flags kernel x := by
    intro hx
    by_cases hignore : hasFlag flags KMOD_PROBE_IGNORE_LOADED = true
    · simp [skipped, hignore]
    refine skipped_congr ⟨fun hmem => ?_, fun hmem => mem_roundKernel.mpr (.inl hmem)⟩
    by_contra hno
    rcases mem_roundKernel.mp hmem with hmem | ⟨hname, hround⟩
    · exact hno hmem
    · -- the round was about the same name, so it failed as well
      refine hround ?_
      unfold roundResult
      rw [if_neg (by simp [skipped, ← hname, hno]), ← hname]
      exact hx
  refine ⟨fun h => ⟨h.required, ?_, h.error⟩, fun h => ⟨h.required, ?_, h.error⟩⟩
  · rw [← hskip h.error]
    exact h.notSkipped
  · rw [hskip h.error]
    exact h.notSkipped

variable (hresult : ∀ x, result x ≤ 0) (hfail : hasFlag flags KMOD_PROBE_FAIL_ON_LOADED = false)
  (hreq : ∀ m, s.required m = true ↔ m ∈ ctx.required mod)
include hresult hfail hreq

theorem halts_iff : halts flags m mod s (roundResult ctx flags kernel m result) = true ↔
    StopsAt ctx mod flags kernel result m := by
  unfold halts
  by_cases hexist : roundResult ctx flags kernel m result = -EEXIST
  · rw [if_pos hexist, hfail]
    refine ⟨fun h => absurd h (by simp), fun h => ?_⟩
    rw [roundResult, if_neg (by simp [h.notSkipped])] at hexist
    exact absurd hexist h.error.2
  · have hskip : skipped ctx flags kernel m = false := by
      rw [← Bool.not_eq_true]
      exact fun h => hexist (if_pos h)
    have hround : roundResult ctx flags kernel m result = result (ctx.name m) :=
      if_neg (by simp [hskip])
    have hle := hresult (ctx.name m)
    rw [if_neg hexist, Bool.and_eq_true, decide_eq_true_eq, hreq]
    rw [hround] at hexist ⊢
    refine ⟨fun h => ⟨h.1, hskip, by omega, hexist⟩, fun h => ⟨h.required, ?_⟩⟩
    have hne := h.error.1
    omega

/-- **The loop** goes to the first module that ends it, or through the whole list. -/
theorem probeModulesLog_stops (hdry : hasFlag flags KMOD_PROBE_DRY_RUN = false) (list : List M) :
    ∀ kernel, FirstError ctx mod flags kernel result list
      (probeModulesLog (withResults ctx result) mod flags extraOptions s list 0 kernel) := by
  induction list with
  | nil => exact fun kernel => .inl ⟨by simp, rfl, rfl⟩
  | cons m list ih =>
    intro kernel
    rw [probeModulesLog_cons hdry hresult]
    by_cases hm : StopsAt ctx mod flags kernel result m
    · rw [if_pos ((halts_iff hresult hfail hreq).mpr hm)]
      refine .inr ⟨[], m, list, rfl, by simp, hm, ?_, rfl⟩
      exact if_neg (by simp [hm.notSkipped])
    · rw [if_neg (fun h => hm ((halts_iff hresult hfail hreq).mp h))]
      rcases ih (roundKernel ctx flags kernel m result) with
        ⟨hnone, hret, hgone⟩ | ⟨before, x, after, hlist, hfirst, hx, hret, hgone⟩
      · refine .inl ⟨fun x hx => ?_, hret, by rw [List.map_cons, hgone]⟩
        rcases List.mem_cons.mp hx with rfl | hx
        · exact hm
        · exact fun h => hnone x hx ((stopsAt_roundKernel m x).mpr h)
      · refine .inr ⟨m :: before, x, after, by rw [hlist]; rfl, fun y hy => ?_,
          (stopsAt_roundKernel m x).mp hx, hret, by rw [List.map_cons, hgone]; rfl⟩
        rcases List.mem_cons.mp hy with rfl | hy
        · exact hm
        · exact fun h => hfirst y hy ((stopsAt_roundKernel m y).mpr h)

end StopsAt

/-! ## The outcome -/

/-- The flags that make a probe look at blacklists. -/
def blacklistFlags : List Nat :=
  [KMOD_PROBE_APPLY_BLACKLIST_ALL, KMOD_PROBE_APPLY_BLACKLIST,
    KMOD_PROBE_APPLY_BLACKLIST_ALIAS_ONLY]

omit [DecidableEq M] in
theorem blacklistedResult_of_unset (ctx : InsertCtx M) (mod : M) {flags : Nat}
    (hblack : ∀ flag ∈ blacklistFlags, hasFlag flags flag = false) :
    blacklistedResult ctx mod flags = none := by
  simp only [blacklistFlags, List.forall_mem_cons] at hblack
  obtain ⟨hall, happly, halias, _⟩ := hblack
  unfold blacklistedResult
  simp [hall, happly, halias]

/-- A probe of a module that is not loaded goes through its list, whatever the results. -/
theorem kmodModuleProbeInsertModuleLog_eq (ctx : InsertCtx M) (mod : M) {flags : Nat}
    (extraOptions : Option CStr) (s : ProbeState M) {kernel : Kernel}
    (hblack : ∀ flag ∈ blacklistFlags, hasFlag flags flag = false)
    (hmod : skipped ctx flags kernel mod = false) {s' : ProbeState M} {fuel : Nat}
    (hget : kmodModuleGetProbeList ctx.toProbeCtx fuel mod
      (hasFlag flags KMOD_PROBE_IGNORE_COMMAND) s = .ok s') (result : CStr → Int) :
    kmodModuleProbeInsertModuleLog (withResults ctx result) fuel mod flags extraOptions s kernel
      = .ok (probeModulesLog (withResults ctx result) mod flags extraOptions s' s'.list 0 kernel) := by
  have hctx : (withResults ctx result).toProbeCtx = ctx.toProbeCtx := rfl
  unfold kmodModuleProbeInsertModuleLog
  rw [skipped_eq, hmod, if_neg (by simp), blacklistedResult_of_unset _ _ hblack]
  dsimp only
  rw [hctx, hget]
  show Except.ok _ = Except.ok _
  unfold probeFilteredLog
  rw [hblack _ (List.mem_cons_self ..), if_neg (by simp)]

/-- A module that is loaded is not probed. -/
theorem kmodModuleProbeInsertModuleLog_loaded (ctx : InsertCtx M) (fuel : Nat) (mod : M)
    {flags : Nat} (extraOptions : Option CStr) (s : ProbeState M) {kernel : Kernel}
    (hmod : skipped ctx flags kernel mod = true) (result : CStr → Int) :
    kmodModuleProbeInsertModuleLog (withResults ctx result) fuel mod flags extraOptions s kernel
      = .ok ((if hasFlag flags KMOD_PROBE_FAIL_ON_LOADED then -EEXIST else 0, kernel), []) := by
  unfold kmodModuleProbeInsertModuleLog
  rw [skipped_eq, hmod, if_pos rfl]
  split <;> rfl

theorem probeInsert_of_log {ctx : InsertCtx M} {fuel : Nat} {mod : M} {flags : Nat}
    {extraOptions : Option CStr} {s : ProbeState M} {kernel : Kernel}
    {run : (Int × Kernel) × List (M × Bool)}
    (h : kmodModuleProbeInsertModuleLog ctx fuel mod flags extraOptions s kernel = .ok run) :
    kmodModuleProbeInsertModule ctx fuel mod flags extraOptions s kernel = .ok run.1 := by
  rw [← kmodModuleProbeInsertModuleLog_fst, h]
  rfl

/--
**The outcome of a probe.** Insertion results belong to the names of modules. For
two assignments that agree on the names of the required modules, a probe that is
not a dry run and does not look at blacklists returns the same, goes through the
same modules and treats those with the name of a required one alike. With
`KMOD_PROBE_IGNORE_LOADED`, or if no other name is listed twice, the attempts are the
same. Without `KMOD_PROBE_FAIL_ON_LOADED` it returns 0 if `mod` is loaded, and else the
first error of a required module, where it ends, or 0 if there is none.
-/
theorem probe_outcome [Fintype M] (ctx : InsertCtx M) (mod : M) (flags : Nat)
    (extraOptions : Option CStr) (s : ProbeState M) (kernel : Kernel)
    (hdry : hasFlag flags KMOD_PROBE_DRY_RUN = false)
    (hblack : ∀ flag ∈ blacklistFlags, hasFlag flags flag = false) (result result' : CStr → Int)
    (hresult : ∀ x, result x ≤ 0) (hresult' : ∀ x, result' x ≤ 0)
    (hagree : ∀ r ∈ ctx.required mod, result (ctx.name r) = result' (ctx.name r)) :
    ∃ s' run run', (∀ fuel ≥ 2 * Fintype.card M + 1,
        kmodModuleGetProbeList ctx.toProbeCtx fuel mod (hasFlag flags KMOD_PROBE_IGNORE_COMMAND) s
          = .ok s' ∧
        kmodModuleProbeInsertModuleLog (withResults ctx result) fuel mod flags extraOptions s kernel
          = .ok run ∧
        kmodModuleProbeInsertModuleLog (withResults ctx result') fuel mod flags extraOptions s kernel
          = .ok run') ∧
      (∀ fuel ≥ 2 * Fintype.card M + 1,
        kmodModuleProbeInsertModule (withResults ctx result) fuel mod flags extraOptions s kernel
          = .ok run.1 ∧
        kmodModuleProbeInsertModule (withResults ctx result') fuel mod flags extraOptions s kernel
          = .ok run'.1) ∧
      SameCourse ctx.toProbeCtx mod run run' ∧
      (hasFlag flags KMOD_PROBE_IGNORE_LOADED = true ∨
        (unrequiredNames ctx.toProbeCtx mod s'.list).Nodup → run.2 = run'.2) ∧
      (hasFlag flags KMOD_PROBE_FAIL_ON_LOADED = false →
        ctx.required mod ⊆ s'.list ∧
        (skipped ctx flags kernel mod = true → run.1.1 = 0 ∧ run.2 = []) ∧
        (skipped ctx flags kernel mod = false →
          FirstError ctx mod flags kernel result s'.list run)) := by
  obtain ⟨s', hrun, hget⟩ := kmodModuleGetProbeList_runs ctx.toProbeCtx mod
    (hasFlag flags KMOD_PROBE_IGNORE_COMMAND) s
  have hlisted := hrun.required_subset rfl
  cases hmod : skipped ctx flags kernel mod with
  | true =>
    have hcall := fun fuel =>
      kmodModuleProbeInsertModuleLog_loaded ctx fuel mod extraOptions s hmod
    refine ⟨s', _, _, fun fuel hge => ⟨hget fuel hge, hcall fuel result, hcall fuel result'⟩,
      fun fuel _ => ⟨probeInsert_of_log (hcall fuel result),
        probeInsert_of_log (hcall fuel result')⟩,
      ⟨rfl, rfl, rfl⟩, fun _ => rfl,
      fun hfail => ⟨hlisted, fun _ => ⟨?_, rfl⟩, fun h => (nomatch h)⟩⟩
    rw [hfail]
    rfl
  | false =>
    have hreq := hrun.required_iff
    have hsame : SameCourse ctx.toProbeCtx mod
        (probeModulesLog (withResults ctx result) mod flags extraOptions s' s'.list 0 kernel)
        (probeModulesLog (withResults ctx result') mod flags extraOptions s' s'.list 0 kernel) :=
      probeModulesLog_agree hdry hresult hresult' (fun m => (hreq m).mp) hagree s'.list kernel kernel
        (fun _ _ => Iff.rfl)
    have hcall := fun fuel hge =>
      kmodModuleProbeInsertModuleLog_eq ctx mod extraOptions s hblack hmod (hget fuel hge)
    refine ⟨s', _, _, fun fuel hge => ⟨hget fuel hge, hcall fuel hge result,
      hcall fuel hge result'⟩, fun fuel hge => ⟨probeInsert_of_log (hcall fuel hge result),
      probeInsert_of_log (hcall fuel hge result')⟩, hsame, ?_,
      fun hfail => ⟨hlisted, fun h => (nomatch h), fun _ => ?_⟩⟩
    · rintro (hignore | honce)
      · -- all that is gone through is attempted
        rw [probeModulesLog_ignoreLoaded hdry hresult hignore,
          probeModulesLog_ignoreLoaded hdry hresult' hignore, hsame.gone]
      · exact probeModulesLog_once hdry hresult hresult' (fun m => (hreq m).mp) hagree s'.list
          kernel kernel (fun _ _ => Iff.rfl) (fun _ _ => Iff.rfl) honce
    · exact probeModulesLog_stops hresult hfail hreq hdry s'.list kernel

/--
`s` and `u` both need `t`, and are softdeps of `m` in front of it. So a probe of
`m` goes through `t`, `s`, `t`, `u` and `m`.
-/
def sharedCtx : InsertCtx (Fin 4) where
  name := fun m => [[116], [115], [117], [109]].get m
  dep := fun m => if m = 1 ∨ m = 2 then [0] else []
  softdeps := [⟨cstr "m", [cstr "s", cstr "u"], []⟩]
  newFromLookup := fun name =>
    .ok ((List.finRange 4).filter (fun m => [[116], [115], [117], [109]].get m = name))
  fnmatch := fun pat str => pat = str
  hasAlias := fun _ => false
  blacklists := []
  options := fun _ => none
  installCommands := fun _ => none
  doInstallCommands := fun _ _ kernel => (0, kernel)
  insertModule := fun _ _ _ kernel => (0, kernel)

/-- Inserting `t` fails. -/
def busy (x : CStr) : Int := if x = cstr "t" then -EBUSY else 0

/-- No module is marked. -/
def unprobed : ProbeState (Fin 4) := ⟨fun _ => false, fun _ => false, fun _ => false, []⟩

theorem busy_nonpos (x : CStr) : busy x ≤ 0 := by
  unfold busy
  split <;> decide

theorem probe_outcome_sharedCtx :
    hasFlag 0 KMOD_PROBE_DRY_RUN = false ∧
      (∀ flag ∈ blacklistFlags, hasFlag 0 flag = false) ∧
      (∀ r ∈ sharedCtx.required 3, (0 : Int) = busy (sharedCtx.name r)) ∧
      ∃ s' run run', (∀ fuel ≥ 2 * Fintype.card (Fin 4) + 1,
          kmodModuleGetProbeList sharedCtx.toProbeCtx fuel 3 (hasFlag 0 KMOD_PROBE_IGNORE_COMMAND)
            unprobed = .ok s' ∧
          kmodModuleProbeInsertModuleLog (withResults sharedCtx (fun _ => 0)) fuel 3 0 none unprobed ∅
            = .ok run ∧
          kmodModuleProbeInsertModuleLog (withResults sharedCtx busy) fuel 3 0 none unprobed ∅
            = .ok run') ∧
        SameCourse sharedCtx.toProbeCtx 3 run run' ∧
        FirstError sharedCtx 3 0 ∅ (fun _ => 0) s'.list run := by
  have hdry : hasFlag 0 KMOD_PROBE_DRY_RUN = false := by decide
  have hblack : ∀ flag ∈ blacklistFlags, hasFlag 0 flag = false := by decide
  have hagree : ∀ r ∈ sharedCtx.required 3, (0 : Int) = busy (sharedCtx.name r) := by decide
  refine ⟨hdry, hblack, hagree, ?_⟩
  obtain ⟨s', run, run', hcalls, _, hsame, _, hfirst⟩ := probe_outcome sharedCtx 3 0 none unprobed ∅
    hdry hblack (fun _ => 0) busy (fun _ => Int.le_refl 0) busy_nonpos hagree
  exact ⟨s', run, run', hcalls, hsame, (hfirst (by decide)).2.2 (by decide)⟩

/-- The modules that were attempted. -/
def attempts (run : (Int × Kernel) × List (M × Bool)) : List M :=
  (run.2.filter Prod.snd).map Prod.fst

/-- Whether inserting `t` fails decides whether it is tried again. -/
theorem attempts_differ_sharedCtx :
    (∀ r ∈ sharedCtx.required 3, (0 : Int) = busy (sharedCtx.name r)) ∧
      ∀ fuel ≥ 2 * Fintype.card (Fin 4) + 1,
        (kmodModuleProbeInsertModuleLog (withResults sharedCtx (fun _ => 0)) fuel 3 0 none
          unprobed ∅).map attempts = .ok [0, 1, 2, 3] ∧
        (kmodModuleProbeInsertModuleLog (withResults sharedCtx busy) fuel 3 0 none
          unprobed ∅).map attempts = .ok [0, 1, 0, 2, 3] := by
  obtain ⟨s', _, hget⟩ := kmodModuleGetProbeList_runs sharedCtx.toProbeCtx 3
    (hasFlag 0 KMOD_PROBE_IGNORE_COMMAND) unprobed
  have hcall := fun fuel hge => kmodModuleProbeInsertModuleLog_eq sharedCtx 3 none unprobed
    (show ∀ flag ∈ blacklistFlags, hasFlag 0 flag = false by decide)
    (show skipped sharedCtx 0 ∅ 3 = false by decide) (hget fuel hge)
  refine ⟨by decide, fun fuel hge => ?_⟩
  rw [hcall fuel hge, hcall fuel hge, ← hcall 9 (by decide), ← hcall 9 (by decide)]
  decide

end Kmod
