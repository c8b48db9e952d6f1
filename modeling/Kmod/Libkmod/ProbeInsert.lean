import Kmod.Lib.Explore
import Kmod.Libkmod.ProbeList
import Mathlib.Data.Finset.Basic
import Mathlib.Data.List.Perm.Basic

/-!
# Probing a module

`kmod_module_probe_insert_module` loads what `kmod_module_get_probe_list` lists,
one module after the other. With `KMOD_PROBE_FAIL_ON_LOADED` it is an error if the
module asked for is loaded when its turn comes, also if an earlier entry of the
same list has loaded it.

What is listed, and what is listed before the module itself, follows from the
graph of softdeps (`Runs.grew`). With it the calls that fail on their own work are
characterised (`kmodModuleProbeInsertModule_firstTime_iff`).
-/

namespace Kmod

open Relation Explore

/-! ## The model -/

def KMOD_PROBE_IGNORE_COMMAND : Nat := 0x00004
def KMOD_PROBE_IGNORE_LOADED : Nat := 0x00008
def KMOD_PROBE_DRY_RUN : Nat := 0x00010
def KMOD_PROBE_FAIL_ON_LOADED : Nat := 0x00020
def KMOD_PROBE_APPLY_BLACKLIST_ALL : Nat := 0x10000
def KMOD_PROBE_APPLY_BLACKLIST : Nat := 0x20000
def KMOD_PROBE_APPLY_BLACKLIST_ALIAS_ONLY : Nat := 0x40000

/-- The names of the modules that are live in the kernel or built in. -/
abbrev Kernel := Finset CStr

/-- What inserting modules uses of a context and of the system. -/
structure InsertCtx (M : Type) extends ProbeCtx M where
  /-- Whether the field `alias` is set. -/
  hasAlias : M → Bool
  /-- The blacklists of the configuration. -/
  blacklists : List CStr
  /-- `kmod_module_get_options`. -/
  options : M → Option CStr
  /-- `kmod_module_get_install_commands`. -/
  installCommands : M → Option CStr
  /-- `module_do_install_commands`: what it returns, and the modules loaded then. -/
  doInstallCommands : M → Option CStr → Kernel → Int × Kernel
  /-- `kmod_module_insert_module`, with the flags and the options. -/
  insertModule : M → Nat → Option CStr → Kernel → Int × Kernel

variable {M : Type}

/-- Whether one of the flags is set. -/
def hasFlag (flags flag : Nat) : Bool := flags &&& flag ≠ 0

/-- `module_is_inkernel`. -/
def moduleIsInkernel (ctx : InsertCtx M) (kernel : Kernel) (mod : M) : Bool := ctx.name mod ∈ kernel

/-- `module_is_blacklisted`. -/
def moduleIsBlacklisted (ctx : InsertCtx M) (mod : M) : Bool :=
  ctx.blacklists.any (fun modname => modname = ctx.name mod)

/-- `module_options_concat`. -/
def moduleOptionsConcat (opt xopt : Option CStr) : Option CStr :=
  if (opt.getD []).length = 0 ∧ (xopt.getD []).length = 0 then none
  else
    match opt with
    | none => xopt
    | some opt => some (opt ++ cstr " " ++ xopt.getD [])

variable [DecidableEq M]

/-- The first half of the loop's body: insert a module, unless it is loaded. -/
def probeModule (ctx : InsertCtx M) (mod : M) (flags : Nat) (extraOptions : Option CStr)
    (s : ProbeState M) (m : M) (err : Int) (kernel : Kernel) : Int × Kernel :=
  if !hasFlag flags KMOD_PROBE_IGNORE_LOADED && moduleIsInkernel ctx kernel m then (-EEXIST, kernel)
  else
    let options := moduleOptionsConcat (ctx.options m) (if m = mod then extraOptions else none)
    if hasFlag flags KMOD_PROBE_DRY_RUN then (err, kernel)
    else if (ctx.installCommands m).isSome && !s.ignorecmd m then
      ctx.doInstallCommands m options kernel
    else ctx.insertModule m flags options kernel

/-- The loop of `kmod_module_probe_insert_module`. -/
def probeModules (ctx : InsertCtx M) (mod : M) (flags : Nat) (extraOptions : Option CStr)
    (s : ProbeState M) : List M → Int → Kernel → Int × Kernel
  | [], err, kernel => (err, kernel)
  | m :: list, err, kernel =>
    let (err, kernel) := probeModule ctx mod flags extraOptions s m err kernel
    if err = -EEXIST ∧ m = mod ∧ hasFlag flags KMOD_PROBE_FAIL_ON_LOADED then (err, kernel)
    -- ignore errors from softdeps
    else if err = -EEXIST ∨ s.required m = false then
      probeModules ctx mod flags extraOptions s list 0 kernel
    else if err < 0 then (err, kernel)
    else probeModules ctx mod flags extraOptions s list err kernel

/-- What is returned early for a blacklisted module. -/
def blacklistedResult (ctx : InsertCtx M) (mod : M) (flags : Nat) : Option Int :=
  if moduleIsBlacklisted ctx mod then
    if ctx.hasAlias mod && hasFlag flags KMOD_PROBE_APPLY_BLACKLIST_ALIAS_ONLY then
      some KMOD_PROBE_APPLY_BLACKLIST_ALIAS_ONLY
    else if hasFlag flags KMOD_PROBE_APPLY_BLACKLIST_ALL then some KMOD_PROBE_APPLY_BLACKLIST_ALL
    else if hasFlag flags KMOD_PROBE_APPLY_BLACKLIST then some KMOD_PROBE_APPLY_BLACKLIST
    else none
  else none

/-- The list of modules, filtered if the flags say so, and what is returned if nothing is left. -/
def probeFiltered (ctx : InsertCtx M) (mod : M) (flags : Nat) (extraOptions : Option CStr)
    (s : ProbeState M) (kernel : Kernel) : Int × Kernel :=
  if hasFlag flags KMOD_PROBE_APPLY_BLACKLIST_ALL then
    match s.list.filter (fun m => !moduleIsBlacklisted ctx m) with
    | [] => (KMOD_PROBE_APPLY_BLACKLIST_ALL, kernel)
    | m :: list => probeModules ctx mod flags extraOptions s (m :: list) 0 kernel
  else probeModules ctx mod flags extraOptions s s.list 0 kernel

/-- `kmod_module_probe_insert_module`: what it returns, and the modules loaded then. -/
def kmodModuleProbeInsertModule (ctx : InsertCtx M) (fuel : Nat) (mod : M) (flags : Nat)
    (extraOptions : Option CStr) (s : ProbeState M) (kernel : Kernel) :
    Except Fault (Int × Kernel) :=
  if !hasFlag flags KMOD_PROBE_IGNORE_LOADED && moduleIsInkernel ctx kernel mod then
    if hasFlag flags KMOD_PROBE_FAIL_ON_LOADED then .ok (-EEXIST, kernel) else .ok (0, kernel)
  else
    match blacklistedResult ctx mod flags with
    | some ret => .ok (ret, kernel)
    | none => do
      let s ← kmodModuleGetProbeList ctx.toProbeCtx fuel mod
        (hasFlag flags KMOD_PROBE_IGNORE_COMMAND) s
      .ok (probeFiltered ctx mod flags extraOptions s kernel)

/-! ## What is listed -/

/-- The soft dependencies of a module. -/
def ProbeCtx.soft (ctx : ProbeCtx M) (mod : M) : List M := ctx.pre mod ++ ctx.post mod

/-- `w` is a soft dependency of `v` or of one of its hard dependencies. -/
def Soft (ctx : ProbeCtx M) (v w : M) : Prop := w ∈ (ctx.dep v ++ [v]).flatMap ctx.soft

/-- Where a call looks for modules to enter. -/
def ProbeCall.starts (ctx : ProbeCtx M) : ProbeCall M → List M
  | .fill mod => ctx.soft mod
  | .probe mod _ _ => [mod]
  | .fills mods => mods.flatMap ctx.soft
  | .probes mods => mods

/--
From `s` to `s'` the modules `news` were entered, by a search from `starts`, and
`added` was listed: the modules `own`, the new ones, and their hard dependencies.
-/
structure Grew (ctx : ProbeCtx M) (starts own : List M) (s s' : ProbeState M)
    (news added : List M) :
    Prop where
  visited : ∀ x, s'.visited x = true ↔ s.visited x = true ∨ x ∈ news
  explored : Explored (Soft ctx) (fun x => s.visited x = true) starts news
  list : s'.list = s.list ++ added
  perm : added.Perm (own ++ (news.flatMap ctx.dep ++ news))

section Grew

variable {ctx : ProbeCtx M} {starts starts' own own' : List M} {s s₁ s₂ : ProbeState M}
  {news news' added added' : List M}

omit [DecidableEq M] in
theorem grew_nil (s : ProbeState M) : Grew ctx [] [] s s [] [] where
  visited := by simp
  explored := explored_nil
  list := by simp
  perm := .refl _

theorem grew_append (s : ProbeState M) (mod : M) (b : Bool) :
    Grew ctx [] [mod] s (s.append mod b) [] [mod] where
  visited := by simp
  explored := explored_nil
  list := rfl
  perm := .refl _

theorem Grew.trans (h : Grew ctx starts own s s₁ news added)
    (h' : Grew ctx starts' own' s₁ s₂ news' added') :
    Grew ctx (starts ++ starts') (own ++ own') s s₂ (news ++ news') (added ++ added') where
  visited := by
    intro x
    rw [h'.visited, h.visited, List.mem_append, or_assoc]
  explored := h.explored.append (h'.explored.congr (fun x => (h.visited x).symm))
  list := by rw [h'.list, h.list, List.append_assoc]
  perm := by
    refine (h.perm.append h'.perm).trans (List.perm_iff_count.mpr (fun x => ?_))
    simp only [List.flatMap_append, List.count_append]
    omega

/-- Entering a module: the hard dependencies and the module itself are listed by the calls. -/
theorem Grew.enter {mod : M} {required : Bool} {dep : List M} (hv : s.visited mod = false)
    (h : Grew ctx ((ctx.dep mod ++ [mod]).flatMap ctx.soft) (ctx.dep mod ++ [mod])
      (s.enter mod required dep) s₁ news added) :
    Grew ctx [mod] [] s s₁ (mod :: news) added where
  visited := by
    intro x
    rw [h.visited, enter_visited, List.mem_cons]
    by_cases hx : x = mod
    · simp [hx]
    · simp [hx]
  explored := by
    refine Explored.enter (by simp [hv]) (fun w => Iff.rfl) (h.explored.congr (fun x => ?_))
    rw [enter_visited]
    by_cases hx : x = mod
    · simp [hx]
    · simp [hx]
  list := by rw [h.list, enter_list]
  perm := by
    refine h.perm.trans (List.perm_iff_count.mpr (fun x => ?_))
    simp only [List.flatMap_cons, List.count_append, List.count_cons, List.count_nil,
      List.nil_append]
    omega

end Grew

/-- **What a call lists**, unless it skips the softdeps of its module. -/
theorem Runs.grew {ctx : ProbeCtx M} {call : ProbeCall M} {s s' : ProbeState M}
    (h : Runs ctx call s s') (hsoft : ∀ mod required, call ≠ .probe mod required true) :
    ∃ news added, Grew ctx (call.starts ctx) call.listed s s' news added := by
  induction h with
  | @fill mod s s₁ s₂ _ _ ih ih' =>
    obtain ⟨news, added, hpre⟩ := ih (by simp)
    obtain ⟨news', added', hpost⟩ := ih' (by simp)
    exact ⟨_, _, hpre.trans ((grew_append s₁ mod _).trans hpost)⟩
  | @visited mod required ignorecmd s hv =>
    exact ⟨[], [], by simp, explored_old hv, by simp, .refl _⟩
  | probe hv _ _ ih ih' =>
    obtain ⟨news, added, hdep⟩ := ih (by simp)
    obtain ⟨news', added', hfill⟩ := ih' (by simp)
    -- the softdeps of the dependencies and those of the module itself, in one search
    have hboth := hdep.trans hfill
    simp only [ProbeCall.starts, ProbeCall.listed, ← List.flatMap_singleton ctx.soft,
      ← List.flatMap_append] at hboth
    exact ⟨_, _, Grew.enter hv hboth⟩
  | @command mod required s s₁ _ _ _ => exact absurd rfl (hsoft mod required)
  | fillsNil => exact ⟨[], [], grew_nil _⟩
  | fillsCons _ _ ih ih' =>
    obtain ⟨news, added, h₁⟩ := ih (by simp)
    obtain ⟨news', added', h₂⟩ := ih' (by simp)
    exact ⟨_, _, h₁.trans h₂⟩
  | probesNil => exact ⟨[], [], grew_nil _⟩
  | probesCons _ _ ih ih' =>
    obtain ⟨news, added, h₁⟩ := ih (by simp)
    obtain ⟨news', added', h₂⟩ := ih' (by simp)
    exact ⟨_, _, h₁.trans h₂⟩

/-! ## What is listed before the module -/

/-- The search behind the hard dependencies of `mod` and the softdeps before it starts here. -/
def ProbeCtx.early (ctx : ProbeCtx M) (mod : M) : List M :=
  (ctx.dep mod).flatMap ctx.soft ++ ctx.pre mod

/--
`o` is listed before `mod`: it is one of its hard dependencies, or it is found
from their softdeps or the softdeps before `mod`, without passing `mod`.
-/
def ListedBefore (ctx : ProbeCtx M) (mod o : M) : Prop :=
  o ∈ ctx.dep mod ∨ ∃ s ∈ ctx.early mod, s ≠ mod ∧
    ∃ v, ReflTransGen (Outside (Soft ctx) (· = mod)) s v ∧ (o = v ∨ o ∈ ctx.dep v)

omit [DecidableEq M] in
/-- The modules listed while only `mod` was marked at the beginning. -/
theorem Grew.mem_before {ctx : ProbeCtx M} {mod : M} {s s' : ProbeState M} {news before : List M}
    (h : Grew ctx (ctx.early mod) (ctx.dep mod) s s' news before)
    (hs : ∀ x, s.visited x = true ↔ x = mod) (o : M) : o ∈ before ↔ ListedBefore ctx mod o := by
  have hnews : ∀ v, v ∈ news ↔ ∃ s ∈ ctx.early mod, s ≠ mod ∧
      ReflTransGen (Outside (Soft ctx) (· = mod)) s v := by
    have hexp : Explored (Soft ctx) (· = mod) (ctx.early mod) news :=
      h.explored.congr (fun x => (hs x).symm)
    exact fun v => hexp.mem_iff
  rw [h.perm.mem_iff, List.mem_append, List.mem_append, List.mem_flatMap]
  refine ⟨?_, ?_⟩
  · rintro (ho | ⟨v, hv, ho⟩ | ho)
    · exact .inl ho
    · obtain ⟨s, hs, hne, hreach⟩ := (hnews v).mp hv
      exact .inr ⟨s, hs, hne, v, hreach, .inr ho⟩
    · obtain ⟨s, hs, hne, hreach⟩ := (hnews o).mp ho
      exact .inr ⟨s, hs, hne, o, hreach, .inl rfl⟩
  · rintro (ho | ⟨s, hs, hne, v, hreach, ho⟩)
    · exact .inl ho
    · have hv := (hnews v).mpr ⟨s, hs, hne, hreach⟩
      rcases ho with rfl | ho
      · exact .inr (.inr hv)
      · exact .inr (.inl ⟨v, hv, ho⟩)

/-- How often the module is listed that everything started from. -/
theorem Grew.count_start {ctx : ProbeCtx M} {mod : M} {s s' : ProbeState M} {news added : List M}
    (h : Grew ctx [mod] [] s s' news added) (hs : ∀ x, s.visited x = false) :
    added.count mod = 1 ↔ ∀ v, ReflTransGen (Soft ctx) mod v → mod ∉ ctx.dep v := by
  -- nothing was marked, so the search finds all that can be reached
  have hnews : ∀ v, v ∈ news ↔ ReflTransGen (Soft ctx) mod v := by
    intro v
    have hexp : Explored (Soft ctx) (fun _ => False) [mod] news :=
      h.explored.congr (fun x => by simp [hs x])
    have hout : Outside (Soft ctx) (fun _ => False) = Soft ctx := by
      funext a b
      simp [Outside]
    rw [hexp.mem_iff, hout]
    simp
  have hone : news.count mod = 1 :=
    List.count_eq_one_of_mem h.explored.nodup ((hnews mod).mpr .refl)
  have hzero : (news.flatMap ctx.dep).count mod = 0 ↔
      ∀ v, ReflTransGen (Soft ctx) mod v → mod ∉ ctx.dep v := by
    rw [List.count_eq_zero, List.mem_flatMap]
    refine ⟨?_, ?_⟩
    · exact fun hno v hv hmem => hno ⟨v, (hnews v).mpr hv, hmem⟩
    · rintro hno ⟨v, hv, hmem⟩
      exact hno v ((hnews v).mp hv) hmem
  -- once for itself, and once for every module found that depends on it
  rw [← hzero, h.perm.count_eq, List.nil_append, List.count_append, hone]
  omega

/-- **The list around the module.** -/
theorem Runs.around {ctx : ProbeCtx M} {mod : M} {s s' : ProbeState M}
    (h : Runs ctx (.probe mod true false) s.reset s') :
    ∃ before after, s'.list = before ++ mod :: after ∧
      (∀ o, o ∈ before ↔ ListedBefore ctx mod o) ∧
      (mod ∉ before ∧ mod ∉ after ↔ ∀ v, ReflTransGen (Soft ctx) mod v → mod ∉ ctx.dep v) := by
  obtain ⟨news, added, hall⟩ := h.grew (by simp)
  cases h with
  | visited hv => exact absurd hv (by simp [ProbeState.reset])
  | @probe _ _ _ s₁ _ hv hdep hfill =>
    cases hfill with
    | @fill _ _ s₂ _ hpre hpost =>
      obtain ⟨news₁, added₁, h₁⟩ := hdep.grew (by simp)
      obtain ⟨news₂, added₂, h₂⟩ := hpre.grew (by simp)
      obtain ⟨after, hafter⟩ := hpost.list_prefix
      -- the hard dependencies and the softdeps before the module
      have hbefore := h₁.trans h₂
      simp only [ProbeCall.listed, List.append_nil] at hbefore
      have hlist : s'.list = (added₁ ++ added₂) ++ mod :: after := by
        rw [← hafter, append_list, hbefore.list, enter_list]
        simp [ProbeState.reset]
      have hadded : added = (added₁ ++ added₂) ++ mod :: after := by
        rw [← hlist, hall.list]
        rfl
      refine ⟨added₁ ++ added₂, after, hlist, hbefore.mem_before (fun x => ?_), ?_⟩
      · rw [enter_visited]
        by_cases hx : x = mod
        · simp [hx]
        · simp [hx, ProbeState.reset]
      · rw [← hall.count_start (fun _ => rfl), hadded, List.count_append, List.count_cons_self,
          ← List.count_eq_zero, ← List.count_eq_zero]
        omega

/-! ## Probing for the first time -/

/-- There are no install commands, and inserting a module that is not loaded succeeds. -/
structure Cooperative (ctx : InsertCtx M) : Prop where
  noCommands : ∀ m, ctx.installCommands m = none
  inserts : ∀ m flags options kernel, ctx.name m ∉ kernel →
    ctx.insertModule m flags options kernel = (0, insert (ctx.name m) kernel)

/-- No entry for `mod` finds its name loaded, neither at first nor by an earlier entry. -/
def NoClash (ctx : InsertCtx M) (mod : M) (kernel : Kernel) (list : List M) : Prop :=
  ∀ before after, list = before ++ mod :: after →
    ctx.name mod ∉ kernel ∧ ∀ o ∈ before, ctx.name o ≠ ctx.name mod

omit [DecidableEq M] in
theorem noClash_cons {ctx : InsertCtx M} {mod : M} {kernel : Kernel} {m : M} {list : List M} :
    NoClash ctx mod kernel (m :: list) ↔ (m = mod → ctx.name mod ∉ kernel) ∧
      NoClash ctx mod (insert (ctx.name m) kernel) list := by
  refine ⟨?_, ?_⟩
  · intro h
    refine ⟨fun hm => (h [] list (by rw [hm]; rfl)).1, fun before after heq => ?_⟩
    obtain ⟨hk, hb⟩ := h (m :: before) after (by rw [heq]; rfl)
    rw [Finset.mem_insert, not_or]
    exact ⟨⟨Ne.symm (hb m (List.mem_cons_self ..)), hk⟩,
      fun o ho => hb o (List.mem_cons_of_mem _ ho)⟩
  · rintro ⟨hm, hrest⟩ before after heq
    cases before with
    | nil =>
      obtain ⟨rfl, _⟩ := List.cons.inj heq
      exact ⟨hm rfl, by simp⟩
    | cons b before =>
      obtain ⟨rfl, heq'⟩ := List.cons.inj heq
      obtain ⟨hk, hb⟩ := hrest before after heq'
      rw [Finset.mem_insert, not_or] at hk
      refine ⟨hk.2, fun o ho => ?_⟩
      rcases List.mem_cons.mp ho with rfl | ho
      · exact Ne.symm hk.1
      · exact hb o ho

omit [DecidableEq M] in
theorem noClash_around {ctx : InsertCtx M} {mod : M} {kernel : Kernel} {before after : List M}
    (hmod : ctx.name mod ∉ kernel) :
    NoClash ctx mod kernel (before ++ mod :: after) ↔
      (∀ o ∈ before, ctx.name o ≠ ctx.name mod) ∧ mod ∉ before ∧ mod ∉ after := by
  refine ⟨?_, ?_⟩
  · intro h
    have hb := (h before after rfl).2
    refine ⟨hb, fun hmem => hb mod hmem rfl, fun hmem => ?_⟩
    obtain ⟨a, b, rfl⟩ := List.append_of_mem hmem
    refine (h (before ++ mod :: a) b (by simp)).2 mod ?_ rfl
    exact List.mem_append_right _ (List.mem_cons_self ..)
  · rintro ⟨hb, hbefore, hafter⟩ before' after' heq
    obtain ⟨rfl, _⟩ := (List.append_cons_inj_of_notMem hbefore hafter).mp heq
    exact ⟨hmod, hb⟩

section FirstTime

variable {ctx : InsertCtx M} (hsys : Cooperative ctx) {mod : M} {extraOptions : Option CStr}
  {s : ProbeState M}
include hsys

theorem probeModule_firstTime (m : M) (err : Int) (kernel : Kernel) :
    probeModule ctx mod KMOD_PROBE_FAIL_ON_LOADED extraOptions s m err kernel
      = if ctx.name m ∈ kernel then (-EEXIST, kernel) else (0, insert (ctx.name m) kernel) := by
  unfold probeModule
  by_cases hin : ctx.name m ∈ kernel
  · rw [if_pos hin, if_pos]
    simpa [moduleIsInkernel, hin] using show hasFlag _ _ = false from rfl
  · rw [if_neg hin, if_neg (by simp [moduleIsInkernel, hin])]
    simp only [hsys.noCommands m, hsys.inserts m _ _ _ hin]
    rfl

/-- One round: either the module asked for is loaded, or the loop goes on without an error. -/
theorem probeModules_cons (m : M) (list : List M) (kernel : Kernel) :
    probeModules ctx mod KMOD_PROBE_FAIL_ON_LOADED extraOptions s (m :: list) 0 kernel
      = if m = mod ∧ ctx.name m ∈ kernel then (-EEXIST, kernel)
        else probeModules ctx mod KMOD_PROBE_FAIL_ON_LOADED extraOptions s list 0
          (insert (ctx.name m) kernel) := by
  rw [probeModules, probeModule_firstTime hsys]
  by_cases hin : ctx.name m ∈ kernel
  · simp only [if_pos hin]
    by_cases hm : m = mod
    · rw [if_pos ⟨trivial, hm, rfl⟩, if_pos ⟨hm, hin⟩]
    · rw [if_neg (fun h => hm h.2.1), if_pos (.inl trivial), if_neg (fun h => hm h.1),
        Finset.insert_eq_of_mem hin]
  · simp only [if_neg hin]
    rw [if_neg (fun h => absurd h.1 (by decide)),
      if_neg (show ¬ (m = mod ∧ ctx.name m ∈ kernel) from fun h => hin h.2)]
    split <;> simp

/-- **The loop** ends with an error exactly if an entry for the module clashes. -/
theorem probeModules_firstTime (mod : M) (extraOptions : Option CStr) (s : ProbeState M)
    (list : List M) (kernel : Kernel) :
    (NoClash ctx mod kernel list →
      probeModules ctx mod KMOD_PROBE_FAIL_ON_LOADED extraOptions s list 0 kernel
        = (0, kernel ∪ (list.map ctx.name).toFinset)) ∧
    (¬ NoClash ctx mod kernel list →
      (probeModules ctx mod KMOD_PROBE_FAIL_ON_LOADED extraOptions s list 0 kernel).1 =
        -EEXIST) := by
  induction list generalizing kernel with
  | nil =>
    refine ⟨fun _ => by simp [probeModules], fun h => absurd (fun before after heq => ?_) h⟩
    exact absurd heq (by simp)
  | cons m list ih =>
    rw [noClash_cons, probeModules_cons hsys]
    obtain ⟨hloop, hfail⟩ := ih (insert (ctx.name m) kernel)
    by_cases hm : m = mod ∧ ctx.name m ∈ kernel
    · rw [if_pos hm]
      exact ⟨fun h => absurd (hm.1 ▸ hm.2) (h.1 hm.1), fun _ => rfl⟩
    · rw [if_neg hm]
      refine ⟨fun h => ?_, fun h => hfail (fun hn => h ⟨fun he hin => hm ⟨he, he ▸ hin⟩, hn⟩)⟩
      rw [hloop h.2]
      simp

end FirstTime

/-- The call loads the list, whatever the number of steps. -/
theorem kmodModuleProbeInsertModule_eq [Fintype M] (ctx : InsertCtx M) (mod : M)
    (extraOptions : Option CStr) (s : ProbeState M) {kernel : Kernel}
    (hmod : ctx.name mod ∉ kernel) :
    ∃ s', Runs ctx.toProbeCtx (.probe mod true false) s.reset s' ∧
      ∀ fuel ≥ 2 * Fintype.card M + 1,
        kmodModuleGetProbeList ctx.toProbeCtx fuel mod false s = .ok s' ∧
        kmodModuleProbeInsertModule ctx fuel mod KMOD_PROBE_FAIL_ON_LOADED extraOptions s kernel
          = .ok (probeModules ctx mod KMOD_PROBE_FAIL_ON_LOADED extraOptions s' s'.list 0 kernel) := by
  obtain ⟨s', hrun, hfuel⟩ := kmodModuleGetProbeList_runs ctx.toProbeCtx mod false s
  refine ⟨s', hrun, fun fuel hge => ⟨hfuel fuel hge, ?_⟩⟩
  have hblack : blacklistedResult ctx mod KMOD_PROBE_FAIL_ON_LOADED = none := by
    unfold blacklistedResult
    split
    · simp [hasFlag, KMOD_PROBE_FAIL_ON_LOADED, KMOD_PROBE_APPLY_BLACKLIST_ALIAS_ONLY,
        KMOD_PROBE_APPLY_BLACKLIST_ALL, KMOD_PROBE_APPLY_BLACKLIST]
    · rfl
  unfold kmodModuleProbeInsertModule
  rw [if_neg (by simp [moduleIsInkernel, hmod]), hblack]
  show (kmodModuleGetProbeList ctx.toProbeCtx fuel mod false s >>= _) = _
  rw [hfuel fuel hge]
  rfl

/--
**Probing with `KMOD_PROBE_FAIL_ON_LOADED`** a module that is not loaded, when all
insertions succeed: the call returns 0 with the whole list loaded, exactly if no
module found through softdeps has `mod` among its hard dependencies, and nothing
listed before `mod` has its name.
-/
theorem kmodModuleProbeInsertModule_firstTime_iff [Fintype M] (ctx : InsertCtx M)
    (hsys : Cooperative ctx) (mod : M) (extraOptions : Option CStr) (s : ProbeState M)
    (kernel : Kernel) (hmod : ctx.name mod ∉ kernel) :
    (∃ s' kernel', (∀ fuel ≥ 2 * Fintype.card M + 1,
        kmodModuleGetProbeList ctx.toProbeCtx fuel mod false s = .ok s' ∧
        kmodModuleProbeInsertModule ctx fuel mod KMOD_PROBE_FAIL_ON_LOADED extraOptions s kernel
          = .ok (0, kernel')) ∧
      ∀ m ∈ s'.list, ctx.name m ∈ kernel') ↔
    (∀ v, ReflTransGen (Soft ctx.toProbeCtx) mod v → mod ∉ ctx.dep v) ∧
      ∀ o, ListedBefore ctx.toProbeCtx mod o → ctx.name o ≠ ctx.name mod := by
  obtain ⟨s', hrun, hcall⟩ := kmodModuleProbeInsertModule_eq ctx mod extraOptions s hmod
  obtain ⟨before, after, hlist, hbefore, honce⟩ := hrun.around
  -- an entry clashes exactly if the module is listed again, or its name is listed before it
  have hclash : NoClash ctx mod kernel s'.list ↔
      (∀ v, ReflTransGen (Soft ctx.toProbeCtx) mod v → mod ∉ ctx.dep v) ∧
        ∀ o, ListedBefore ctx.toProbeCtx mod o → ctx.name o ≠ ctx.name mod := by
    rw [hlist, noClash_around hmod, honce, and_comm]
    simp only [hbefore]
  obtain ⟨hloop, hfail⟩ := probeModules_firstTime hsys mod extraOptions s' s'.list kernel
  rw [← hclash]
  refine ⟨?_, ?_⟩
  · rintro ⟨s'', kernel', hcall', _⟩
    by_contra hno
    have heq := (hcall _ (Nat.le_refl _)).2.symm.trans (hcall' _ (Nat.le_refl _)).2
    have hret := hfail hno
    rw [Except.ok.inj heq] at hret
    exact absurd hret (show (0 : Int) ≠ -EEXIST by decide)
  · intro hno
    refine ⟨s', kernel ∪ (s'.list.map ctx.name).toFinset, fun fuel hge => ?_, fun m hm => ?_⟩
    · obtain ⟨hget, hinsert⟩ := hcall fuel hge
      exact ⟨hget, by rw [hinsert, hloop hno]⟩
    · exact Finset.mem_union_right _ (List.mem_toFinset.mpr (List.mem_map_of_mem hm))

/-- Two modules `a` and `b`, where `b` needs `a`, and some softdeps. -/
def pairCtx (softdeps : List KmodSoftdep) : InsertCtx (Fin 2) where
  name := fun m => [97 + UInt8.ofNat m]
  dep := fun m => (List.finRange 2).filter (· < m)
  softdeps := softdeps
  newFromLookup := fun name => .ok ((List.finRange 2).filter (fun m => [97 + UInt8.ofNat m] = name))
  fnmatch := fun pat str => pat = str
  hasAlias := fun _ => false
  blacklists := []
  options := fun _ => none
  installCommands := fun _ => none
  doInstallCommands := fun _ _ kernel => (0, kernel)
  insertModule := fun m _ _ kernel => (0, insert [97 + UInt8.ofNat m] kernel)

theorem pairCtx_cooperative (softdeps : List KmodSoftdep) : Cooperative (pairCtx softdeps) :=
  ⟨fun _ => rfl, fun _ _ _ _ _ => rfl⟩

/-- The softdep of `a` before it is `b`. -/
def preCtx : InsertCtx (Fin 2) := pairCtx [⟨cstr "a", [cstr "b"], []⟩]

/-- The softdep of `a` behind it is `b`. -/
def postCtx : InsertCtx (Fin 2) := pairCtx [⟨cstr "a", [], [cstr "b"]⟩]

/-- No module is marked. -/
def unmarked : ProbeState (Fin 2) := ⟨fun _ => false, fun _ => false, fun _ => false, []⟩

theorem kmodModuleProbeInsertModule_firstTime_preCtx :
    Cooperative preCtx ∧ preCtx.name 1 ∉ (∅ : Kernel) ∧
      ∃ s' kernel', (∀ fuel ≥ 2 * Fintype.card (Fin 2) + 1,
          kmodModuleGetProbeList preCtx.toProbeCtx fuel 1 false unmarked = .ok s' ∧
          kmodModuleProbeInsertModule preCtx fuel 1 KMOD_PROBE_FAIL_ON_LOADED none unmarked ∅
            = .ok (0, kernel')) ∧
        ∀ m ∈ s'.list, preCtx.name m ∈ kernel' := by
  have hdep : ∀ v : Fin 2, 1 ∉ preCtx.dep v := by decide
  have hname : ∀ o ∈ preCtx.dep 1, preCtx.name o ≠ preCtx.name 1 := by decide
  have hearly : ∀ s ∈ preCtx.toProbeCtx.early 1, s = 1 := by decide
  refine ⟨pairCtx_cooperative _, by decide, (kmodModuleProbeInsertModule_firstTime_iff preCtx
    (pairCtx_cooperative _) 1 none unmarked ∅ (by decide)).mpr ⟨fun v _ => hdep v, ?_⟩⟩
  rintro o (ho | ⟨s, hs, hne, _⟩)
  · exact hname o ho
  · exact absurd (hearly s hs) hne

/-- Probing `a` lists it once more, as a dependency of `b`. -/
theorem firstTime_fails_postCtx :
    Cooperative postCtx ∧ postCtx.name 0 ∉ (∅ : Kernel) ∧
      ∀ fuel ≥ 2 * Fintype.card (Fin 2) + 1,
        kmodModuleProbeInsertModule postCtx fuel 0 KMOD_PROBE_FAIL_ON_LOADED none unmarked ∅
          = .ok (-EEXIST, {cstr "a"}) := by
  obtain ⟨s', _, hcall⟩ := kmodModuleProbeInsertModule_eq postCtx 0 none unmarked
    (show postCtx.name 0 ∉ (∅ : Kernel) by decide)
  refine ⟨pairCtx_cooperative _, by decide, fun fuel hfuel => ?_⟩
  rw [(hcall fuel hfuel).2, ← (hcall 5 (by decide)).2]
  decide

end Kmod
