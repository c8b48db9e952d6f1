import Kmod.Base
import Mathlib.Data.Fintype.Card

/-!
# The list of modules to probe

`kmod_module_get_probe_list` collects what has to be loaded for a module: its
hard dependencies, the module, and around each of these its soft dependencies,
with their own dependencies in turn. Two functions call each other; of these only
`__kmod_module_get_probe_list` looks at the mark `visited`.

`Runs` says what a call does without counting calls. The results here:
every call ends (`calls_run`), and in the list every module stands behind its hard
dependencies (`kmodModuleGetProbeList_placed`).
-/

namespace Kmod

/-! ## The model -/

/-- A `struct kmod_softdep`. -/
structure KmodSoftdep where
  name : CStr
  pre : List CStr
  post : List CStr

/-- What a probe uses of a context and its module objects `M`. -/
structure ProbeCtx (M : Type) where
  name : M → CStr
  /-- `kmod_module_get_dependencies`. -/
  dep : M → List M
  /-- The softdeps of the configuration. -/
  softdeps : List KmodSoftdep
  /-- `kmod_module_new_from_lookup`. -/
  newFromLookup : CStr → Except Int (List M)
  /-- Whether `fnmatch(pat, str, 0)` is zero. -/
  fnmatch : CStr → CStr → Bool

variable {M : Type}

/-- `lookup_dep`: what cannot be looked up is left out. -/
def lookupDep (ctx : ProbeCtx M) (array : List CStr) : List M :=
  array.flatMap (fun depname =>
    match ctx.newFromLookup depname with
    | .error _ => []
    | .ok lst => lst)

/-- `kmod_module_get_softdeps`: `pre` and `post` of the first softdep that matches. -/
def kmodModuleGetSoftdeps (ctx : ProbeCtx M) (mod : M) : List M × List M :=
  match ctx.softdeps.find? (fun l => ctx.fnmatch l.name (ctx.name mod)) with
  | none => ([], [])
  | some l => (lookupDep ctx l.pre, lookupDep ctx l.post)

def ProbeCtx.pre (ctx : ProbeCtx M) (mod : M) : List M := (kmodModuleGetSoftdeps ctx mod).1

def ProbeCtx.post (ctx : ProbeCtx M) (mod : M) : List M := (kmodModuleGetSoftdeps ctx mod).2

/-- The fields of the module objects that a probe sets, and the list it builds. -/
structure ProbeState (M : Type) where
  visited : M → Bool
  required : M → Bool
  ignorecmd : M → Bool
  list : List M

variable [DecidableEq M]

/-- Append a module and set its field `ignorecmd`. -/
def ProbeState.append (s : ProbeState M) (mod : M) (ignorecmd : Bool) : ProbeState M :=
  { s with list := s.list ++ [mod], ignorecmd := Function.update s.ignorecmd mod ignorecmd }

/-- Set the field `required` of some modules. -/
def ProbeState.require (s : ProbeState M) (mods : List M) : ProbeState M :=
  { s with required := fun m => m ∈ mods || s.required m }

/-- Mark a module as visited; if it is required, so are its dependencies. -/
def ProbeState.enter (s : ProbeState M) (mod : M) (required : Bool) (dep : List M) : ProbeState M :=
  let s := { s with visited := Function.update s.visited mod true }
  if required then s.require (mod :: dep) else s

mutual

/-- `__kmod_module_fill_softdep`. -/
def kmodModuleFillSoftdep (ctx : ProbeCtx M) :
    Nat → M → ProbeState M → Except Fault (ProbeState M)
  | 0, _, _ => .error .outOfFuel
  | fuel + 1, mod, s => do
    let s ← (ctx.pre mod).foldlM (fun s m => kmodModuleGetProbeListFrom ctx fuel m false false s) s
    let s := s.append mod (!(ctx.pre mod).isEmpty || !(ctx.post mod).isEmpty)
    (ctx.post mod).foldlM (fun s m => kmodModuleGetProbeListFrom ctx fuel m false false s) s

/-- `__kmod_module_get_probe_list`. -/
def kmodModuleGetProbeListFrom (ctx : ProbeCtx M) :
    Nat → M → Bool → Bool → ProbeState M → Except Fault (ProbeState M)
  | 0, _, _, _, _ => .error .outOfFuel
  | fuel + 1, mod, required, ignorecmd, s =>
    if s.visited mod then .ok s
    else do
      let s ← (ctx.dep mod).foldlM (fun s m => kmodModuleFillSoftdep ctx fuel m s)
        (s.enter mod required (ctx.dep mod))
      if ignorecmd then .ok (s.append mod true)
      else kmodModuleFillSoftdep ctx fuel mod s

end

/-- `kmod_set_modules_visited` and `kmod_set_modules_required` to `false`, and an empty list. -/
def ProbeState.reset (s : ProbeState M) : ProbeState M :=
  { s with visited := fun _ => false, required := fun _ => false, list := [] }

/-- `kmod_module_get_probe_list`. -/
def kmodModuleGetProbeList (ctx : ProbeCtx M) (fuel : Nat) (mod : M) (ignorecmd : Bool)
    (s : ProbeState M) : Except Fault (ProbeState M) :=
  kmodModuleGetProbeListFrom ctx fuel mod true ignorecmd s.reset

@[simp] theorem append_visited (s : ProbeState M) (mod : M) (b : Bool) :
    (s.append mod b).visited = s.visited := rfl

@[simp] theorem append_list (s : ProbeState M) (mod : M) (b : Bool) :
    (s.append mod b).list = s.list ++ [mod] := rfl

@[simp] theorem enter_visited (s : ProbeState M) (mod : M) (required : Bool) (dep : List M) :
    (s.enter mod required dep).visited = Function.update s.visited mod true := by
  cases required <;> rfl

@[simp] theorem enter_list (s : ProbeState M) (mod : M) (required : Bool) (dep : List M) :
    (s.enter mod required dep).list = s.list := by
  cases required <;> rfl

/-! ## Runs -/

/-- A call, or a loop of calls. -/
inductive ProbeCall (M : Type) where
  | fill (mod : M)
  | probe (mod : M) (required ignorecmd : Bool)
  | fills (mods : List M)
  | probes (mods : List M)

/-- What a call, or a loop of calls, does to the state. -/
inductive Runs (ctx : ProbeCtx M) : ProbeCall M → ProbeState M → ProbeState M → Prop where
  | fill {mod : M} {s s₁ s₂ : ProbeState M} : Runs ctx (.probes (ctx.pre mod)) s s₁ →
      Runs ctx (.probes (ctx.post mod))
        (s₁.append mod (!(ctx.pre mod).isEmpty || !(ctx.post mod).isEmpty)) s₂ →
      Runs ctx (.fill mod) s s₂
  | visited {mod : M} {required ignorecmd : Bool} {s : ProbeState M} : s.visited mod = true →
      Runs ctx (.probe mod required ignorecmd) s s
  | probe {mod : M} {required : Bool} {s s₁ s₂ : ProbeState M} : s.visited mod = false →
      Runs ctx (.fills (ctx.dep mod)) (s.enter mod required (ctx.dep mod)) s₁ →
      Runs ctx (.fill mod) s₁ s₂ → Runs ctx (.probe mod required false) s s₂
  | command {mod : M} {required : Bool} {s s₁ : ProbeState M} : s.visited mod = false →
      Runs ctx (.fills (ctx.dep mod)) (s.enter mod required (ctx.dep mod)) s₁ →
      Runs ctx (.probe mod required true) s (s₁.append mod true)
  | fillsNil {s : ProbeState M} : Runs ctx (.fills []) s s
  | fillsCons {mod : M} {mods : List M} {s s₁ s₂ : ProbeState M} : Runs ctx (.fill mod) s s₁ →
      Runs ctx (.fills mods) s₁ s₂ → Runs ctx (.fills (mod :: mods)) s s₂
  | probesNil {s : ProbeState M} : Runs ctx (.probes []) s s
  | probesCons {mod : M} {mods : List M} {s s₁ s₂ : ProbeState M} :
      Runs ctx (.probe mod false false) s s₁ → Runs ctx (.probes mods) s₁ s₂ →
      Runs ctx (.probes (mod :: mods)) s s₂

variable {ctx : ProbeCtx M}

/-- A call has one result. -/
theorem Runs.unique {call : ProbeCall M} {s s₁ s₂ : ProbeState M} (h₁ : Runs ctx call s s₁)
    (h₂ : Runs ctx call s s₂) : s₁ = s₂ := by
  -- the call and the mark of its module say which case applies
  induction h₁ generalizing s₂ with
  | fill _ _ ih ih' =>
    cases h₂ with
    | fill hpre hpost =>
      rw [← ih hpre] at hpost
      exact ih' hpost
  | visited hv =>
    cases h₂ with
    | visited _ => rfl
    | probe hn _ _ => rw [hv] at hn; exact absurd hn (by simp)
    | command hn _ => rw [hv] at hn; exact absurd hn (by simp)
  | probe hn _ _ ih ih' =>
    cases h₂ with
    | visited hv => rw [hv] at hn; exact absurd hn (by simp)
    | probe _ hdep hfill =>
      rw [← ih hdep] at hfill
      exact ih' hfill
  | command hn _ ih =>
    cases h₂ with
    | visited hv => rw [hv] at hn; exact absurd hn (by simp)
    | command _ hdep => rw [ih hdep]
  | fillsNil => cases h₂ with | fillsNil => rfl
  | fillsCons _ _ ih ih' =>
    cases h₂ with
    | fillsCons h h' =>
      rw [← ih h] at h'
      exact ih' h'
  | probesNil => cases h₂ with | probesNil => rfl
  | probesCons _ _ ih ih' =>
    cases h₂ with
    | probesCons h h' =>
      rw [← ih h] at h'
      exact ih' h'

/-- Marks stay. -/
theorem Runs.visited_mono {call : ProbeCall M} {s s' : ProbeState M}
    (h : Runs ctx call s s') {m : M}
    (hm : s.visited m = true) : s'.visited m = true := by
  have henter : ∀ {s : ProbeState M} {mod : M} {required : Bool} {dep : List M},
      s.visited m = true → (s.enter mod required dep).visited m = true := by
    intro s mod required dep hs
    rw [enter_visited]
    by_cases hmm : m = mod
    · rw [hmm, Function.update_self]
    · rw [Function.update_of_ne hmm, hs]
  induction h with
  | fill _ _ ih ih' => exact ih' (ih hm)
  | visited _ => exact hm
  | probe _ _ _ ih ih' => exact ih' (ih (henter hm))
  | command _ _ ih => exact ih (henter hm)
  | fillsNil => exact hm
  | fillsCons _ _ ih ih' => exact ih' (ih hm)
  | probesNil => exact hm
  | probesCons _ _ ih ih' => exact ih' (ih hm)

/-- The list only grows at its end. -/
theorem Runs.list_prefix {call : ProbeCall M} {s s' : ProbeState M} (h : Runs ctx call s s') :
    s.list <+: s'.list := by
  induction h with
  | fill _ _ ih ih' => exact (ih.trans (List.prefix_append ..)).trans ih'
  | visited _ => exact List.prefix_refl _
  | probe _ _ _ ih ih' =>
    rw [enter_list] at ih
    exact ih.trans ih'
  | command _ _ ih =>
    rw [enter_list] at ih
    exact ih.trans (List.prefix_append ..)
  | fillsNil => exact List.prefix_refl _
  | fillsCons _ _ ih ih' => exact ih.trans ih'
  | probesNil => exact List.prefix_refl _
  | probesCons _ _ ih ih' => exact ih.trans ih'

/-! ## Every call ends -/

section Termination

variable [Fintype M]

/-- The number of modules that are not marked. -/
def unvisited (s : ProbeState M) : Nat := (Finset.univ.filter (fun m => s.visited m = false)).card

omit [DecidableEq M] in
theorem unvisited_le {s s' : ProbeState M}
    (h : ∀ m, s.visited m = true → s'.visited m = true) : unvisited s' ≤ unvisited s := by
  refine Finset.card_le_card (fun m hm => ?_)
  rw [Finset.mem_filter] at hm ⊢
  refine ⟨hm.1, ?_⟩
  cases hs : s.visited m with
  | false => rfl
  | true => rw [h m hs] at hm; exact absurd hm.2 (by simp)

theorem Runs.unvisited_le {call : ProbeCall M} {s s' : ProbeState M} (h : Runs ctx call s s') :
    unvisited s' ≤ unvisited s :=
  Kmod.unvisited_le (fun _ hm => h.visited_mono hm)

theorem unvisited_enter {s : ProbeState M} {mod : M} (h : s.visited mod = false) (required : Bool)
    (dep : List M) : unvisited (s.enter mod required dep) < unvisited s := by
  refine Finset.card_lt_card ?_
  rw [Finset.ssubset_iff_of_subset]
  · refine ⟨mod, by simp [h], by simp⟩
  · intro m hm
    rw [Finset.mem_filter, enter_visited] at hm
    refine Finset.mem_filter.mpr ⟨hm.1, ?_⟩
    by_cases hmm : m = mod
    · rw [hmm, h]
    · rw [Function.update_of_ne hmm] at hm
      exact hm.2

/-- A loop ends if the calls of its body do. -/
theorem foldlM_runs (n : Nat) {body : ProbeState M → M → Except Fault (ProbeState M)}
    {call : M → ProbeCall M}
    {calls : List M → ProbeCall M} (hnil : ∀ s, Runs ctx (calls []) s s)
    (hcons : ∀ {m ms s s₁ s₂}, Runs ctx (call m) s s₁ → Runs ctx (calls ms) s₁ s₂ →
      Runs ctx (calls (m :: ms)) s s₂)
    (hbody : ∀ m s, unvisited s ≤ n → ∃ s', body s m = .ok s' ∧ Runs ctx (call m) s s') :
    ∀ (ms : List M) (s : ProbeState M), unvisited s ≤ n →
      ∃ s', ms.foldlM body s = .ok s' ∧ Runs ctx (calls ms) s s' := by
  intro ms
  induction ms with
  | nil => intro s _; exact ⟨s, rfl, hnil s⟩
  | cons m ms ih =>
    intro s hs
    obtain ⟨s₁, hs₁, hrun₁⟩ := hbody m s hs
    obtain ⟨s₂, hs₂, hrun₂⟩ := ih s₁ (hrun₁.unvisited_le.trans hs)
    refine ⟨s₂, ?_, hcons hrun₁ hrun₂⟩
    rw [List.foldlM_cons, hs₁]
    exact hs₂

/-- **Both functions end**, since no module is entered twice. -/
theorem calls_run (ctx : ProbeCtx M) (fuel : Nat) :
    (∀ mod s, 2 * unvisited s + 2 ≤ fuel →
      ∃ s', kmodModuleFillSoftdep ctx fuel mod s = .ok s' ∧ Runs ctx (.fill mod) s s') ∧
    (∀ mod required ignorecmd s, 2 * unvisited s + 1 ≤ fuel →
      ∃ s', kmodModuleGetProbeListFrom ctx fuel mod required ignorecmd s = .ok s' ∧
        Runs ctx (.probe mod required ignorecmd) s s') := by
  -- a call of one function needs the other with less fuel, or with fewer unmarked modules
  induction fuel with
  | zero => exact ⟨fun _ _ h => by omega, fun _ _ _ _ h => by omega⟩
  | succ fuel ih =>
    obtain ⟨ihfill, ihprobe⟩ := ih
    refine ⟨?_, ?_⟩
    · intro mod s hfuel
      have hloop := foldlM_runs (unvisited s) (fun _ => .probesNil) .probesCons
        (fun m s' hs' => ihprobe m false false s' (by omega))
      obtain ⟨s₁, hs₁, hrun₁⟩ := hloop (ctx.pre mod) s (Nat.le_refl _)
      obtain ⟨s₂, hs₂, hrun₂⟩ := hloop (ctx.post mod)
        (s₁.append mod (!(ctx.pre mod).isEmpty || !(ctx.post mod).isEmpty)) hrun₁.unvisited_le
      refine ⟨s₂, ?_, .fill hrun₁ hrun₂⟩
      unfold kmodModuleFillSoftdep
      rw [hs₁]
      exact hs₂
    · intro mod required ignorecmd s hfuel
      unfold kmodModuleGetProbeListFrom
      cases hv : s.visited mod with
      | true => exact ⟨s, if_pos rfl, .visited hv⟩
      | false =>
        have hless := unvisited_enter hv required (ctx.dep mod)
        have hloop := foldlM_runs (unvisited (s.enter mod required (ctx.dep mod)))
          (fun _ => .fillsNil) .fillsCons (fun m s' hs' => ihfill m s' (by omega))
        obtain ⟨s₁, hs₁, hrun₁⟩ := hloop (ctx.dep mod) _ (Nat.le_refl _)
        have hle := hrun₁.unvisited_le
        rw [if_neg (by simp), hs₁]
        cases ignorecmd with
        | true => exact ⟨s₁.append mod true, rfl, .command hv hrun₁⟩
        | false =>
          obtain ⟨s₂, hs₂, hrun₂⟩ := ihfill mod s₁ (by omega)
          exact ⟨s₂, hs₂, .probe hv hrun₁ hrun₂⟩

/-- **The list of modules to probe is built**, the same with any number of steps that is enough. -/
theorem kmodModuleGetProbeList_runs (ctx : ProbeCtx M) (mod : M) (ignorecmd : Bool)
    (s : ProbeState M) :
    ∃ s', Runs ctx (.probe mod true ignorecmd) s.reset s' ∧
      ∀ fuel ≥ 2 * Fintype.card M + 1, kmodModuleGetProbeList ctx fuel mod ignorecmd s = .ok s' := by
  have hall : unvisited s.reset ≤ Fintype.card M := Finset.card_filter_le ..
  obtain ⟨s', _, hrun⟩ := (calls_run ctx (2 * Fintype.card M + 1)).2 mod true ignorecmd s.reset
    (by omega)
  refine ⟨s', hrun, fun fuel hfuel => ?_⟩
  obtain ⟨s'', hs'', hrun'⟩ := (calls_run ctx fuel).2 mod true ignorecmd s.reset (by omega)
  unfold kmodModuleGetProbeList
  rw [hs'', hrun'.unique hrun]

end Termination

/-! ## Hard dependencies come first -/

/-- Lists of hard dependencies that are transitively closed, dependencies first. -/
structure DepsFirst (dep : M → List M) : Prop where
  closed : ∀ m, ∀ d ∈ dep m, dep d ⊆ dep m
  first : ∀ {m before d after}, dep m = before ++ d :: after → dep d ⊆ before

omit [DecidableEq M] in
/-- The order can be checked position by position. -/
theorem depsFirst_of_take {dep : M → List M}
    (h : ∀ m, ∀ i : Fin (dep m).length, ∀ x ∈ dep ((dep m).get i), x ∈ (dep m).take i) :
    DepsFirst dep where
  closed := by
    intro m d hd x hx
    obtain ⟨i, rfl⟩ := List.mem_iff_get.mp hd
    exact List.mem_of_mem_take (h m i x hx)
  first := by
    intro m before d after heq x hx
    have hlt : before.length < (dep m).length := by
      rw [heq, List.length_append, List.length_cons]
      omega
    have hget : (dep m).get ⟨before.length, hlt⟩ = d := by
      simp [heq]
    have hin := h m ⟨before.length, hlt⟩ x (hget ▸ hx)
    simpa [heq] using hin

/-- Every module of the list stands behind its hard dependencies. -/
def Placed (dep : M → List M) (list : List M) : Prop :=
  ∀ {before x after}, list = before ++ x :: after → dep x ⊆ before

omit [DecidableEq M] in
theorem placed_concat {dep : M → List M} {list : List M} {mod : M} (h : Placed dep list)
    (hmod : dep mod ⊆ list) : Placed dep (list ++ [mod]) := by
  intro before x after heq
  rcases List.eq_nil_or_concat after with rfl | ⟨after', y, rfl⟩
  · obtain ⟨rfl, hx⟩ := List.append_inj' heq rfl
    rw [← (List.cons.inj hx).1]
    exact hmod
  · have hassoc : before ++ x :: after'.concat y = (before ++ x :: after') ++ [y] := by simp
    rw [hassoc] at heq
    exact h (List.append_inj' heq rfl).1

/-- What a call relies on: the dependencies of the modules it fills in are there in time. -/
def ProbeCall.Ready (dep : M → List M) (list : List M) : ProbeCall M → Prop
  | .fill mod => dep mod ⊆ list
  | .fills mods => ∀ before d after, mods = before ++ d :: after → dep d ⊆ before ++ list
  | _ => True

/-- The modules a call is sure to list. -/
def ProbeCall.listed : ProbeCall M → List M
  | .fill mod => [mod]
  | .fills mods => mods
  | _ => []

theorem Runs.listed_subset {call : ProbeCall M} {s s' : ProbeState M} (h : Runs ctx call s s') :
    call.listed ⊆ s'.list := by
  induction h with
  | fill _ hpost _ _ =>
    have hin := hpost.list_prefix.subset
    exact fun x hx => hin (List.mem_append_right _ hx)
  | visited _ => exact List.nil_subset _
  | probe _ _ _ _ _ => exact List.nil_subset _
  | command _ _ _ => exact List.nil_subset _
  | fillsNil => exact List.nil_subset _
  | fillsCons _ hmods ih ih' =>
    exact List.cons_subset.mpr ⟨hmods.list_prefix.subset (ih (List.mem_singleton_self _)), ih'⟩
  | probesNil => exact List.nil_subset _
  | probesCons _ _ _ _ => exact List.nil_subset _

/-- **A call keeps every module of the list behind its hard dependencies.** -/
theorem Runs.placed (hdep : DepsFirst ctx.dep) {call : ProbeCall M} {s s' : ProbeState M}
    (h : Runs ctx call s s') (hready : call.Ready ctx.dep s.list) (hs : Placed ctx.dep s.list) :
    Placed ctx.dep s'.list := by
  -- the dependencies of a module can be filled in one after the other
  have hfills : ∀ {mod : M} {s : ProbeState M},
      (ProbeCall.fills (ctx.dep mod)).Ready ctx.dep s.list := fun before d after heq =>
    List.Subset.trans (hdep.first heq) (List.subset_append_left ..)
  induction h with
  | @fill mod s s₁ s₂ hpre hpost ih ih' =>
    have hmod : ctx.dep mod ⊆ s₁.list := List.Subset.trans hready hpre.list_prefix.subset
    exact @ih' trivial (placed_concat (ih trivial hs) hmod)
  | visited _ => exact @hs
  | probe _ hmods _ ih ih' =>
    rw [enter_list] at ih
    exact @ih' hmods.listed_subset (ih hfills hs)
  | command _ hmods ih =>
    rw [enter_list] at ih
    exact @placed_concat _ _ _ _ (ih hfills hs) hmods.listed_subset
  | fillsNil => exact @hs
  | @fillsCons mod mods s s₁ s₂ h₁ h₂ ih ih' =>
    have hmod : ctx.dep mod ⊆ s.list := by simpa using hready [] mod mods rfl
    -- what a later dependency needs was listed before, or is this one
    have hready' : (ProbeCall.fills mods).Ready ctx.dep s₁.list := by
      intro before d after heq x hx
      have hin := hready (mod :: before) d after (by rw [heq]; rfl) hx
      rw [List.cons_append, List.mem_cons, List.mem_append] at hin
      rw [List.mem_append]
      rcases hin with rfl | hin | hin
      · exact .inr (h₁.listed_subset (List.mem_singleton_self _))
      · exact .inl hin
      · exact .inr (h₁.list_prefix.subset hin)
    exact @ih' hready' (ih hmod hs)
  | probesNil => exact @hs
  | probesCons _ _ ih ih' => exact @ih' trivial (ih trivial hs)

/-- The module itself is listed. -/
theorem Runs.mem_probed {mod : M} {required ignorecmd : Bool} {s s' : ProbeState M}
    (h : Runs ctx (.probe mod required ignorecmd) s s') (hv : s.visited mod = false) :
    mod ∈ s'.list := by
  cases h with
  | visited hv' => rw [hv] at hv'; exact absurd hv' (by simp)
  | probe _ _ hfill =>
    cases hfill with
    | fill _ hpost => exact hpost.list_prefix.subset (by simp)
  | command _ _ => simp

/--
**The list of modules to probe.** For every configuration of softdeps and hard
dependencies whose lists are transitively closed, dependencies first:
`kmod_module_get_probe_list` ends, its list contains the module, and every module
of the list stands behind its hard dependencies.
-/
theorem kmodModuleGetProbeList_placed [Fintype M] (ctx : ProbeCtx M) (hdep : DepsFirst ctx.dep)
    (mod : M) (ignorecmd : Bool) (s : ProbeState M) :
    ∃ s', (∀ fuel ≥ 2 * Fintype.card M + 1,
        kmodModuleGetProbeList ctx fuel mod ignorecmd s = .ok s') ∧
      mod ∈ s'.list ∧
      ∀ before x after, s'.list = before ++ x :: after → ∀ d ∈ ctx.dep x, d ∈ before := by
  obtain ⟨s', hrun, hfuel⟩ := kmodModuleGetProbeList_runs ctx mod ignorecmd s
  refine ⟨s', hfuel, hrun.mem_probed rfl, fun before x after heq => ?_⟩
  have hempty : Placed ctx.dep (ProbeState.reset s).list := by
    intro before x after heq
    exact absurd heq (by simp [ProbeState.reset])
  exact hrun.placed hdep trivial hempty heq

/-- Three modules, `c` needs `b` and `b` needs `a`, with softdeps in a circle. -/
def loopCtx : ProbeCtx (Fin 3) where
  name := fun m => [97 + UInt8.ofNat m]
  dep := fun m => (List.finRange 3).filter (· < m)
  softdeps := [⟨cstr "a", [cstr "b"], []⟩, ⟨cstr "b", [], [cstr "c"]⟩, ⟨cstr "c", [cstr "a"], []⟩]
  newFromLookup := fun name => .ok ((List.finRange 3).filter (fun m => [97 + UInt8.ofNat m] = name))
  fnmatch := fun pat str => pat = str

/-- No module is marked. -/
def freshState : ProbeState (Fin 3) := ⟨fun _ => false, fun _ => false, fun _ => false, []⟩

theorem kmodModuleGetProbeList_placed_loop :
    DepsFirst loopCtx.dep ∧
      ∃ s', (∀ fuel ≥ 2 * Fintype.card (Fin 3) + 1,
          kmodModuleGetProbeList loopCtx fuel 2 false freshState = .ok s') ∧
        2 ∈ s'.list ∧
        ∀ before x after, s'.list = before ++ x :: after → ∀ d ∈ loopCtx.dep x, d ∈ before := by
  have hdep : DepsFirst loopCtx.dep := depsFirst_of_take (by decide)
  exact ⟨hdep, kmodModuleGetProbeList_placed loopCtx hdep 2 false freshState⟩

end Kmod
