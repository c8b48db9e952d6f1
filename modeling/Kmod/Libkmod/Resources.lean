import Kmod.Libkmod.Lookup

/-!
# Validating what a context has cached

A daemon keeps one context for a long time, with the indexes mapped, and asks
`kmod_validate_resources` now and then whether the files have changed since. All that a context
remembers of a file is the time of its last modification, in microseconds.

In every run of loadings, unloadings and changes to the file system a mapped index is that of a
file with the remembered time (`Cached`). So if two files with one time are never different, an
answer of `KMOD_RESOURCES_OK` means that every mapped index is the file as it is now, and with
that every lookup gives the answer of a new context (`kmodValidateResources_coherent`).
-/

namespace Kmod.Resources

open Index Lookup

/-! ## The model -/

/-- `ts_usec` of a `struct timespec`. -/
def tsUsec (tvSec tvNsec : UInt64) : UInt64 := tvSec * 1000000 + tvNsec / 1000

/-- What the system says about a path that is there. -/
structure Inode where
  /-- `st_mtim` -/
  mtim : UInt64 × UInt64
  /-- It is no directory, or `opendir` can open it. -/
  listed : Bool
  /-- What is read from it, or why it cannot be opened, read or mapped. -/
  read : Except Int (List UInt8)
  read_err : ∀ err, read = .error err → err < 0

/-- `stat_mstamp` -/
def statMstamp (st : Inode) : UInt64 := tsUsec st.mtim.1 st.mtim.2

/-- The paths, or why `stat` fails for them. -/
structure FileSystem where
  inode : CStr → Except Int Inode
  inode_err : ∀ path err, inode path = .error err → err < 0

/-- Open a file and read it. -/
def FileSystem.read (fs : FileSystem) (path : CStr) : Except Int (List UInt8) := do
  (← fs.inode path).read

/-- The field `fn` of `index_files`. -/
def indexFn : KmodIndex → CStr
  | .modulesDep => cstr "modules.dep"
  | .modulesAlias => cstr "modules.alias"
  | .modulesSymbol => cstr "modules.symbols"
  | .modulesBuiltinAlias => cstr "modules.builtin.alias"
  | .modulesBuiltin => cstr "modules.builtin"

/-- The path of an index, as far as it fits into the buffer. -/
def indexPath (dirname : CStr) (type : KmodIndex) : CStr :=
  (dirname ++ cstr "/" ++ indexFn type ++ cstr ".bin").take (PATH_MAX - 1)

/-- What a `struct kmod_ctx` remembers of files. -/
structure ResourceCtx where
  dirname : CStr
  /-- `config->paths`: each with its stamp. -/
  paths : List (CStr × UInt64)
  indexes : KmodIndex → Option IndexMm
  indexesStamp : KmodIndex → UInt64

/-- `enum kmod_resources` -/
inductive KmodResources where
  | ok
  | mustReload
  | mustRecreate
  deriving DecidableEq, Repr

/-- A new context, as far as `kmod_new` and `kmod_config_new` look at paths. -/
def kmodNew (fs : FileSystem) (dirname : CStr) (configPaths : List CStr) : ResourceCtx where
  dirname := dirname
  paths := configPaths.filterMap (fun path =>
    match fs.inode path with
    | .error _ => none
    | .ok st => if st.listed then some (path, statMstamp st) else none)
  indexes := fun _ => none
  indexesStamp := fun _ => 0

/-- `is_cache_invalid` -/
def isCacheInvalid (fs : FileSystem) (path : CStr) (stamp : UInt64) : Bool :=
  match fs.inode path with
  | .error _ => true
  | .ok st => stamp ≠ statMstamp st

/-- `kmod_validate_resources` -/
def kmodValidateResources (fs : FileSystem) (ctx : ResourceCtx) : KmodResources :=
  if ctx.paths.any (fun cf => isCacheInvalid fs cf.1 cf.2) then .mustRecreate
  else if KmodIndex.all.any (fun i => (ctx.indexes i).isSome &&
      isCacheInvalid fs (indexPath ctx.dirname i) (ctx.indexesStamp i)) then .mustReload
  else .ok

/-- `index_mm_open`: the stamp and the index. -/
def indexMmOpenPath (fs : FileSystem) (path : CStr) : Except Int (UInt64 × IndexMm) := do
  let st ← fs.inode path
  let idx ← indexMmOpen (← st.read)
  .ok (statMstamp st, idx)

/-- The loop of `kmod_load_resources`. -/
def loadIndexes (fs : FileSystem) : List KmodIndex → ResourceCtx → Int × ResourceCtx
  | [], ctx => (0, ctx)
  | i :: is, ctx =>
    match ctx.indexes i with
    | some _ => loadIndexes fs is ctx
    | none =>
      match indexMmOpenPath fs (indexPath ctx.dirname i) with
      | .ok (stamp, idx) =>
        loadIndexes fs is { ctx with
          indexes := Function.update ctx.indexes i (some idx)
          indexesStamp := Function.update ctx.indexesStamp i stamp }
      | .error err => if i = .modulesBuiltinAlias then loadIndexes fs is ctx else (err, ctx)

/-- `kmod_unload_resources` -/
def kmodUnloadResources (ctx : ResourceCtx) : ResourceCtx := { ctx with
  indexes := fun _ => none
  indexesStamp := fun i => if (ctx.indexes i).isSome then 0 else ctx.indexesStamp i }

/-- `kmod_load_resources` -/
def kmodLoadResources (fs : FileSystem) (ctx : ResourceCtx) : Int × ResourceCtx :=
  let (ret, ctx) := loadIndexes fs KmodIndex.all ctx
  if ret ≠ 0 then (ret, kmodUnloadResources ctx) else (ret, ctx)

/-- What happens to a context: something changes the files, or a function is called. -/
inductive Event where
  | change (fs : FileSystem)
  | loadResources
  | unloadResources

def step : FileSystem × ResourceCtx → Event → FileSystem × ResourceCtx
  | (_, ctx), .change fs => (fs, ctx)
  | (fs, ctx), .loadResources => (fs, (kmodLoadResources fs ctx).2)
  | (fs, ctx), .unloadResources => (fs, kmodUnloadResources ctx)

/-- A run, from the files and the context at first. -/
def run (events : List Event) (s : FileSystem × ResourceCtx) : FileSystem × ResourceCtx :=
  events.foldl step s

/-! ## What lookups see of it -/

/-- The context as lookups see it. -/
def ResourceCtx.kctx (host : Host) (fs : FileSystem) (ctx : ResourceCtx) : KmodCtx where
  host := host
  indexes := ctx.indexes
  file := fun type => fs.read (indexPath ctx.dirname type)
  file_err := by
    intro type err h
    unfold FileSystem.read at h
    cases hst : fs.inode (indexPath ctx.dirname type) with
    | error e =>
      rw [hst] at h
      exact Except.error.inj h ▸ fs.inode_err _ _ hst
    | ok st =>
      rw [hst] at h
      exact st.read_err _ h

variable {host : Host} {fs : FileSystem}

theorem indexMmOpenPath_snd (ctx : ResourceCtx) (type : KmodIndex) :
    (ctx.kctx host fs).openMm type
      = (indexMmOpenPath fs (indexPath ctx.dirname type)).map Prod.snd := by
  show (fs.inode (indexPath ctx.dirname type) >>= Inode.read) >>= indexMmOpen = _
  unfold indexMmOpenPath
  cases fs.inode (indexPath ctx.dirname type) with
  | error err => rfl
  | ok st =>
    show st.read >>= indexMmOpen = Except.map Prod.snd (st.read >>= fun file => _)
    cases st.read with
    | error err => rfl
    | ok file =>
      show indexMmOpen file = Except.map Prod.snd (indexMmOpen file >>= fun idx => _)
      cases indexMmOpen file with
      | error err => rfl
      | ok idx => rfl

/-- Loading is what lookups take it for. -/
theorem loadIndexes_kctx (fs : FileSystem) (is : List KmodIndex) : ∀ ctx : ResourceCtx,
    (loadIndexes fs is ctx).1 = (Kmod.loadIndexes is (ctx.kctx host fs)).1 ∧
      (loadIndexes fs is ctx).2.kctx host fs = (Kmod.loadIndexes is (ctx.kctx host fs)).2 := by
  induction is with
  | nil => exact fun ctx => ⟨rfl, rfl⟩
  | cons i is ih =>
    intro ctx
    unfold loadIndexes Kmod.loadIndexes
    rw [indexMmOpenPath_snd, show (ctx.kctx host fs).indexes i = ctx.indexes i from rfl]
    cases ctx.indexes i with
    | some _ => exact ih ctx
    | none =>
      cases indexMmOpenPath fs (indexPath ctx.dirname i) with
      | ok p => exact ih _
      | error err =>
        dsimp only [Except.map]
        split
        · exact ih ctx
        · exact ⟨rfl, rfl⟩

theorem kmodLoadResources_kctx (ctx : ResourceCtx) :
    (kmodLoadResources fs ctx).1 = (Kmod.kmodLoadResources (ctx.kctx host fs)).1 ∧
      (kmodLoadResources fs ctx).2.kctx host fs = (Kmod.kmodLoadResources (ctx.kctx host fs)).2 := by
  obtain ⟨hret, hctx⟩ := loadIndexes_kctx fs KmodIndex.all ctx
  unfold kmodLoadResources Kmod.kmodLoadResources
  dsimp only
  rw [← hret, ← hctx]
  split
  · exact ⟨rfl, rfl⟩
  · exact ⟨rfl, rfl⟩

/-! ## What is cached -/

/-- The index was mapped from a file that was there, and has its stamp. -/
def CachedFrom (fs : FileSystem) (path : CStr) (stamp : UInt64) (idx : IndexMm) : Prop :=
  ∃ st, fs.inode path = .ok st ∧ statMstamp st = stamp ∧ (st.read >>= indexMmOpen) = .ok idx

/-- **The invariant**, given the file systems that there have been. -/
structure Cached (seen : List FileSystem) (ctx : ResourceCtx) : Prop where
  index : ∀ i idx, ctx.indexes i = some idx →
    ∃ fs ∈ seen, CachedFrom fs (indexPath ctx.dirname i) (ctx.indexesStamp i) idx

theorem cachedFrom_of_open {path : CStr} {stamp : UInt64} {idx : IndexMm}
    (h : indexMmOpenPath fs path = .ok (stamp, idx)) : CachedFrom fs path stamp idx := by
  unfold indexMmOpenPath at h
  cases hst : fs.inode path with
  | error err =>
    rw [hst] at h
    exact absurd h (by simp [bind, Except.bind])
  | ok st =>
    rw [hst, ok_bind] at h
    cases hread : st.read with
    | error err =>
      rw [hread] at h
      exact absurd h (by simp [bind, Except.bind])
    | ok file =>
      rw [hread, ok_bind] at h
      cases hidx : indexMmOpen file with
      | error err =>
        rw [hidx] at h
        exact absurd h (by simp [bind, Except.bind])
      | ok idx' =>
        rw [hidx, ok_bind] at h
        obtain ⟨rfl, rfl⟩ := Prod.mk.inj (Except.ok.inj h)
        exact ⟨st, hst, rfl, by rw [hread, ok_bind, hidx]⟩

theorem Cached.loadIndexes {seen : List FileSystem} (hfs : fs ∈ seen) (is : List KmodIndex) :
    ∀ {ctx : ResourceCtx}, Cached seen ctx → Cached seen (loadIndexes fs is ctx).2 := by
  induction is with
  | nil => exact fun h => h
  | cons i is ih =>
    intro ctx h
    unfold Resources.loadIndexes
    cases hidx : ctx.indexes i with
    | some _ => exact ih h
    | none =>
      cases hopen : indexMmOpenPath fs (indexPath ctx.dirname i) with
      | ok p =>
        refine ih ⟨fun j idx hj => ?_⟩
        replace hj : Function.update ctx.indexes i (some p.2) j = some idx := hj
        show ∃ fs ∈ seen, CachedFrom fs (indexPath ctx.dirname j)
          (Function.update ctx.indexesStamp i p.1 j) idx
        by_cases hji : j = i
        · subst hji
          rw [Function.update_self] at hj ⊢
          exact ⟨fs, hfs, Option.some.inj hj ▸ cachedFrom_of_open hopen⟩
        · rw [Function.update_of_ne hji] at hj ⊢
          exact h.index j idx hj
      | error err =>
        dsimp only
        split
        · exact ih h
        · exact h

theorem Cached.unload {seen : List FileSystem} (ctx : ResourceCtx) :
    Cached seen (kmodUnloadResources ctx) :=
  ⟨fun _ _ h => absurd h (by simp [kmodUnloadResources])⟩

theorem Cached.load {seen : List FileSystem} (hfs : fs ∈ seen) {ctx : ResourceCtx}
    (h : Cached seen ctx) : Cached seen (kmodLoadResources fs ctx).2 := by
  unfold kmodLoadResources
  dsimp only
  split
  · exact Cached.unload _
  · exact h.loadIndexes hfs KmodIndex.all

/-! ## Runs -/

/-- The file systems that there are in a run. -/
def seen (fs : FileSystem) (events : List Event) : List FileSystem :=
  fs :: events.filterMap (fun e => match e with | .change fs => some fs | _ => none)

/-- What a run keeps. -/
structure Kept (seen : List FileSystem) (dirname : CStr) (paths : List (CStr × UInt64))
    (s : FileSystem × ResourceCtx) : Prop where
  there : s.1 ∈ seen
  cached : Cached seen s.2
  dirname_eq : s.2.dirname = dirname
  paths_eq : s.2.paths = paths

theorem loadIndexes_fields (fs : FileSystem) (is : List KmodIndex) : ∀ ctx : ResourceCtx,
    (loadIndexes fs is ctx).2.dirname = ctx.dirname ∧
      (loadIndexes fs is ctx).2.paths = ctx.paths := by
  induction is with
  | nil => exact fun ctx => ⟨rfl, rfl⟩
  | cons i is ih =>
    intro ctx
    unfold loadIndexes
    cases ctx.indexes i with
    | some _ => exact ih ctx
    | none =>
      cases indexMmOpenPath fs (indexPath ctx.dirname i) with
      | ok p => exact ih _
      | error err =>
        dsimp only
        split
        · exact ih ctx
        · exact ⟨rfl, rfl⟩

theorem kmodLoadResources_fields (fs : FileSystem) (ctx : ResourceCtx) :
    (kmodLoadResources fs ctx).2.dirname = ctx.dirname ∧
      (kmodLoadResources fs ctx).2.paths = ctx.paths := by
  have h := loadIndexes_fields fs KmodIndex.all ctx
  unfold kmodLoadResources
  dsimp only
  split
  · exact h
  · exact h

/-- One event. -/
theorem Kept.step {seen : List FileSystem} {dirname : CStr} {paths : List (CStr × UInt64)}
    {s : FileSystem × ResourceCtx} (h : Kept seen dirname paths s) (e : Event)
    (he : ∀ fs, e = .change fs → fs ∈ seen) : Kept seen dirname paths (step s e) := by
  cases e with
  | change fs => exact { h with there := he fs rfl }
  | loadResources =>
    obtain ⟨hdirname, hpaths⟩ := kmodLoadResources_fields s.1 s.2
    exact ⟨h.there, h.cached.load h.there, hdirname.trans h.dirname_eq, hpaths.trans h.paths_eq⟩
  | unloadResources => exact { h with cached := Cached.unload _ }

/-- **A run** from a new context. -/
theorem kept_run (fs : FileSystem) (dirname : CStr) (configPaths : List CStr)
    (events : List Event) :
    Kept (seen fs events) dirname (kmodNew fs dirname configPaths).paths
      (run events (fs, kmodNew fs dirname configPaths)) := by
  have hrun : ∀ (events : List Event) {all : List FileSystem} {s : FileSystem × ResourceCtx},
      Kept all dirname (kmodNew fs dirname configPaths).paths s →
      (∀ fs, Event.change fs ∈ events → fs ∈ all) →
      Kept all dirname (kmodNew fs dirname configPaths).paths (run events s) := by
    intro events
    induction events with
    | nil => exact fun h _ => h
    | cons e events ih =>
      intro all s h hall
      exact ih (h.step e (fun fs' he => hall fs' (he ▸ List.mem_cons_self ..)))
        (fun fs' hfs' => hall fs' (List.mem_cons_of_mem _ hfs'))
  refine hrun events ⟨List.mem_cons_self .., ⟨fun _ _ h => absurd h (by simp [kmodNew])⟩, rfl, rfl⟩
    (fun fs' hfs' => List.mem_cons_of_mem _ (List.mem_filterMap.mpr ⟨_, hfs', rfl⟩))

/-! ## Validation -/

theorem isCacheInvalid_eq_false {path : CStr} {stamp : UInt64} :
    isCacheInvalid fs path stamp = false ↔
      ∃ st, fs.inode path = .ok st ∧ statMstamp st = stamp := by
  unfold isCacheInvalid
  cases fs.inode path with
  | error err => simp
  | ok st =>
    refine ⟨fun h => ⟨st, rfl, ?_⟩, ?_⟩
    · exact (not_not.mp (of_decide_eq_false h)).symm
    · rintro ⟨st', hst, rfl⟩
      rw [← Except.ok.inj hst]
      simp

/-- Nothing is to be reloaded if and only if the stamps of the mapped indexes are those of the
files. -/
theorem validate_indexes {ctx : ResourceCtx} :
    KmodIndex.all.any (fun i => (ctx.indexes i).isSome &&
        isCacheInvalid fs (indexPath ctx.dirname i) (ctx.indexesStamp i)) = false ↔
      ∀ i idx, ctx.indexes i = some idx →
        isCacheInvalid fs (indexPath ctx.dirname i) (ctx.indexesStamp i) = false := by
  rw [List.any_eq_false]
  refine ⟨fun h i idx hidx => ?_, fun h i _ hboth => ?_⟩
  · have hi := h i (by cases i <;> decide)
    rw [hidx] at hi
    simpa using hi
  · obtain ⟨hsome, hinvalid⟩ := Bool.and_eq_true_iff.mp hboth
    obtain ⟨idx, hidx⟩ := Option.isSome_iff_exists.mp hsome
    rw [h i idx hidx] at hinvalid
    exact absurd hinvalid (by decide)

/-- One time of modification, one content. -/
def Honest (seen : List FileSystem) (dirname : CStr) : Prop :=
  ∀ fs ∈ seen, ∀ fs' ∈ seen, ∀ i st st', fs.inode (indexPath dirname i) = .ok st →
    fs'.inode (indexPath dirname i) = .ok st' → statMstamp st = statMstamp st' → st.read = st'.read

/-- **With valid stamps** every mapped index is the file as it is now. -/
theorem Kept.opened {seen : List FileSystem} {dirname : CStr} {paths : List (CStr × UInt64)}
    {ctx : ResourceCtx} (h : Kept seen dirname paths (fs, ctx)) (hhonest : Honest seen dirname)
    (hvalid : ∀ i idx, ctx.indexes i = some idx →
      isCacheInvalid fs (indexPath ctx.dirname i) (ctx.indexesStamp i) = false) :
    Opened (ctx.kctx host fs) := by
  intro i idx hidx
  replace hidx : ctx.indexes i = some idx := hidx
  obtain ⟨fs', hfs', st', hst', hstamp', hopen⟩ := h.cached.index i idx hidx
  obtain ⟨st, hst, hstamp⟩ := isCacheInvalid_eq_false.mp (hvalid i idx hidx)
  have hdirname : ctx.dirname = dirname := h.dirname_eq
  have hsame : st'.read = st.read := hhonest fs' hfs' fs h.there i st' st (hdirname ▸ hst')
    (hdirname ▸ hst) (hstamp'.trans hstamp.symm)
  show (fs.inode (indexPath ctx.dirname i) >>= Inode.read) >>= indexMmOpen = .ok idx
  rw [hst, ok_bind, ← hsame]
  exact hopen

theorem validate_eq_ok {ctx : ResourceCtx} (h : kmodValidateResources fs ctx = .ok) :
    ∀ i idx, ctx.indexes i = some idx →
      isCacheInvalid fs (indexPath ctx.dirname i) (ctx.indexesStamp i) = false := by
  refine validate_indexes.mp ?_
  unfold kmodValidateResources at h
  split at h
  · exact absurd h (by simp)
  · split at h
    · exact absurd h (by simp)
    · next hany => simpa using hany

/-- When the context has to be created again: a path it was configured from is gone, or has been
modified. -/
theorem validate_mustRecreate {ctx : ResourceCtx} {fs₀ : FileSystem} {dirname : CStr}
    {configPaths : List CStr} (hpaths : ctx.paths = (kmodNew fs₀ dirname configPaths).paths) :
    kmodValidateResources fs ctx = .mustRecreate ↔
      ∃ path ∈ configPaths, ∃ st, fs₀.inode path = .ok st ∧ st.listed = true ∧
        ∀ st', fs.inode path = .ok st' → statMstamp st' ≠ statMstamp st := by
  have hany : kmodValidateResources fs ctx = .mustRecreate ↔
      ctx.paths.any (fun cf => isCacheInvalid fs cf.1 cf.2) = true := by
    unfold kmodValidateResources
    split
    · next h => simp [h]
    · next h => split <;> simp [h]
  have hgone : ∀ {path : CStr} {stamp : UInt64}, isCacheInvalid fs path stamp = true ↔
      ∀ st', fs.inode path = .ok st' → statMstamp st' ≠ stamp := by
    intro path stamp
    rw [← Bool.not_eq_false, isCacheInvalid_eq_false]
    simp
  rw [hany, hpaths, List.any_eq_true]
  constructor
  · rintro ⟨⟨path, stamp⟩, hmem, hinvalid⟩
    obtain ⟨path', hpath', hentry⟩ := List.mem_filterMap.mp hmem
    cases hst : fs₀.inode path' with
    | error err =>
      rw [hst] at hentry
      exact absurd hentry (by simp)
    | ok st =>
      rw [hst] at hentry
      dsimp only at hentry
      split at hentry
      · next hlisted =>
        obtain ⟨rfl, rfl⟩ := Prod.mk.inj (Option.some.inj hentry)
        exact ⟨path', hpath', st, hst, hlisted, hgone.mp hinvalid⟩
      · exact absurd hentry (by simp)
  · rintro ⟨path, hpath, st, hst, hlisted, hst'⟩
    refine ⟨(path, statMstamp st), List.mem_filterMap.mpr ⟨path, hpath, ?_⟩, hgone.mpr hst'⟩
    rw [hst]
    exact if_pos hlisted

/-- Loading everything again makes the indexes valid. -/
theorem validate_reloaded {ctx ctx' : ResourceCtx}
    (hreload : kmodValidateResources fs ctx = .mustReload)
    (hload : kmodLoadResources fs (kmodUnloadResources ctx) = (0, ctx')) :
    kmodValidateResources fs ctx' = .ok := by
  have hcached : Cached [fs] ctx' := by
    have hunloaded : Cached [fs] (kmodUnloadResources ctx) := Cached.unload ctx
    have hloaded := hunloaded.load (List.mem_singleton.mpr rfl)
    rw [hload] at hloaded
    exact hloaded
  have hpaths : ctx'.paths = ctx.paths := by
    have := (kmodLoadResources_fields fs (kmodUnloadResources ctx)).2
    rw [hload] at this
    exact this
  have hvalid : ∀ i idx, ctx'.indexes i = some idx →
      isCacheInvalid fs (indexPath ctx'.dirname i) (ctx'.indexesStamp i) = false := by
    intro i idx hidx
    obtain ⟨fs', hfs', st, hst, hstamp, -⟩ := hcached.index i idx hidx
    rw [List.mem_singleton.mp hfs'] at hst
    exact isCacheInvalid_eq_false.mpr ⟨st, hst, hstamp⟩
  have hconfig : ctx.paths.any (fun cf => isCacheInvalid fs cf.1 cf.2) = false := by
    unfold kmodValidateResources at hreload
    split at hreload
    · exact absurd hreload (by simp)
    · next h => simpa using h
  unfold kmodValidateResources
  rw [hpaths, hconfig, validate_indexes.mpr hvalid]
  rfl

/-! ## What lookups answer -/

/-- The index files that are there now: each written from some entries, or it cannot be read. -/
def Files (fs : FileSystem) (dirname : CStr) (inst : Installed) : Prop :=
  ∀ i, match inst i with
    | none => ∃ err, fs.read (indexPath dirname i) = .error err
    | some es => (∀ e ∈ es, e.Clean) ∧ ∃ root, insertEntries indexCreate es = .ok root ∧
        (indexWrite root).length < 2 ^ 28 ∧ fs.read (indexPath dirname i) = .ok (indexWrite root)

theorem serves_of_files {ctx : ResourceCtx} {inst : Installed} (h : Files fs ctx.dirname inst)
    (hopened : Opened (ctx.kctx host fs)) (i : KmodIndex) : Serves (ctx.kctx host fs) i (inst i) := by
  have hi := h i
  cases hinst : inst i with
  | none =>
    rw [hinst] at hi
    obtain ⟨err, herr⟩ := hi
    refine .absent ?_ (show (ctx.kctx host fs).file i = .error err from herr)
    cases hidx : (ctx.kctx host fs).indexes i with
    | none => rfl
    | some idx =>
      have hopen := hopened i idx hidx
      unfold KmodCtx.openMm at hopen
      rw [show (ctx.kctx host fs).file i = .error err from herr] at hopen
      exact absurd hopen (by simp [bind, Except.bind])
  | some es =>
    rw [hinst] at hi
    obtain ⟨hclean, root, hroot, hsize, hread⟩ := hi
    exact serves_of_written hclean hroot hsize hread hopened

/--
**Validation in every run.** If a time of modification always stands for one content, then
`KMOD_RESOURCES_OK` means that lookups, however many and with loadings and unloadings in between,
give the answers of a new context, as long as the lookups are `Unambiguous`: a mapped index and one
that is streamed order values of one priority differently. `KMOD_RESOURCES_MUST_RELOAD` is answered
by loading again. And `KMOD_RESOURCES_MUST_RECREATE` comes up if and only if a path that the context
was configured from has gone or has been modified since; one that was not there then is not looked
at.
-/
theorem kmodValidateResources_coherent {fs₀ : FileSystem} {dirname : CStr}
    {configPaths : List CStr} {events : List Event} (hhonest : Honest (seen fs₀ events) dirname)
    {ctx : ResourceCtx} (hrun : run events (fs₀, kmodNew fs₀ dirname configPaths) = (fs, ctx)) :
    (kmodValidateResources fs ctx = .ok → ∀ (inst : Installed), Files fs dirname inst →
      ∀ (calls : List LookupCall) (host : Host) (mctx : ModuleCtx) (config : KmodConfig)
        (fnmatch : CStr → CStr → Bool) (mods : Mods), Sane mods.pool →
        (∀ call ∈ calls, Unambiguous fnmatch inst call) → ∃ answers bound, ∀ fuel ≥ bound,
          (runCalls fuel calls ⟨ctx.kctx host fs, mctx, config, fnmatch⟩ mods).map Prod.fst
            = .ok answers ∧
          (runCalls fuel calls
            ⟨(kmodNew fs dirname configPaths).kctx host fs, mctx, config, fnmatch⟩ mods).map
              Prod.fst = .ok answers) ∧
    (kmodValidateResources fs ctx = .mustReload → ∀ ctx',
      kmodLoadResources fs (kmodUnloadResources ctx) = (0, ctx') →
        kmodValidateResources fs ctx' = .ok) ∧
    (kmodValidateResources fs ctx = .mustRecreate ↔
      ∃ path ∈ configPaths, ∃ st, fs₀.inode path = .ok st ∧ st.listed = true ∧
        ∀ st', fs.inode path = .ok st' → statMstamp st' ≠ statMstamp st) := by
  have hkept := kept_run fs₀ dirname configPaths events
  rw [hrun] at hkept
  refine ⟨fun hok inst hfiles calls host mctx config fnmatch mods hsane hclear => ?_,
    fun hreload ctx' hload => validate_reloaded hreload hload,
    validate_mustRecreate hkept.paths_eq⟩
  obtain ⟨resolve, -, hresolve⟩ := runCalls_resolves config fnmatch inst
  have hanswers : ∀ ctx' : ResourceCtx, ctx'.dirname = dirname → Opened (ctx'.kctx host fs) →
      ∃ bound, ∀ fuel ≥ bound,
        (runCalls fuel calls ⟨ctx'.kctx host fs, mctx, config, fnmatch⟩ mods).map Prod.fst
          = .ok (calls.filterMap resolve) := by
    intro ctx' hdirname hopened
    subst hdirname
    obtain ⟨_, _, bound, -, -, -, hruns⟩ := hresolve calls
      ⟨ctx'.kctx host fs, mctx, config, fnmatch⟩ mods rfl rfl (serves_of_files hfiles hopened)
      hopened hsane hclear
    exact ⟨bound, fun fuel hfuel => congrArg (Except.map Prod.fst) (hruns fuel hfuel)⟩
  obtain ⟨bound, hcached⟩ := hanswers ctx hkept.dirname_eq
    (hkept.opened hhonest (validate_eq_ok hok))
  obtain ⟨bound', hnew⟩ := hanswers (kmodNew fs dirname configPaths) rfl
    (fun _ _ h => absurd h (by simp [kmodNew, ResourceCtx.kctx]))
  exact ⟨_, max bound bound', fun fuel hfuel => ⟨hcached fuel (le_of_max_le_left hfuel),
    hnew fuel (le_of_max_le_right hfuel)⟩⟩

/-- The bytes of a small index. -/
def smallIndex : List UInt8 :=
  match insertEntries indexCreate [⟨cstr "pci:v1", cstr "foo", 0⟩] with
  | .ok root => indexWrite root
  | .error _ => []

/-- A directory in which every file was modified in this second. -/
def filesAt (second : UInt64) : FileSystem where
  inode := fun _ => .ok ⟨(second, 0), true, .ok smallIndex, fun _ h => absurd h (by simp)⟩
  inode_err := fun _ _ h => absurd h (by simp)

/-- The files are touched, and everything has to be loaded again. -/
theorem kmodValidateResources_touched : ∃ ctx ctx',
    run [.loadResources, .change (filesAt 2)] (filesAt 1, kmodNew (filesAt 1) (cstr "/m") [])
      = (filesAt 2, ctx) ∧
    kmodValidateResources (filesAt 1) ctx = .ok ∧
    kmodValidateResources (filesAt 2) ctx = .mustReload ∧
    kmodLoadResources (filesAt 2) (kmodUnloadResources ctx) = (0, ctx') ∧
    kmodValidateResources (filesAt 2) ctx' = .ok := by
  have hhonest : Honest (seen (filesAt 1) [.loadResources, .change (filesAt 2)]) (cstr "/m") := by
    have hfiles : ∀ fs ∈ seen (filesAt 1) [.loadResources, .change (filesAt 2)],
        ∃ second, fs = filesAt second := by
      intro fs hfs
      rcases List.mem_cons.mp hfs with rfl | hfs
      · exact ⟨1, rfl⟩
      · exact ⟨2, List.mem_singleton.mp hfs⟩
    intro fs hfs fs' hfs' i st st' hst hst' _
    obtain ⟨second, rfl⟩ := hfiles fs hfs
    obtain ⟨second', rfl⟩ := hfiles fs' hfs'
    rw [← Except.ok.inj hst, ← Except.ok.inj hst']
  have hrun : run [.loadResources, .change (filesAt 2)]
      (filesAt 1, kmodNew (filesAt 1) (cstr "/m") []) = (filesAt 2, _) := rfl
  obtain ⟨-, hreload, -⟩ := kmodValidateResources_coherent hhonest hrun
  have hmust : kmodValidateResources (filesAt 2) (kmodLoadResources (filesAt 1)
      (kmodNew (filesAt 1) (cstr "/m") [])).2 = .mustReload := by decide +kernel
  have hload : (kmodLoadResources (filesAt 2) (kmodUnloadResources (kmodLoadResources (filesAt 1)
      (kmodNew (filesAt 1) (cstr "/m") [])).2)).1 = 0 := by decide +kernel
  exact ⟨_, _, rfl, by decide +kernel, hmust, Prod.ext hload rfl,
    hreload hmust _ (Prod.ext hload rfl)⟩

end Kmod.Resources
