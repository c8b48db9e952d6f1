import Kmod.Index.Read

/-!
# The indexes of a library context

A context may have its index files mapped (`kmod_load_resources`); every lookup
uses the mapping if there is one and else opens the file and reads it as a
stream.
-/

namespace Kmod

open Index

/-- `enum kmod_index`. -/
inductive KmodIndex where
  | modulesDep
  | modulesAlias
  | modulesSymbol
  | modulesBuiltinAlias
  | modulesBuiltin
  deriving DecidableEq, Repr

/-- All of them, in order. -/
def KmodIndex.all : List KmodIndex :=
  [.modulesDep, .modulesAlias, .modulesSymbol, .modulesBuiltinAlias, .modulesBuiltin]

/-- The field `alias_prefix` of `index_files`. -/
def KmodIndex.aliasPrefix : KmodIndex → Bool
  | .modulesAlias | .modulesSymbol => true
  | _ => false

/-- What a lookup uses of a `struct kmod_ctx`. -/
structure KmodCtx where
  /-- The machine it is on. -/
  host : Host
  /-- The mapped indexes. -/
  indexes : KmodIndex → Option IndexMm
  /-- What is in the file of an index in the context's directory, or why it cannot be opened. -/
  file : KmodIndex → Except Int (List UInt8)
  /-- The reason is a negative error number. -/
  file_err : ∀ type err, file type = .error err → err < 0

/-- `index_mm_open` of the file of an index. -/
def KmodCtx.openMm (ctx : KmodCtx) (type : KmodIndex) : Except Int IndexMm := do
  indexMmOpen (← ctx.file type)

/-- `index_file_open` of the file of an index. -/
def KmodCtx.openFile (ctx : KmodCtx) (type : KmodIndex) : Option IndexFile :=
  match ctx.file type with
  | .error _ => none
  | .ok file => indexFileOpen file

/-- The loop of `kmod_load_resources`. -/
def loadIndexes : List KmodIndex → KmodCtx → Int × KmodCtx
  | [], ctx => (0, ctx)
  | type :: types, ctx =>
    match ctx.indexes type with
    | some _ => loadIndexes types ctx
    | none =>
      match ctx.openMm type with
      | .ok idx =>
        loadIndexes types { ctx with indexes := Function.update ctx.indexes type (some idx) }
      | .error err =>
        -- `modules.builtin.alias` is optional
        if type = .modulesBuiltinAlias then loadIndexes types ctx else (err, ctx)

/-- `kmod_unload_resources`. -/
def kmodUnloadResources (ctx : KmodCtx) : KmodCtx := { ctx with indexes := fun _ => none }

/-- `kmod_load_resources`: what it returns, and the context it leaves. -/
def kmodLoadResources (ctx : KmodCtx) : Int × KmodCtx :=
  let (ret, ctx) := loadIndexes KmodIndex.all ctx
  if ret ≠ 0 then (ret, kmodUnloadResources ctx) else (ret, ctx)

/-- `lookup_file`. -/
def lookupFile (ctx : KmodCtx) (type : KmodIndex) (name : CStr) : Except Fault (Option CStr) :=
  match ctx.indexes type with
  | some idx => indexMmSearch ctx.host idx name
  | none =>
    match ctx.openFile type with
    | none => .ok none
    | some idx => indexSearch ctx.host idx name

/-- `kmod_search_moddep`. -/
def kmodSearchModdep (ctx : KmodCtx) (name : CStr) : Except Fault (Option CStr) :=
  lookupFile ctx .modulesDep name

/-- `kmod_module_new_from_alias`: the name under which the context keeps the module. -/
def kmodModuleNewFromAlias (aliasName name : CStr) : Except Int CStr :=
  if name.length + aliasName.length + 2 > PATH_MAX then .error (-ENAMETOOLONG)
  else .ok (name ++ cstr "\\" ++ aliasName)

/--
`kmod_lookup_alias_from_alias_bin`: the modules in the order in which they are
listed, or a negative error number.
-/
def kmodLookupAliasFromAliasBin (fnmatch : CStr → CStr → Bool) (fuel : Nat) (ctx : KmodCtx)
    (type : KmodIndex) (name : CStr) : Except Fault (Except Int (List CStr)) :=
  match ctx.indexes type with
  | some idx => do
    let realnames ← indexMmSearchwild ctx.host fnmatch fuel idx name
    .ok (realnames.mapM (fun v => kmodModuleNewFromAlias name v.value))
  | none =>
    match ctx.openFile type with
    | none => .ok (.error (-ENOSYS))
    | some idx => do
      let realnames ← indexSearchwild ctx.host fnmatch fuel idx name
      .ok (realnames.mapM (fun v => kmodModuleNewFromAlias name v.value))

/-- `kmod_dump_index`: what it returns, and the bytes written. -/
def kmodDumpIndex (fuel : Nat) (ctx : KmodCtx) (type : KmodIndex) :
    Except Fault (Int × List UInt8) :=
  match ctx.indexes type with
  | some idx => do
    let out ← indexMmDump fuel idx type.aliasPrefix
    .ok (0, out)
  | none =>
    match ctx.openFile type with
    | none => .ok (-ENOSYS, [])
    | some idx => do
      let out ← indexDump fuel idx type.aliasPrefix
      .ok (0, out)

/-! ## Loading -/

theorem indexMmOpen_err {file : List UInt8} {err : Int} (h : indexMmOpen file = .error err) :
    err < 0 := by
  have hall : err = -EINVAL := by
    unfold indexMmOpen at h
    split at h
    · exact (Except.error.inj h).symm
    · repeat' split at h
      all_goals first
        | exact (Except.error.inj h).symm
        | exact absurd h (by simp)
  rw [hall]
  decide

theorem openMm_err {ctx : KmodCtx} {type : KmodIndex} {err : Int}
    (h : ctx.openMm type = .error err) : err < 0 := by
  unfold KmodCtx.openMm at h
  cases hf : ctx.file type with
  | error e =>
    rw [hf] at h
    exact Except.error.inj h ▸ ctx.file_err type e hf
  | ok file =>
    rw [hf] at h
    exact indexMmOpen_err h

theorem loadIndexes_host (types : List KmodIndex) (ctx : KmodCtx) :
    (loadIndexes types ctx).2.host = ctx.host := by
  induction types generalizing ctx with
  | nil => rfl
  | cons t types ih =>
    unfold loadIndexes
    cases ctx.indexes t with
    | some _ => exact ih ctx
    | none =>
      cases ctx.openMm t with
      | ok idx => exact ih _
      | error err =>
        simp only
        split
        · exact ih ctx
        · rfl

theorem kmodLoadResources_host {ctx ctx' : KmodCtx} {ret : Int}
    (h : kmodLoadResources ctx = (ret, ctx')) : ctx'.host = ctx.host := by
  have hhost := loadIndexes_host KmodIndex.all ctx
  unfold kmodLoadResources at h
  simp only at h
  split at h
  · rw [← (Prod.mk.inj h).2]
    exact hhost
  · rw [← (Prod.mk.inj h).2]
    exact hhost

/-- Loading keeps the indexes that are loaded. -/
theorem loadIndexes_keep (types : List KmodIndex) {ctx : KmodCtx} {type : KmodIndex} {idx : IndexMm}
    (h : ctx.indexes type = some idx) : (loadIndexes types ctx).2.indexes type = some idx := by
  induction types generalizing ctx with
  | nil => exact h
  | cons t types ih =>
    unfold loadIndexes
    cases ht : ctx.indexes t with
    | some _ => exact ih h
    | none =>
      have hne : type ≠ t := fun he => by rw [he, ht] at h; exact absurd h (by simp)
      cases ctx.openMm t with
      | ok idx' =>
        refine ih ?_
        show Function.update ctx.indexes t (some idx') type = _
        rw [Function.update_of_ne hne]
        exact h
      | error err =>
        simp only
        split
        · exact ih h
        · exact h

/-- After a successful loading every index that can be opened is loaded. -/
theorem loadIndexes_loads {types : List KmodIndex} {ctx : KmodCtx} {type : KmodIndex}
    {idx : IndexMm}
    (hmem : type ∈ types) (hopen : ctx.openMm type = .ok idx) (hnone : ctx.indexes type = none)
    (hret : (loadIndexes types ctx).1 = 0) :
    (loadIndexes types ctx).2.indexes type = some idx := by
  induction types generalizing ctx with
  | nil => exact absurd hmem (by simp)
  | cons t types ih =>
    unfold loadIndexes at hret ⊢
    -- once loaded it stays, and the others do not touch it
    by_cases ht : t = type
    · subst ht
      rw [hnone, hopen]
      exact loadIndexes_keep types (Function.update_self ..)
    · have hmem' : type ∈ types := (List.mem_cons.mp hmem).resolve_left (Ne.symm ht)
      cases hidx : ctx.indexes t with
      | some _ =>
        rw [hidx] at hret
        exact ih hmem' hopen hnone hret
      | none =>
        rw [hidx] at hret
        cases ho : ctx.openMm t with
        | ok idx' =>
          rw [ho] at hret
          refine ih hmem' hopen ?_ hret
          show Function.update ctx.indexes t (some idx') type = _
          rw [Function.update_of_ne (Ne.symm ht)]
          exact hnone
        | error err =>
          rw [ho] at hret
          simp only at hret ⊢
          split
          · next hb =>
            rw [if_pos hb] at hret
            exact ih hmem' hopen hnone hret
          · next hb =>
            rw [if_neg hb] at hret
            have := openMm_err ho
            exact absurd hret (by simp only; omega)

/-- **After a successful `kmod_load_resources`** an index whose file can be opened is mapped. -/
theorem kmodLoadResources_loads {ctx ctx' : KmodCtx} {type : KmodIndex} {idx : IndexMm}
    (h : kmodLoadResources ctx = (0, ctx')) (hopen : ctx.openMm type = .ok idx)
    (hnone : ctx.indexes type = none) : ctx'.indexes type = some idx := by
  have hmem : type ∈ KmodIndex.all := by cases type <;> decide
  unfold kmodLoadResources at h
  by_cases hret : (loadIndexes KmodIndex.all ctx).1 = 0
  · simp only [hret, ne_eq, not_true_eq_false, if_false] at h
    rw [← (Prod.mk.inj h).2]
    exact loadIndexes_loads hmem hopen hnone hret
  · simp only [ne_eq, hret, not_false_eq_true, if_true] at h
    exact absurd (Prod.mk.inj h).1 hret

end Kmod
