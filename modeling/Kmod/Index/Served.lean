import Kmod.Index.Agree

/-!
# What a context answers from an index

A context either has an index mapped or reads its file as a stream, and the two readers may
list values of equal priority in different orders. What they agree on is said here once, in
terms of the entries that were inserted (`Serves`): a name is found if it was entered, and the
answer to a query are the values of the entries that match it, ordered by priority.

The indexes depmod makes from its modules have the position of the module as the priority. With
these even the order is determined (`Listed.unique`).
-/

namespace Kmod.Index

open Kmod

/-! ## Contents, up to the order of values -/

section Contents

variable {g : List IndexValue → List IndexValue} (hg : ∀ vs, (g vs).Perm vs)
include hg

/-- A reader that only reorders the values of a node shows the same contents. -/
theorem contents_perm_id : ∀ root : IndexNode, (root.contents g).Perm (root.contents id)
  | .null => .refl _
  | .node d children => by
    refine List.Perm.append ?_ ((hg d.values).map _)
    refine List.Perm.flatMap_left _ (fun c _ => ?_)
    exact (contents_perm_id (children c)).map _

/-- What the descent finds through such a reader. -/
theorem Contains.wildAt_perm_of {d : NodeData} {children : UInt8 → IndexNode} {es : List Entry}
    (hcont : Contains (.node d children) es) (fnmatch : CStr → CStr → Bool) {query : CStr}
    (hquery : WildFree query) :
    (addValues [] (wildAt g fnmatch query d.pfx d children)).Perm
      ((es.filter (fun e => keyMatches fnmatch e.key query)).map
        (fun e => ⟨e.priority, e.value⟩)) := by
  have hall : ((IndexNode.node d children).contents g).Perm (es.map Entry.content) :=
    (contents_perm_id hg _).trans hcont.contents_perm
  have hfilter := (hall.filter (fun e => keyMatches fnmatch e.1 query)).map Prod.snd
  rw [List.filter_map, List.map_map] at hfilter
  rw [addValues_eq]
  refine (Sorting.insertAll_perm [] _).trans ?_
  rw [List.append_nil]
  exact (Index.wildAt_perm g fnmatch query hquery d.pfx d children hcont.ok
    hcont.ok.node.pfx).trans hfilter

/-- The lines of a dump, one for each entry. -/
theorem dumpOf_lines : ∀ root : IndexNode, ∃ l : List (CStr × IndexValue),
    l.Perm (root.contents id) ∧
      ∀ buf, dumpOf g root buf = l.flatMap (fun e => dumpLine (buf ++ e.1) e.2)
  | .null => ⟨[], .refl _, fun _ => rfl⟩
  | .node d children => by
    choose lines hperm hlines using fun c => dumpOf_lines (children c)
    refine ⟨(g d.values).map (fun v => (d.pfx, v)) ++ (charsBetween d.first d.last).flatMap
      (fun c => (lines c).map (fun e => (d.pfx ++ c :: e.1, e.2))), ?_, fun buf => ?_⟩
    · refine List.perm_append_comm.trans (List.Perm.append ?_ ((hg d.values).map _))
      exact List.Perm.flatMap_left _ (fun c _ => (hperm c).map _)
    · rw [dumpOf, List.flatMap_append, List.flatMap_map, List.flatMap_assoc]
      refine congrArg (_ ++ ·) (List.flatMap_congr (fun c _ => ?_))
      rw [hlines, List.flatMap_map]
      refine List.flatMap_congr (fun e _ => ?_)
      simp

end Contents

theorem addValues_nil_perm (vs : List IndexValue) : (addValues [] vs).Perm vs := by
  rw [addValues_eq]
  exact (Sorting.insertAll_perm [] vs).trans (by rw [List.append_nil])

/-! ## The entries behind an index -/

/-- The file of an index: it cannot be opened, or it has been written from these entries; and the
context may have mapped it. -/
inductive Serves (ctx : KmodCtx) (type : KmodIndex) : Option (List Entry) → Prop where
  | absent {err : Int} : ctx.indexes type = none → ctx.file type = .error err →
      Serves ctx type none
  | written {es : List Entry} {root : IndexNode} {idx : IndexMm} : (∀ e ∈ es, e.Clean) →
      insertEntries indexCreate es = .ok root → (indexWrite root).length < 2 ^ 28 →
      ctx.file type = .ok (indexWrite root) → indexMmOpen (indexWrite root) = .ok idx →
      (ctx.indexes type = none ∨ ctx.indexes type = some idx) → Serves ctx type (some es)

/-- An exact lookup: a value that was entered under the key, unless there is none. -/
def Found (es : List Entry) (key : CStr) : Option CStr → Prop
  | none => ∀ e ∈ es, e.key ≠ key
  | some v => ∃ e ∈ es, e.key = key ∧ e.value = v

/-- A wildcard lookup: the values of the entries that match, ordered by priority. -/
structure Listed (fnmatch : CStr → CStr → Bool) (es : List Entry) (query : CStr)
    (out : List IndexValue) : Prop where
  perm : out.Perm ((es.filter (fun e => keyMatches fnmatch e.key query)).map
    (fun e => ⟨e.priority, e.value⟩))
  sorted : out.Pairwise (fun a b => a.priority ≤ b.priority)

theorem addValues_sorted (vs : List IndexValue) :
    (addValues [] vs).Pairwise (fun a b => a.priority ≤ b.priority) := by
  rw [addValues_eq]
  exact Sorting.insertAll_sorted (r := ByPriority) List.Pairwise.nil vs

theorem found_head {es : List Entry} {key : CStr} {vs : List IndexValue}
    (h : vs.Perm (entered es key)) : Found es key (vs.head?.map IndexValue.value) := by
  cases vs with
  | nil =>
    intro e he hkey
    have hin : (⟨e.priority, e.value⟩ : IndexValue) ∈ entered es key :=
      List.mem_map.mpr ⟨e, List.mem_filter.mpr ⟨he, by simpa using hkey⟩, rfl⟩
    exact absurd (h.mem_iff.mpr hin) List.not_mem_nil
  | cons v vs =>
    have hin : v ∈ entered es key := h.mem_iff.mp (List.mem_cons_self ..)
    obtain ⟨e, he, rfl⟩ := List.mem_map.mp hin
    obtain ⟨hmem, hkey⟩ := List.mem_filter.mp he
    exact ⟨e, hmem, of_decide_eq_true hkey, rfl⟩

/-- **An exact lookup finds what was entered**, mapped or not. -/
theorem Serves.lookupFile {ctx : KmodCtx} {type : KmodIndex} {es : List Entry}
    (h : Serves ctx type (some es)) (name : CStr) :
    ∃ res, lookupFile ctx type name = .ok res ∧ Found es name res := by
  cases h with
  | @written _ root idx hes hrun hlt hfile hopen hidx =>
    obtain ⟨root', hrun', hcont⟩ := insertEntries_contains hes
    obtain rfl := Except.ok.inj (hrun'.symm.trans hrun)
    cases root' with
    | null => exact absurd hcont.rooted (by simp [Rooted])
    | node d children =>
      have hperm : ((IndexNode.node d children).lookup name).Perm (entered es name) := by
        rw [hcont.lookup]
        exact addValues_nil_perm _
      unfold Kmod.lookupFile
      rcases hidx with hidx | hidx
      · obtain ⟨f, y, hf, hfsize, hfroot, hfshows⟩ := indexFileOpen_written hcont.ok hlt
        have hopenFile : ctx.openFile type = some f := by
          rw [KmodCtx.openFile, hfile]
          exact hf
        simp only [hidx, hopenFile, indexSearch, hfroot]
        rw [search_eq (fileReader_represents hfsize)
          (show ShowsRoot (FileNode f) (some y) d children from hfshows) name]
        exact ⟨_, rfl, found_head ((addValues_nil_perm _).trans hperm)⟩
      · obtain ⟨mm, x, hmm, hsize, hroot, hshows⟩ := indexMmOpen_written hcont.ok hlt
        obtain rfl := Except.ok.inj (hmm.symm.trans hopen)
        simp only [hidx, indexMmSearch, hroot]
        exact ⟨_, search_eq (mmReader_represents hsize) hshows name, found_head hperm⟩

/-- **A wildcard lookup lists what matches**, by priority, mapped or not. -/
theorem Serves.lookupAlias {ctx : KmodCtx} {type : KmodIndex} {es : List Entry}
    (h : Serves ctx type (some es)) (fnmatch : CStr → CStr → Bool) {name : CStr}
    (hname : ∀ c ∈ name, isWild c = false) :
    ∃ out bound, Listed fnmatch es name out ∧ ∀ fuel ≥ bound,
      kmodLookupAliasFromAliasBin fnmatch fuel ctx type name
        = .ok (out.mapM (fun v => kmodModuleNewFromAlias name v.value)) := by
  cases h with
  | @written _ root idx hes hrun hlt hfile hopen hidx =>
    obtain ⟨root', hrun', hcont⟩ := insertEntries_contains hes
    obtain rfl := Except.ok.inj (hrun'.symm.trans hrun)
    cases root' with
    | null => exact absurd hcont.rooted (by simp [Rooted])
    | node d children =>
      unfold kmodLookupAliasFromAliasBin
      rcases hidx with hidx | hidx
      · obtain ⟨f, y, hf, hfsize, hfroot, hfshows⟩ := indexFileOpen_written hcont.ok hlt
        have hopenFile : ctx.openFile type = some f := by
          rw [KmodCtx.openFile, hfile]
          exact hf
        refine ⟨addValues [] (wildAt (addValues []) fnmatch name d.pfx d children),
          (IndexNode.node d children).nodes + 128, ⟨hcont.wildAt_perm_of addValues_nil_perm fnmatch
            (wildFree_of_forall hname), addValues_sorted _⟩, fun fuel hfuel => ?_⟩
        have hsearch : searchwild ctx.host (fileReader f) fnmatch fuel (some y) name = _ :=
          searchwild_eq (fileReader_represents hfsize) fnmatch
            (show ShowsRoot (FileNode f) (some y) d children from hfshows) hfuel name
        simp only [hidx, hopenFile, indexSearchwild, hfroot, hsearch]
        rfl
      · obtain ⟨mm, x, hmm, hsize, hroot, hshows⟩ := indexMmOpen_written hcont.ok hlt
        obtain rfl := Except.ok.inj (hmm.symm.trans hopen)
        refine ⟨addValues [] (wildAt id fnmatch name d.pfx d children),
          (IndexNode.node d children).nodes + 128, ⟨hcont.wildAt_perm_of (fun _ => .refl _) fnmatch
            (wildFree_of_forall hname), addValues_sorted _⟩, fun fuel hfuel => ?_⟩
        have hsearch : (do
            let x ← Except.ok x
            searchwild ctx.host (mmReader mm) fnmatch fuel x name) = _ :=
          searchwild_eq (mmReader_represents hsize) fnmatch hshows hfuel name
        simp only [hidx, indexMmSearchwild, hroot, hsearch]
        rfl

/-- The line for an entry in a dump. -/
def shownLine (aliasPrefix : Bool) (e : CStr × CStr) : CStr :=
  (if aliasPrefix then cstr "alias " else []) ++ e.1 ++ cstr " " ++ e.2

/-- **A dump** has a line for each entry, mapped or not. -/
theorem Serves.dump {ctx : KmodCtx} {type : KmodIndex} {es : Option (List Entry)}
    (h : Serves ctx type es) :
    ∃ (shown : List (CStr × CStr)) (bound : Nat) (ret : Int),
      shown.Perm ((es.getD []).map (fun e => (e.key, e.value))) ∧ ∀ fuel ≥ bound,
        kmodDumpIndex fuel ctx type
          = .ok (ret, shown.flatMap (fun e => shownLine type.aliasPrefix e ++ cstr "\n")) := by
  cases h with
  | @absent err hnone herr =>
    refine ⟨[], 0, -ENOSYS, .refl _, fun fuel _ => ?_⟩
    unfold kmodDumpIndex KmodCtx.openFile
    rw [hnone, herr]
    rfl
  | @written es root idx hes hrun hlt hfile hopen hidx =>
    obtain ⟨root', hrun', hcont⟩ := insertEntries_contains hes
    obtain rfl := Except.ok.inj (hrun'.symm.trans hrun)
    cases root' with
    | null => exact absurd hcont.rooted (by simp [Rooted])
    | node d children =>
      have hshown : ∀ {g : List IndexValue → List IndexValue}, (∀ vs, (g vs).Perm vs) →
          ∃ shown : List (CStr × CStr), shown.Perm (es.map (fun e => (e.key, e.value))) ∧
            dumpOf g (.node d children) (if type.aliasPrefix then cstr "alias " else [])
              = shown.flatMap (fun e => shownLine type.aliasPrefix e ++ cstr "\n") := by
        intro g hg
        obtain ⟨l, hperm, hlines⟩ := dumpOf_lines hg (.node d children)
        refine ⟨l.map (fun e => (e.1, e.2.value)), ?_, ?_⟩
        · have := (hperm.trans hcont.contents_perm).map (fun e => (e.1, e.2.value))
          rw [List.map_map] at this
          exact this
        · rw [hlines, List.flatMap_map]
          rfl
      unfold kmodDumpIndex
      rcases hidx with hidx | hidx
      · obtain ⟨f, y, hf, hfsize, hfroot, hfshows⟩ := indexFileOpen_written hcont.ok hlt
        have hopenFile : ctx.openFile type = some f := by
          rw [KmodCtx.openFile, hfile]
          exact hf
        obtain ⟨shown, hperm, hout⟩ := hshown addValues_nil_perm
        refine ⟨shown, (IndexNode.node d children).nodes + 128, 0, hperm, fun fuel hfuel => ?_⟩
        have hdump := dump_eq (fileReader_represents hfsize)
          (show ShowsRoot (FileNode f) (some y) d children from hfshows) hfuel type.aliasPrefix
        simp only [hidx, hopenFile, indexDump, hfroot, hdump, hout]
        rfl
      · obtain ⟨mm, x, hmm, hsize, hroot, hshows⟩ := indexMmOpen_written hcont.ok hlt
        obtain rfl := Except.ok.inj (hmm.symm.trans hopen)
        obtain ⟨shown, hperm, hout⟩ := hshown (g := id) (fun _ => .refl _)
        refine ⟨shown, (IndexNode.node d children).nodes + 128, 0, hperm, fun fuel hfuel => ?_⟩
        have hdump := dump_eq (mmReader_represents hsize) hshows hfuel type.aliasPrefix
        simp only [hidx, indexMmDump, hroot, ok_bind, hdump, hout]

/-! ## Loading and unloading -/

/-- Every index that is mapped has been opened from its file. -/
def Opened (ctx : KmodCtx) : Prop :=
  ∀ type idx, ctx.indexes type = some idx → ctx.openMm type = .ok idx

theorem loadIndexes_opened (types : List KmodIndex) :
    ∀ {ctx : KmodCtx}, Opened ctx →
      Opened (loadIndexes types ctx).2 ∧ (loadIndexes types ctx).2.file = ctx.file := by
  induction types with
  | nil => exact fun h => ⟨h, rfl⟩
  | cons t types ih =>
    intro ctx h
    unfold loadIndexes
    cases ctx.indexes t with
    | some _ => exact ih h
    | none =>
      cases hopen : ctx.openMm t with
      | ok idx =>
        refine ih (fun type idx' hidx => ?_)
        replace hidx : Function.update ctx.indexes t (some idx) type = some idx' := hidx
        show ctx.openMm type = .ok idx'
        by_cases ht : type = t
        · subst ht
          rw [Function.update_self] at hidx
          exact hopen.trans (congrArg _ (Option.some.inj hidx))
        · rw [Function.update_of_ne ht] at hidx
          exact h type idx' hidx
      | error err =>
        simp only
        split
        · exact ih h
        · exact ⟨h, rfl⟩

theorem kmodUnloadResources_opened (ctx : KmodCtx) : Opened (kmodUnloadResources ctx) :=
  fun _ _ h => absurd h (by simp [kmodUnloadResources])

/-- Loading maps files as they are, whatever it returns. -/
theorem kmodLoadResources_opened {ctx : KmodCtx} (h : Opened ctx) :
    Opened (kmodLoadResources ctx).2 ∧ (kmodLoadResources ctx).2.file = ctx.file := by
  obtain ⟨hopened, hfile⟩ := loadIndexes_opened KmodIndex.all h
  unfold kmodLoadResources
  dsimp only
  split
  · exact ⟨kmodUnloadResources_opened _, hfile⟩
  · exact ⟨hopened, hfile⟩

/-- What an index serves is decided by its file. -/
theorem Serves.congr {ctx ctx' : KmodCtx} {type : KmodIndex} {es : Option (List Entry)}
    (h : Serves ctx type es) (hfile : ctx'.file = ctx.file) (hopened : Opened ctx') :
    Serves ctx' type es := by
  have hidx : ctx'.indexes type = none ∨ ∃ idx, ctx'.indexes type = some idx ∧
      (do indexMmOpen (← ctx.file type)) = Except.ok idx := by
    cases hidx : ctx'.indexes type with
    | none => exact .inl rfl
    | some idx =>
      refine .inr ⟨idx, rfl, ?_⟩
      rw [← hfile]
      exact hopened type idx hidx
  cases h with
  | @absent err _ herr =>
    refine @Serves.absent _ _ err ?_ (by rw [hfile, herr])
    rcases hidx with hidx | ⟨idx, _, hopen⟩
    · exact hidx
    · rw [herr] at hopen
      exact absurd hopen (by simp [bind, Except.bind])
  | written hes hrun hlt hf hopen _ =>
    refine .written hes hrun hlt (by rw [hfile, hf]) hopen ?_
    rcases hidx with hidx | ⟨idx', hidx, hopen'⟩
    · exact .inl hidx
    · rw [hf] at hopen'
      exact .inr (hidx.trans (congrArg some (Except.ok.inj (hopen'.symm.trans hopen))))

/-- A file that has been written from entries serves them, mapped or not. -/
theorem serves_of_written {ctx : KmodCtx} {type : KmodIndex} {es : List Entry} {root : IndexNode}
    (hes : ∀ e ∈ es, e.Clean) (hrun : insertEntries indexCreate es = .ok root)
    (hlt : (indexWrite root).length < 2 ^ 28) (hfile : ctx.file type = .ok (indexWrite root))
    (hopened : Opened ctx) : Serves ctx type (some es) := by
  obtain ⟨root', hrun', hcont⟩ := insertEntries_contains hes
  obtain rfl := Except.ok.inj (hrun'.symm.trans hrun)
  cases root' with
  | null => exact absurd hcont.rooted (by simp [Rooted])
  | node d children =>
    obtain ⟨idx, -, hopen, -⟩ := indexMmOpen_written hcont.ok hlt
    refine .written hes hrun hlt hfile hopen ?_
    cases hidx : ctx.indexes type with
    | none => exact .inl rfl
    | some idx' =>
      have hopen' : (ctx.file type >>= indexMmOpen) = Except.ok idx' := hopened type idx' hidx
      rw [hfile, ok_bind] at hopen'
      exact .inr (congrArg some (Except.ok.inj (hopen'.symm.trans hopen)))

/-! ## When the order is determined -/

/-- Entries that match are of one value if they are of one priority. -/
def Ranked (fnmatch : CStr → CStr → Bool) (es : List Entry) (query : CStr) : Prop :=
  ∀ e ∈ es, ∀ e' ∈ es, keyMatches fnmatch e.key query = true →
    keyMatches fnmatch e'.key query = true → e.priority = e'.priority → e.value = e'.value

/-- With these, there is one answer. -/
theorem Listed.unique {fnmatch : CStr → CStr → Bool} {es : List Entry} {query : CStr}
    {out out' : List IndexValue} (h : Listed fnmatch es query out)
    (h' : Listed fnmatch es query out') (hr : Ranked fnmatch es query) : out = out' := by
  have hentry : ∀ v ∈ out, ∃ e ∈ es, keyMatches fnmatch e.key query = true ∧
      v = ⟨e.priority, e.value⟩ := by
    intro v hv
    obtain ⟨e, he, rfl⟩ := List.mem_map.mp (h.perm.mem_iff.mp hv)
    exact ⟨e, (List.mem_filter.mp he).1, (List.mem_filter.mp he).2, rfl⟩
  have hperm : out.Perm out' := h.perm.trans h'.perm.symm
  refine hperm.eq_of_pairwise ?_ h.sorted h'.sorted
  intro v w hv hw hvw hwv
  obtain ⟨e, he, hm, rfl⟩ := hentry v hv
  obtain ⟨e', he', hm', rfl⟩ := hentry w (hperm.mem_iff.mpr hw)
  have hprio : e.priority = e'.priority := UInt32.le_antisymm hvw hwv
  simp only [IndexValue.mk.injEq]
  exact ⟨hprio, hr e he e' he' hm hm' hprio⟩

/-- If the entries are in the order of their priorities, so is the answer. -/
theorem Listed.of_ordered {fnmatch : CStr → CStr → Bool} {es : List Entry} {query : CStr}
    (h : es.Pairwise (fun a b => a.priority ≤ b.priority)) :
    Listed fnmatch es query ((es.filter (fun e => keyMatches fnmatch e.key query)).map
      (fun e => ⟨e.priority, e.value⟩)) :=
  ⟨.refl _, List.pairwise_map.mpr (h.filter _)⟩

end Kmod.Index
