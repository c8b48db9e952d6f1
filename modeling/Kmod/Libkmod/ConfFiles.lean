import Kmod.Shared.Strcmp
import Kmod.Libkmod.Depline
import Kmod.Libkmod.LinkedList

/-!
# The configuration files of libkmod

`kmod_config_new` collects the configuration files of a list of directories before it
parses any of them. They are kept in a list sorted by name, and a name that is there
already is ignored, so that the file of an earlier directory hides those of later ones.

The list is a `struct kmod_list`. What it holds in the end is said by `FirstWins`, which
leaves no choice, so the order in which `readdir` delivers names does not matter.
-/

namespace Kmod

open Rings SortedTable

/-! ## The model -/

/-- An entry of a directory; `isDir` is what `fstatat` says, if it does not fail. -/
structure DirEntry where
  name : CStr
  isDir : Option Bool
  deriving DecidableEq

/-- What `stat` and `opendir` say about a configured path, and what `readdir` delivers. -/
inductive ConfPathKind where
  | missing
  | file
  | unreadable
  | dir (entries : List DirEntry)
  deriving DecidableEq

structure ConfPath where
  path : CStr
  kind : ConfPathKind
  deriving DecidableEq

/-- What `conf_files_filter_out` and `cfg_files_filter_out` both compute. -/
def filterOut (entry : DirEntry) : Bool :=
  if entry.name.head? = some 46 then true
  else if entry.name.length < 6 ∨ entry.name.drop (entry.name.length - 5) ≠ cstr ".conf" then true
  else entry.isDir ≠ some false

/-- `conf_files_filter_out`. -/
def confFilesFilterOut (entry : DirEntry) : Bool := filterOut entry

/-- A `struct conf_file`. -/
structure ConfFile where
  path : CStr
  isSingle : Bool
  name : CStr
  deriving DecidableEq

/-- The loop of `conf_files_insert_sorted`: the node where it ends, and the last comparison. -/
def confFilesScan (heap : Heap ConfFile) (list : Nat) (name : CStr) :
    Nat → Nat → Except Fault (Option Nat × Int)
  | 0, _ => .error .outOfFuel
  | fuel + 1, lpos => do
    let x ← inBlock heap[lpos]?
    let cmp := strcmp name x.data.name
    if cmp ≤ 0 then .ok (some lpos, cmp)
    else do
      match ← kmodListNext heap list lpos with
      | none => .ok (none, cmp)
      | some lpos => confFilesScan heap list name fuel lpos

/--
`conf_files_insert_sorted`: the list and the memory. Its result, which says whether the
file was put in, is not looked at; the allocations succeed.
-/
def confFilesInsertSorted (heap : Heap ConfFile) (list : Option Nat) (path : CStr)
    (name : Option CStr) :
    Except Fault (Option Nat × Heap ConfFile) := do
  let isSingle := name.isNone
  let name := name.getD (basename path)
  let (lpos, cmp) ← (match list with
    | none => .ok (none, -1)
    | some first => confFilesScan heap first name heap.length first)
  if cmp = 0 then .ok (list, heap)
  else do
    let cf : ConfFile := ⟨path, isSingle, name⟩
    let (tmp, heap) ← (
      if lpos = none then kmodListAppend heap list cf
      else if lpos = list then kmodListPrepend heap list cf
      else kmodListInsertBefore heap lpos cf)
    .ok (if lpos = none ∨ lpos = list then some tmp else list, heap)

/-- The loop over the entries of a directory. -/
def confFilesListDir (path : CStr) :
    Heap ConfFile → Option Nat → List DirEntry → Except Fault (Option Nat × Heap ConfFile)
  | heap, list, [] => .ok (list, heap)
  | heap, list, entry :: entries =>
    if confFilesFilterOut entry then confFilesListDir path heap list entries
    else do
      let (list, heap) ← confFilesInsertSorted heap list path (some entry.name)
      confFilesListDir path heap list entries

/-- `conf_files_list`. -/
def confFilesList (heap : Heap ConfFile) (list : Option Nat) (p : ConfPath) :
    Except Fault (Option Nat × Heap ConfFile) :=
  match p.kind with
  | .missing => .ok (list, heap)
  | .file => confFilesInsertSorted heap list p.path none
  | .unreadable => .ok (list, heap)
  | .dir entries => confFilesListDir p.path heap list entries

/-- The loop of `kmod_config_new` over the configured paths. -/
def confFilesListAll : Heap ConfFile → Option Nat → List ConfPath →
    Except Fault (Option Nat × Heap ConfFile)
  | heap, list, [] => .ok (list, heap)
  | heap, list, p :: paths => do
    let (list, heap) ← confFilesList heap list p
    confFilesListAll heap list paths

/-- The file that is opened, unless its path is too long. -/
def ConfFile.parsed (cf : ConfFile) : Option CStr :=
  if cf.isSingle then some cf.path
  else if (cf.path ++ 47 :: cf.name).length ≥ PATH_MAX then none
  else some (cf.path ++ 47 :: cf.name)

/-- The loop of `kmod_config_new` that parses the files, one after the other. -/
def confFilesParse : Nat → Heap ConfFile → Option Nat → Except Fault (List CStr)
  | 0, _, _ => .error .outOfFuel
  | _ + 1, _, none => .ok []
  | fuel + 1, heap, some list => do
    let x ← inBlock heap[list]?
    let (next, heap) ← kmodListRemove heap (some list)
    let files ← confFilesParse fuel heap next
    .ok (x.data.parsed.toList ++ files)

/-- The files that `kmod_config_new` parses, in order. `dirname` is `kmod_get_dirname`. -/
def kmodConfigNew (dirname : CStr) (paths : List ConfPath) : Except Fault (List CStr) := do
  let (list, heap) ← confFilesInsertSorted [] none dirname (some (cstr "modules.softdep"))
  let (list, heap) ← confFilesInsertSorted heap list dirname (some (cstr "modules.weakdep"))
  let (list, heap) ← confFilesListAll heap list paths
  confFilesParse (heap.length + 1) heap list

/-! ## Insertion -/

section Insertion

variable {heap : Heap ConfFile} {list : Option Nat} {nodes : List Nat}
  {contents : List ConfFile} {first : Nat}

/-- The scan stops at the first name that is not smaller, if there is one. -/
theorem confFilesScan_cases (name : CStr) (after : List Nat) :
    ∀ (before : List Nat) (x : Nat) (cs : List ConfFile) (fuel : Nat),
      IsList heap (some first) (before ++ x :: after) contents → Holds heap (x :: after) cs →
      after.length < fuel →
      (∃ nu y nv u e v, x :: after = nu ++ y :: nv ∧ cs = u ++ e :: v ∧ Holds heap nu u ∧
          Holds heap (y :: nv) (e :: v) ∧ (∀ d ∈ u, 0 < strcmp name d.name) ∧
            strcmp name e.name ≤ 0 ∧
          confFilesScan heap first name fuel x = .ok (some y, strcmp name e.name)) ∨
        ((∀ d ∈ cs, 0 < strcmp name d.name) ∧
          ∃ cmp, 0 < cmp ∧ confFilesScan heap first name fuel x = .ok (none, cmp)) := by
  induction after with
  | nil =>
    intro before x cs fuel h hdata hfuel
    obtain ⟨fuel, rfl⟩ := Nat.exists_eq_succ_of_ne_zero (Nat.ne_of_gt hfuel)
    obtain ⟨c, cs, ⟨n, hn, rfl⟩, hrest, rfl⟩ := List.forall₂_cons_left_iff.mp hdata
    by_cases hle : strcmp name n.data.name ≤ 0
    · refine .inl ⟨[], x, [], [], n.data, cs, rfl, rfl, .nil, hdata, by simp, hle, ?_⟩
      simp only [confFilesScan, hn, inBlock_some, ok_bind, if_pos hle]
    · refine .inr ⟨?_, strcmp name n.data.name, Int.not_le.mp hle, ?_⟩
      · cases hrest
        simpa using hle
      · simp only [confFilesScan, hn, inBlock_some, ok_bind, if_neg hle, kmodListNext_list h]
        rfl
  | cons y after ih =>
    intro before x cs fuel h hdata hfuel
    obtain ⟨fuel, rfl⟩ :=
      Nat.exists_eq_succ_of_ne_zero (Nat.ne_of_gt (Nat.lt_of_le_of_lt (Nat.zero_le _) hfuel))
    obtain ⟨c, cs, ⟨n, hn, rfl⟩, hrest, rfl⟩ := List.forall₂_cons_left_iff.mp hdata
    by_cases hle : strcmp name n.data.name ≤ 0
    · refine .inl ⟨[], x, y :: after, [], n.data, cs, rfl, rfl, .nil, hdata, by simp, hle, ?_⟩
      simp only [confFilesScan, hn, inBlock_some, ok_bind, if_pos hle]
    · have hstep : confFilesScan heap first name (fuel + 1) x =
        confFilesScan heap first name fuel y := by
        simp only [confFilesScan, hn, inBlock_some, ok_bind, if_neg hle, kmodListNext_list h]
        rfl
      rw [hstep]
      have hsplit : before ++ x :: y :: after = (before ++ [x]) ++ y :: after := by simp
      rcases ih (before ++ [x]) y cs fuel (hsplit ▸ h) hrest (Nat.lt_of_succ_lt_succ hfuel) with
        ⟨nu, z, nv, u, e, v, hnodes, rfl, hu, hv, hsmaller, hstop, hscan⟩ | ⟨hall, cmp, hcmp, hscan⟩
      · refine .inl ⟨x :: nu, z, nv, n.data :: u, e, v, by rw [hnodes]; rfl, rfl,
          .cons ⟨n, hn, rfl⟩ hu, hv, ?_,
          hstop, hscan⟩
        intro d hd
        rcases List.mem_cons.mp hd with rfl | hd
        · exact Int.not_le.mp hle
        · exact hsmaller d hd
      · refine .inr ⟨fun d hd => ?_, cmp, hcmp, hscan⟩
        rcases List.mem_cons.mp hd with rfl | hd
        · exact Int.not_le.mp hle
        · exact hall d hd

/-- A node behind another one is not the first. -/
theorem ne_first {x y z : Nat} {after before behind : List Nat} (h : (x :: after).Nodup)
    (heq : x :: after = before ++ z :: y :: behind) : y ≠ x := by
  have hmem : y ∈ after := by
    cases before with
    | nil => simp [(List.cons.inj heq).2]
    | cons w before => simp [(List.cons.inj heq).2]
  rintro rfl
  exact (List.nodup_cons.mp h).1 hmem

/-- **An insertion** puts the file in its place, unless there is one of that name. -/
theorem confFilesInsertSorted_list (h : IsList heap list nodes contents) (path : CStr)
    (name : Option CStr) :
    ∃ list' heap' nodes', confFilesInsertSorted heap list path name = .ok (list', heap') ∧
      IsList heap' list' nodes'
        (insertNew strcmp ConfFile.name contents ⟨path, name.isNone, name.getD (basename path)⟩) := by
  cases nodes with
  | nil =>
    cases h.data
    have hlist : list = none := h.first
    subst hlist
    obtain ⟨heap', hcall, hlist'⟩ :=
      kmodListAppend_nil heap ⟨path, name.isNone, name.getD (basename path)⟩
    refine ⟨some heap.length, heap', [heap.length], ?_, hlist'⟩
    simp only [confFilesInsertSorted, ok_bind, reduceCtorEq, if_false, if_true, hcall, true_or]
  | cons x after =>
    have hlist : list = some x := h.first
    subst hlist
    have hfuel : after.length < heap.length := h.toIsRing.length_le
    rcases confFilesScan_cases (name.getD (basename path)) after [] x contents heap.length h
      h.data hfuel with
      ⟨nu, y, nv, u, e, v, hnodes, rfl, hu, hv, hsmaller, hstop, hscan⟩ | ⟨hall, cmp, hcmp, hscan⟩
    · by_cases hzero : strcmp (name.getD (basename path)) e.name = 0
      · -- there is one
        refine ⟨some x, heap, x :: after, ?_, ?_⟩
        · simp only [confFilesInsertSorted, hscan, ok_bind, if_pos hzero]
        · rw [insertNew_of_mem hsmaller hzero]
          exact h
      · rw [insertNew_of_split hsmaller (fun d hd => by
          obtain rfl : e = d := by simpa using hd
          show strcmp (name.getD (basename path)) e.name < 0
          omega)]
        rcases List.eq_nil_or_concat nu with rfl | ⟨nu, z, rfl⟩
        · -- in front of all others
          cases hu
          obtain ⟨rfl, rfl⟩ := List.cons.inj hnodes
          obtain ⟨heap', hcall, hlist'⟩ :=
            kmodListPrepend_list h ⟨path, name.isNone, name.getD (basename path)⟩
          refine ⟨some heap.length, heap', _, ?_, hlist'⟩
          simp only [confFilesInsertSorted, hscan, ok_bind, if_neg hzero, reduceCtorEq,
            if_false, if_true,
            hcall, or_true]
        · rw [List.concat_eq_append] at hu hnodes
          rw [List.append_assoc, List.singleton_append] at hnodes
          have hne : some y ≠ some x := fun heq =>
            ne_first h.nodup hnodes (Option.some.inj heq)
          rw [hnodes] at h
          obtain ⟨heap', hcall, hlist'⟩ := kmodListInsertBefore_list h hu hv
            ⟨path, name.isNone, name.getD (basename path)⟩
          refine ⟨some x, heap', _, ?_, hlist'⟩
          simp only [confFilesInsertSorted, hscan, ok_bind, if_neg hzero, reduceCtorEq,
            if_false, if_neg hne,
            hcall, false_or]
    · -- behind all others
      rw [insertNew_concat hall]
      obtain ⟨heap', hcall, hlist'⟩ :=
        kmodListAppend_list h ⟨path, name.isNone, name.getD (basename path)⟩
      refine ⟨some x, heap', _, ?_, hlist'⟩
      simp only [confFilesInsertSorted, hscan, ok_bind, if_neg (Int.ne_of_gt hcmp), if_true,
        hcall, true_or]

end Insertion

/-! ## All files -/

/-- The files that a configured path offers. -/
def ConfPath.offers (p : ConfPath) : List ConfFile :=
  match p.kind with
  | .missing => []
  | .file => [⟨p.path, true, basename p.path⟩]
  | .unreadable => []
  | .dir entries =>
    (entries.filter (fun e => !confFilesFilterOut e)).map (fun e => ⟨p.path, false, e.name⟩)

section Lists

variable {heap : Heap ConfFile} {list : Option Nat} {nodes : List Nat} {contents : List ConfFile}

theorem confFilesListDir_list (path : CStr) (entries : List DirEntry) :
    ∀ {heap : Heap ConfFile} {list : Option Nat} {nodes : List Nat} {contents : List ConfFile},
      IsList heap list nodes contents →
      ∃ list' heap' nodes', confFilesListDir path heap list entries = .ok (list', heap') ∧
        IsList heap' list' nodes' (((ConfPath.mk path (.dir entries)).offers).foldl
          (insertNew strcmp ConfFile.name) contents) := by
  induction entries with
  | nil => exact fun h => ⟨_, _, _, rfl, h⟩
  | cons entry entries ih =>
    intro heap list nodes contents h
    by_cases hout : confFilesFilterOut entry = true
    · obtain ⟨list', heap', nodes', hcall, hlist'⟩ := ih h
      refine ⟨list', heap', nodes', by rw [confFilesListDir, if_pos hout, hcall], ?_⟩
      simpa [ConfPath.offers, hout] using hlist'
    · obtain ⟨list₁, heap₁, nodes₁, hinsert, hlist₁⟩ :=
        confFilesInsertSorted_list h path (some entry.name)
      obtain ⟨list', heap', nodes', hcall, hlist'⟩ := ih hlist₁
      refine ⟨list', heap', nodes', ?_, ?_⟩
      · rw [confFilesListDir, if_neg hout, hinsert, ok_bind]
        exact hcall
      · simpa [ConfPath.offers, hout] using hlist'

theorem confFilesList_list (h : IsList heap list nodes contents) (p : ConfPath) :
    ∃ list' heap' nodes', confFilesList heap list p = .ok (list', heap') ∧
      IsList heap' list' nodes' (p.offers.foldl (insertNew strcmp ConfFile.name) contents) := by
  obtain ⟨path, kind⟩ := p
  cases kind with
  | missing => exact ⟨_, _, _, rfl, h⟩
  | file => exact confFilesInsertSorted_list h path none
  | unreadable => exact ⟨_, _, _, rfl, h⟩
  | dir entries => exact confFilesListDir_list path entries h

theorem confFilesListAll_list (paths : List ConfPath) :
    ∀ {heap : Heap ConfFile} {list : Option Nat} {nodes : List Nat} {contents : List ConfFile},
      IsList heap list nodes contents →
      ∃ list' heap' nodes', confFilesListAll heap list paths = .ok (list', heap') ∧
        IsList heap' list' nodes' ((paths.flatMap ConfPath.offers).foldl
          (insertNew strcmp ConfFile.name) contents) := by
  induction paths with
  | nil => exact fun h => ⟨_, _, _, rfl, h⟩
  | cons p paths ih =>
    intro heap list nodes contents h
    obtain ⟨list₁, heap₁, nodes₁, hfirst, hlist₁⟩ := confFilesList_list h p
    obtain ⟨list', heap', nodes', hcall, hlist'⟩ := ih hlist₁
    refine ⟨list', heap', nodes', ?_, ?_⟩
    · rw [confFilesListAll, hfirst, ok_bind]
      exact hcall
    · rw [List.flatMap_cons, List.foldl_append]
      exact hlist'

/-- The files of a list are parsed in its order. -/
theorem confFilesParse_list (nodes : List Nat) :
    ∀ {heap : Heap ConfFile} {list : Option Nat} {contents : List ConfFile} {fuel : Nat},
      IsList heap list nodes contents → nodes.length < fuel →
      confFilesParse fuel heap list = .ok (contents.filterMap ConfFile.parsed) := by
  induction nodes with
  | nil =>
    intro heap list contents fuel h hfuel
    obtain ⟨fuel, rfl⟩ := Nat.exists_eq_succ_of_ne_zero (Nat.ne_of_gt hfuel)
    cases h.data
    rw [h.first]
    rfl
  | cons x nodes ih =>
    intro heap list contents fuel h hfuel
    obtain ⟨fuel, rfl⟩ :=
      Nat.exists_eq_succ_of_ne_zero (Nat.ne_of_gt (Nat.lt_of_le_of_lt (Nat.zero_le _) hfuel))
    have hlist : list = some x := h.first
    subst hlist
    obtain ⟨c, cs, ⟨n, hn, rfl⟩, hrest, rfl⟩ := List.forall₂_cons_left_iff.mp h.data
    obtain ⟨heap', hremove, hlist'⟩ := kmodListRemove_list h
    have hparse := ih hlist' (Nat.lt_of_succ_lt_succ hfuel)
    simp only [confFilesParse, hn, inBlock_some, ok_bind, hremove, hparse]
    cases hparsed : n.data.parsed <;> simp [hparsed]

end Lists

/-- What is offered: two files of the module directory, and then the configured paths. -/
def confOffered (dirname : CStr) (paths : List ConfPath) : List (List ConfFile) :=
  [⟨dirname, false, cstr "modules.softdep"⟩, ⟨dirname, false, cstr "modules.weakdep"⟩] ::
    paths.map ConfPath.offers

/-- All files that are offered are put in, one after the other, and then parsed. -/
theorem kmodConfigNew_eq (dirname : CStr) (paths : List ConfPath) :
    kmodConfigNew dirname paths = .ok (((confOffered dirname paths).flatten.foldl
      (insertNew strcmp ConfFile.name) []).filterMap ConfFile.parsed) := by
  obtain ⟨l₁, h₁, n₁, hcall₁, hlist₁⟩ :=
    confFilesInsertSorted_list (isList_nil []) dirname (some (cstr "modules.softdep"))
  obtain ⟨l₂, h₂, n₂, hcall₂, hlist₂⟩ :=
    confFilesInsertSorted_list hlist₁ dirname (some (cstr "modules.weakdep"))
  obtain ⟨l₃, h₃, n₃, hcall₃, hlist₃⟩ := confFilesListAll_list paths hlist₂
  have hparse := confFilesParse_list n₃ hlist₃ (Nat.lt_succ_of_le hlist₃.toIsRing.length_le)
  simp only [kmodConfigNew, hcall₁, ok_bind, hcall₂, hcall₃, hparse]
  rfl

/-- **The files that libkmod parses**: of those that come first with their names, in order. -/
theorem kmodConfigNew_firstWins (dirname : CStr) (paths : List ConfPath) :
    ∃ files, FirstWins strcmp ConfFile.name (confOffered dirname paths) files ∧
      kmodConfigNew dirname paths = .ok (files.filterMap ConfFile.parsed) :=
  ⟨_, foldl_firstWins strcmp_comparison (confOffered dirname paths), kmodConfigNew_eq dirname paths⟩

/-- Files that a path offers are known by their names. -/
theorem confOffered_keys (dirname : CStr) (paths : List ConfPath) :
    ∀ source ∈ confOffered dirname paths, ∀ x ∈ source, ∀ y ∈ source, x.name = y.name → x = y := by
  intro source hsource x hx y hy hname
  rcases List.mem_cons.mp hsource with rfl | hsource
  · have hne : cstr "modules.softdep" ≠ cstr "modules.weakdep" := by decide
    simp only [List.mem_cons, List.not_mem_nil, or_false] at hx hy
    rcases hx with rfl | rfl <;> rcases hy with rfl | rfl
    · rfl
    · exact absurd hname hne
    · exact absurd hname.symm hne
    · rfl
  · obtain ⟨⟨path, kind⟩, _, rfl⟩ := List.mem_map.mp hsource
    cases kind with
    | missing => cases hx
    | file => rw [List.mem_singleton.mp hx, List.mem_singleton.mp hy]
    | unreadable => cases hx
    | dir entries =>
      obtain ⟨e, _, rfl⟩ := List.mem_map.mp hx
      obtain ⟨e', _, rfl⟩ := List.mem_map.mp hy
      exact congrArg (ConfFile.mk path false) hname

end Kmod
