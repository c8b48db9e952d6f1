import Kmod.Lib.Memory
import Kmod.Libkmod.ConfFiles

/-!
# The configuration files of depmod

depmod finds its configuration files by the same rules as libkmod, but keeps them in an
array that is enlarged by one for each file. Both end up with the same selection of files
(`configFiles_precedence`).
-/

namespace Kmod

open SortedTable Memory

/-! ## The model -/

/-- A `struct cfg_file`; its `name` points into `path`. -/
structure CfgFile where
  dirlen : Nat
  namelen : Nat
  path : CStr
  deriving DecidableEq

def CfgFile.name (f : CfgFile) : CStr := f.path.drop (f.dirlen + 1)

/-- `cfg_files_filter_out`. -/
def cfgFilesFilterOut (entry : DirEntry) : Bool := filterOut entry

/--
`cfg_files_insert_sorted`: the array afterwards. `junk` is what `realloc` leaves in the
new element; the allocations succeed.
-/
def cfgFilesInsertSorted (junk : CfgFile) (files : List CfgFile) (dir : CStr) (name : Option CStr) :
    Except Fault (List CfgFile) :=
  let text := name.getD (basename dir)
  let namelen := text.length
  -- without a slash `dirlen` is below zero, and `memcpy` leaves every block
  let dirlen := if name.isSome then some dir.length
    else if namelen + 1 ≤ dir.length then some (dir.length - (namelen + 1)) else none
  match scan strcmp CfgFile.name text files with
  | (_, true) => .ok files
  | (i, false) => do
    let nFiles := files.length
    let tmp := files ++ [junk]
    let tmp ← (
      if i < nFiles then do
        let moved ← inBlock (getRange tmp i (nFiles - i))
        inBlock (putRange tmp (i + 1) moved)
      else .ok tmp)
    let dirlen ← inBlock dirlen
    let f : CfgFile := ⟨dirlen, namelen, dir.take dirlen ++ 47 :: text⟩
    inBlock (putRange tmp i [f])

/-- The loop over the entries of a directory. -/
def cfgFilesListDir (junk : CfgFile) (path : CStr) :
    List CfgFile → List DirEntry → Except Fault (List CfgFile)
  | files, [] => .ok files
  | files, entry :: entries =>
    if cfgFilesFilterOut entry then cfgFilesListDir junk path files entries
    else do
      let files ← cfgFilesInsertSorted junk files path (some entry.name)
      cfgFilesListDir junk path files entries

/-- `cfg_files_list`. -/
def cfgFilesList (junk : CfgFile) (files : List CfgFile) (p : ConfPath) :
    Except Fault (List CfgFile) :=
  match p.kind with
  | .missing => .ok files
  | .file => cfgFilesInsertSorted junk files p.path none
  | .unreadable => .ok files
  | .dir entries => cfgFilesListDir junk p.path files entries

/-- The files that `cfg_load` parses, in order. -/
def cfgLoadFiles (junk : CfgFile) : List CfgFile → List ConfPath → Except Fault (List CStr)
  | files, [] => .ok (files.map CfgFile.path)
  | files, p :: paths => do
    let files ← cfgFilesList junk files p
    cfgLoadFiles junk files paths

/-! ## Insertion -/

/-- The file that is put in for a name in a directory. -/
def cfgFileIn (dir name : CStr) : CfgFile := ⟨dir.length, name.length, dir ++ 47 :: name⟩

@[simp] theorem cfgFileIn_name (dir name : CStr) : (cfgFileIn dir name).name = name := by
  rw [CfgFile.name, cfgFileIn, List.drop_append, List.drop_of_length_le (Nat.le_succ _),
    Nat.add_sub_cancel_left]
  rfl

/-- Opening a gap in an array and filling it. -/
theorem insert_gap {α : Type} (before rest : List α) (junk f : α) :
    ∃ tmp, (if before.length < (before ++ rest).length then do
          let moved ← inBlock (getRange (before ++ rest ++ [junk]) before.length
            ((before ++ rest).length - before.length))
          inBlock (putRange (before ++ rest ++ [junk]) (before.length + 1) moved)
        else .ok (before ++ rest ++ [junk])) = .ok tmp ∧
      putRange tmp before.length [f] = some (before ++ f :: rest) := by
  cases rest with
  | nil =>
    refine ⟨before ++ [] ++ [junk], by simp, ?_⟩
    rw [List.append_nil, putRange_append _ _ _ (by simp)]
    rfl
  | cons x rest =>
    have hlen : (before ++ x :: rest).length - before.length = (x :: rest).length := by simp
    have hget : getRange (before ++ x :: rest ++ [junk]) before.length (x :: rest).length =
        some (x :: rest) := by
      rw [List.append_assoc]
      exact getRange_append before (x :: rest) [junk]
    have hput : putRange (before ++ x :: rest ++ [junk]) (before.length + 1) (x :: rest)
        = some (before ++ [x] ++ (x :: rest)) := by
      have := putRange_append (before ++ [x]) (rest ++ [junk]) (x :: rest) (by simp)
      rw [List.length_append, List.length_singleton] at this
      simpa using this
    refine ⟨before ++ [x] ++ (x :: rest), ?_, ?_⟩
    · rw [if_pos (by simp), hlen, hget, inBlock_some, ok_bind, hput, inBlock_some]
    · rw [List.append_assoc, putRange_append _ _ _ (by simp)]
      rfl

/-- The file that is put in: of a directory if a name is given, else by itself. -/
def cfgFileFor (path : CStr) : Option CStr → CfgFile
  | some name => cfgFileIn path name
  | none => cfgFileIn (path.take (path.length - ((basename path).length + 1))) (basename path)

/-- **An insertion** puts the file in its place, unless there is one of that name. -/
theorem cfgFilesInsertSorted_eq (junk : CfgFile) {files : List CfgFile}
    (hl : Sorted strcmp CfgFile.name files)
    (path : CStr) (name : Option CStr) (hslash : name = none → 47 ∈ path) :
    cfgFilesInsertSorted junk files path name
      = .ok (insertNew strcmp CfgFile.name files (cfgFileFor path name)) := by
  -- the text and the length of the directory
  obtain ⟨dirlen, hdirlen, hfile⟩ : ∃ dirlen, (if name.isSome then some path.length
      else if (name.getD (basename path)).length + 1 ≤ path.length
        then some (path.length - ((name.getD (basename path)).length + 1)) else none) = some dirlen ∧
      CfgFile.mk dirlen (name.getD (basename path)).length
        (path.take dirlen ++ 47 :: name.getD (basename path))
        = cfgFileFor path name := by
    cases name with
    | some name => exact ⟨path.length, rfl, by simp [cfgFileFor, cfgFileIn]⟩
    | none =>
      obtain ⟨dir, hdir⟩ := basename_split (hslash rfl)
      have hlen := congrArg List.length hdir
      rw [List.length_append, List.length_cons] at hlen
      refine ⟨path.length - ((basename path).length + 1), ?_, ?_⟩
      · simp only [Option.isSome_none, Bool.false_eq_true, if_false, Option.getD_none]
        rw [if_pos (by omega)]
      · simp [cfgFileFor, cfgFileIn]
  have hname : (cfgFileFor path name).name = name.getD (basename path) := by
    cases name <;> simp [cfgFileFor]
  simp only [cfgFilesInsertSorted, hdirlen, inBlock_some, ok_bind, hfile]
  rcases scan_cases strcmp_comparison (k := name.getD (basename path)) hl with
    ⟨before, a, rest, rfl, hkey, hscan⟩ | ⟨before, rest, rfl, hscan, hbefore, hrest⟩
  · rw [hscan, insertNew, hname, hscan]
    rfl
  · obtain ⟨tmp, htmp, hput⟩ := insert_gap before rest junk (cfgFileFor path name)
    rw [hscan, insertNew, hname, hscan]
    dsimp only
    rw [htmp, ok_bind, hput]
    simp

/-! ## All files -/

/-- The files that a configured path offers to depmod. -/
def ConfPath.cfgOffers (p : ConfPath) : List CfgFile :=
  match p.kind with
  | .missing => []
  | .file => [cfgFileFor p.path none]
  | .unreadable => []
  | .dir entries =>
    (entries.filter (fun e => !cfgFilesFilterOut e)).map (fun e => cfgFileIn p.path e.name)

/-- A file that is configured by itself has a directory in its path. -/
def ConfPath.HasDir (p : ConfPath) : Prop := p.kind = .file → 47 ∈ p.path

theorem cfgFilesListDir_eq (junk : CfgFile) (path : CStr) (entries : List DirEntry) :
    ∀ {files : List CfgFile}, Sorted strcmp CfgFile.name files →
      cfgFilesListDir junk path files entries
        = .ok ((ConfPath.mk path (.dir entries)).cfgOffers.foldl
          (insertNew strcmp CfgFile.name) files) := by
  induction entries with
  | nil => exact fun _ => rfl
  | cons entry entries ih =>
    intro files hl
    by_cases hout : cfgFilesFilterOut entry = true
    · rw [cfgFilesListDir, if_pos hout, ih hl]
      simp [ConfPath.cfgOffers, hout]
    · rw [cfgFilesListDir, if_neg hout, cfgFilesInsertSorted_eq junk hl path (some entry.name)
        (by simp), ok_bind,
        ih (sorted_insertNew strcmp_comparison hl _)]
      simp [ConfPath.cfgOffers, hout, cfgFileFor]

theorem cfgFilesList_eq (junk : CfgFile) {files : List CfgFile}
    (hl : Sorted strcmp CfgFile.name files)
    {p : ConfPath} (hp : p.HasDir) :
    cfgFilesList junk files p = .ok (p.cfgOffers.foldl (insertNew strcmp CfgFile.name) files) := by
  obtain ⟨path, kind⟩ := p
  cases kind with
  | missing => rfl
  | file => exact cfgFilesInsertSorted_eq junk hl path none (fun _ => hp rfl)
  | unreadable => rfl
  | dir entries => exact cfgFilesListDir_eq junk path entries hl

theorem cfgLoadFiles_eq (junk : CfgFile) (paths : List ConfPath) :
    ∀ {files : List CfgFile}, Sorted strcmp CfgFile.name files → (∀ p ∈ paths, p.HasDir) →
      cfgLoadFiles junk files paths
        = .ok (((paths.flatMap ConfPath.cfgOffers).foldl (insertNew strcmp CfgFile.name) files).map
          CfgFile.path) := by
  induction paths with
  | nil => exact fun _ _ => rfl
  | cons p paths ih =>
    intro files hl hdirs
    have hsorted := (foldl_insertNew strcmp_comparison p.cfgOffers hl).1
    rw [cfgLoadFiles, cfgFilesList_eq junk hl (hdirs p (by simp)), ok_bind,
      ih hsorted (fun q hq => hdirs q (List.mem_cons_of_mem _ hq)), List.flatMap_cons,
      List.foldl_append]

/-- **The files that depmod parses**: those that come first with their names, in order. -/
theorem cfgLoadFiles_firstWins (junk : CfgFile) {paths : List ConfPath}
    (hdirs : ∀ p ∈ paths, p.HasDir) :
    ∃ files, FirstWins strcmp CfgFile.name (paths.map ConfPath.cfgOffers) files ∧
      cfgLoadFiles junk [] paths = .ok (files.map CfgFile.path) :=
  ⟨_, foldl_firstWins strcmp_comparison (paths.map ConfPath.cfgOffers),
    cfgLoadFiles_eq junk paths List.Pairwise.nil hdirs⟩

theorem cfgOffers_keys (paths : List ConfPath) :
    ∀ source ∈ paths.map ConfPath.cfgOffers, ∀ x ∈ source, ∀ y ∈ source,
      x.name = y.name → x = y := by
  intro source hsource x hx y hy hname
  obtain ⟨⟨path, kind⟩, _, rfl⟩ := List.mem_map.mp hsource
  cases kind with
  | missing => cases hx
  | file => rw [List.mem_singleton.mp hx, List.mem_singleton.mp hy]
  | unreadable => cases hx
  | dir entries =>
    obtain ⟨e, _, rfl⟩ := List.mem_map.mp hx
    obtain ⟨e', _, rfl⟩ := List.mem_map.mp hy
    rw [cfgFileIn_name, cfgFileIn_name] at hname
    rw [hname]

/-! ## Any order of `readdir` -/

/-- The same paths, with the entries of directories in another order. -/
inductive SameKind : ConfPathKind → ConfPathKind → Prop where
  | missing : SameKind .missing .missing
  | file : SameKind .file .file
  | unreadable : SameKind .unreadable .unreadable
  | dir {entries entries' : List DirEntry} : entries.Perm entries' →
      SameKind (.dir entries) (.dir entries')

theorem SameKind.eq_file {kind : ConfPathKind} (h : SameKind kind .file) : kind = .file := by
  cases h
  rfl

def SamePaths (paths paths' : List ConfPath) : Prop :=
  List.Forall₂ (fun p p' => p.path = p'.path ∧ SameKind p.kind p'.kind) paths paths'

/-- Paths offer the same, if the order of the entries of a directory does not matter for that. -/
theorem SamePaths.offers {F : Type} {offer : ConfPath → List F}
    (hdir : ∀ path {entries entries' : List DirEntry}, entries.Perm entries' →
      (offer ⟨path, .dir entries⟩).Perm (offer ⟨path, .dir entries'⟩))
    {paths paths' : List ConfPath} (h : SamePaths paths paths') :
    List.Forall₂ (fun s s' => ∀ x, x ∈ s ↔ x ∈ s') (paths.map offer) (paths'.map offer) := by
  rw [List.forall₂_map_left_iff, List.forall₂_map_right_iff]
  refine h.imp (fun p p' hp x => ?_)
  obtain ⟨path, kind⟩ := p
  obtain ⟨path', kind'⟩ := p'
  obtain ⟨hpath, hkind⟩ := hp
  obtain rfl : path = path' := hpath
  cases hkind with
  | missing => rfl
  | file => rfl
  | unreadable => rfl
  | dir hperm => exact (hdir path hperm).mem_iff

theorem SamePaths.hasDir {paths paths' : List ConfPath} (h : SamePaths paths paths')
    (hdirs : ∀ p ∈ paths, p.HasDir) : ∀ p ∈ paths', p.HasDir := by
  induction h with
  | nil => simp
  | cons hp _ ih =>
    intro q hq
    rcases List.mem_cons.mp hq with rfl | hq
    · intro hkind
      obtain ⟨hpath, hsame⟩ := hp
      rw [hkind] at hsame
      rw [← hpath]
      exact hdirs _ List.mem_cons_self hsame.eq_file
    · exact ih (fun p hp => hdirs p (List.mem_cons_of_mem _ hp)) q hq

/--
**Configuration files.** Of the names that the configured paths offer each is taken from
the first path that has it, and they are in strictly increasing order; libkmod parses
these, except for those whose path is too long, and depmod all of them. The order in
which `readdir` delivers the entries makes no difference.
-/
theorem configFiles_precedence (dirname : CStr) (junk : CfgFile) {paths : List ConfPath}
    (hdirs : ∀ p ∈ paths, p.HasDir) :
    (∃ files, FirstWins strcmp ConfFile.name (confOffered dirname paths) files ∧
        kmodConfigNew dirname paths = .ok (files.filterMap ConfFile.parsed)) ∧
      (∃ files, FirstWins strcmp CfgFile.name (paths.map ConfPath.cfgOffers) files ∧
        cfgLoadFiles junk [] paths = .ok (files.map CfgFile.path)) ∧
      ∀ paths', SamePaths paths paths' →
        kmodConfigNew dirname paths' = kmodConfigNew dirname paths ∧
          cfgLoadFiles junk [] paths' = cfgLoadFiles junk [] paths := by
  have hconf := kmodConfigNew_firstWins dirname paths
  have hcfg := cfgLoadFiles_firstWins junk hdirs
  refine ⟨hconf, hcfg, fun paths' hsame => ⟨?_, ?_⟩⟩
  · obtain ⟨files, hfirst, hcall⟩ := hconf
    obtain ⟨files', hfirst', hcall'⟩ := kmodConfigNew_firstWins dirname paths'
    have hoffers : List.Forall₂ _ (confOffered dirname paths) (confOffered dirname paths') :=
      .cons (fun _ => Iff.rfl) (hsame.offers (fun _ _ _ hperm => (hperm.filter _).map _))
    rw [hcall, hcall', hfirst'.unique strcmp_comparison (hfirst.of_same hoffers)
      (confOffered_keys dirname paths')]
  · obtain ⟨files, hfirst, hcall⟩ := hcfg
    obtain ⟨files', hfirst', hcall'⟩ := cfgLoadFiles_firstWins junk (hsame.hasDir hdirs)
    have hoffers : List.Forall₂ _ (paths.map ConfPath.cfgOffers) (paths'.map ConfPath.cfgOffers) :=
      hsame.offers (fun _ _ _ hperm => (hperm.filter _).map _)
    rw [hcall, hcall', hfirst'.unique strcmp_comparison (hfirst.of_same hoffers)
      (cfgOffers_keys paths')]

/-- Two directories, with a file `a.conf` in both. -/
def samplePaths : List ConfPath :=
  [⟨cstr "/etc/m.d", .dir [⟨cstr "b.conf", some false⟩, ⟨cstr "a.conf", some false⟩]⟩,
    ⟨cstr "/lib/m.d", .dir [⟨cstr "a.conf", some false⟩, ⟨cstr "c.conf", some false⟩]⟩]

theorem configFiles_precedence_sample :
    (∀ p ∈ samplePaths, p.HasDir) ∧
      (∃ files, FirstWins strcmp CfgFile.name (samplePaths.map ConfPath.cfgOffers) files ∧
        cfgLoadFiles ⟨0, 0, []⟩ [] samplePaths = .ok (files.map CfgFile.path)) ∧
      cfgLoadFiles ⟨0, 0, []⟩ [] samplePaths
        = .ok [cstr "/etc/m.d/a.conf", cstr "/etc/m.d/b.conf", cstr "/lib/m.d/c.conf"] := by
  have hdirs : ∀ p ∈ samplePaths, p.HasDir := by
    intro p hp hkind
    simp only [samplePaths, List.mem_cons, List.not_mem_nil, or_false] at hp
    rcases hp with rfl | rfl <;> cases hkind
  exact ⟨hdirs, (configFiles_precedence [] ⟨0, 0, []⟩ hdirs).2.1, by decide⟩

/-- A directory whose name leaves no room for that of a file. -/
theorem kmodConfigNew_tooLong {dir : CStr} (h : 4089 ≤ dir.length) :
    kmodConfigNew (cstr "/k") [⟨dir, .dir [⟨cstr "a.conf", some false⟩]⟩]
      = .ok [cstr "/k/modules.softdep", cstr "/k/modules.weakdep"] := by
  have hlong : ConfFile.parsed ⟨dir, false, cstr "a.conf"⟩ = none := by
    have hlen : (dir ++ 47 :: cstr "a.conf").length ≥ PATH_MAX := by
      rw [List.length_append]
      show dir.length + 7 ≥ 4096
      omega
    exact if_pos hlen
  rw [kmodConfigNew_eq]
  show Except.ok (List.filterMap ConfFile.parsed [⟨dir, false, cstr "a.conf"⟩,
    ⟨cstr "/k", false, cstr "modules.softdep"⟩, ⟨cstr "/k", false, cstr "modules.weakdep"⟩]) = _
  rw [List.filterMap_cons_none hlong]
  rfl

/-- A path of 4091 bytes, in which no component has more than 255. -/
def longDir : CStr :=
  (List.replicate 15 (47 :: List.replicate 255 97)).flatten ++ 47 :: List.replicate 250 97

theorem length_longDir : longDir.length = 4091 := by
  unfold longDir
  rw [List.length_append, List.length_flatten, List.map_replicate, List.sum_replicate_nat,
    List.length_cons, List.length_cons, List.length_replicate, List.length_replicate]

/--
Not every name is parsed: the filter drops names without `.conf`, and libkmod does not
parse a file whose path is too long.
-/
theorem configFiles_unparsed :
    kmodConfigNew (cstr "/k") [⟨cstr "/d", .dir [⟨cstr "README", some false⟩]⟩]
        = .ok [cstr "/k/modules.softdep", cstr "/k/modules.weakdep"] ∧
      kmodConfigNew (cstr "/k") [⟨longDir, .dir [⟨cstr "a.conf", some false⟩]⟩]
        = .ok [cstr "/k/modules.softdep", cstr "/k/modules.weakdep"] := by
  refine ⟨by decide, kmodConfigNew_tooLong ?_⟩
  rw [length_longDir]
  decide

end Kmod
