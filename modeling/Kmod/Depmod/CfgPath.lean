import Kmod.Depmod.CfgFiles
import Kmod.Lib.Bytes

/-!
# The path of a configuration file

`cfg_files_insert_sorted` keeps a file with its path, put together from a directory and a
name behind the structure. For a file that is given by itself both come from its path: the
name is what follows the last slash, and the length of the directory is what is left when
the name and that slash are taken away, as a `size_t`.

Here the function is written out with the sizes, the block and the copies. With a slash in
the path it does what `cfgFilesInsertSorted` says; without one the length of the directory
wraps, and the copy leaves every block (`cfgFilesInsertMem_single_iff`).
-/

namespace Kmod

open SortedTable Memory Bytes

/-! ## The model -/

/-- `sizeof(struct cfg_file)` -/
def CFG_FILE_SIZE : Nat := 24

/-- A `struct cfg_file` in memory; `name` is an offset in `path`. -/
structure CfgFileMem where
  dirlen : Nat
  namelen : Nat
  name : Nat
  path : List UInt8

/-- The length of the directory, a `size_t`. -/
def cfgDirlen (dir : CStr) (name : Option CStr) : Nat :=
  match name with
  | some _ => dir.length
  | none => (dir.length + 2 ^ 64 - ((basename dir).length + 1)) % 2 ^ 64

/-- A new file: the allocation and the copies. -/
def newCfgFile (heap : Allocator) (dir : CStr) (name : Option CStr) :
    Except Fault (Option CfgFileMem) :=
  let dirlen := cfgDirlen dir name
  let text := name.getD (basename dir)
  let namelen := text.length
  match heap.malloc ((CFG_FILE_SIZE + dirlen + namelen + 2) % 2 ^ 64) with
  | none => .ok none
  | some block => do
    let path := block.drop CFG_FILE_SIZE
    let cells ← inBlock (getRange (dir ++ [0]) 0 dirlen)
    let path ← inBlock (putRange path 0 cells)
    let path ← inBlock (putRange path dirlen [47])
    let cells ← inBlock (getRange (text ++ [0]) 0 namelen)
    let path ← inBlock (putRange path ((dirlen + 1) % 2 ^ 64) cells)
    let path ← inBlock (putRange path ((dirlen + 1 + namelen) % 2 ^ 64) [0])
    .ok (some { dirlen, namelen, name := (dirlen + 1) % 2 ^ 64, path })

/-- The file with the string that its path is. -/
def CfgFileMem.file (f : CfgFileMem) : Except Fault CfgFile := do
  let path ← inBlock ((takeCstr f.path).map (·.1))
  .ok ⟨f.dirlen, f.namelen, path⟩

/--
`cfg_files_insert_sorted`: what it returns, and the array. `junk` is what `realloc` leaves
in the new element.
-/
def cfgFilesInsertMem (heap : Allocator) (junk : CfgFile) (files : List CfgFile) (dir : CStr)
    (name : Option CStr) : Except Fault (Int × List CfgFile) :=
  match scan strcmp CfgFile.name (name.getD (basename dir)) files with
  | (_, true) => .ok (-EEXIST, files)
  | (i, false) => do
    match ← newCfgFile heap dir name with
    | none => .ok (-ENOMEM, files)
    | some f => do
      let nFiles := files.length
      let tmp := files ++ [junk]
      let tmp ← (
        if i < nFiles then do
          let moved ← inBlock (getRange tmp i (nFiles - i))
          inBlock (putRange tmp (i + 1) moved)
        else .ok tmp)
      let f ← f.file
      let tmp ← inBlock (putRange tmp i [f])
      .ok (0, tmp)

/-! ## The copies -/

section Copies

variable {heap : Allocator}

theorem length_malloc {size : Nat} {block : List UInt8} (h : heap.malloc size = some block) :
    block.length = size := by
  unfold Allocator.malloc at h
  split at h
  · cases h
    simp
  · cases h

/-- **The copies stay in the block**, if the lengths are those of a directory and a name. -/
theorem newCfgFile_eq (hheap : heap.Bounded) {dir : CStr} {name : Option CStr} {dirname text : CStr}
    (htext : name.getD (basename dir) = text) (hdir : dirname <+: dir)
    (hdirlen : cfgDirlen dir name = dirname.length)
    (hgrants : heap.grants (CFG_FILE_SIZE + dirname.length + text.length + 2) = true) :
    ∃ rest, newCfgFile heap dir name = .ok (some
      { dirlen := dirname.length, namelen := text.length, name := dirname.length + 1
        path := (dirname ++ 47 :: text) ++ 0 :: rest }) := by
  have hmax := hheap _ hgrants
  have hsize : PTRDIFF_MAX < 2 ^ 64 := by decide
  obtain ⟨block, hblock⟩ : ∃ block,
      heap.malloc (CFG_FILE_SIZE + dirname.length + text.length + 2) = some block :=
    ⟨_, if_pos hgrants⟩
  have hlen := length_malloc hblock
  have hpath : (block.drop CFG_FILE_SIZE).length = dirname.length + text.length + 2 := by
    rw [List.length_drop, hlen]
    omega
  obtain ⟨more, rfl⟩ := hdir
  have hgetDir : getRange (dirname ++ more ++ [0]) 0 dirname.length = some dirname := by
    rw [List.append_assoc]
    exact getRange_append [] dirname (more ++ [0])
  have hgetText : getRange (text ++ [0]) 0 text.length = some text := getRange_append [] text [0]
  unfold newCfgFile
  rw [hdirlen, htext]
  dsimp only
  rw [Nat.mod_eq_of_lt (by omega), hblock]
  dsimp only
  generalize block.drop CFG_FILE_SIZE = path at hpath
  -- each copy ends where the next one starts
  obtain ⟨rest₁, hput₁, hlen₁⟩ : ∃ rest, putRange path 0 dirname = some (dirname ++ rest) ∧ _ :=
    exists_putRange_append [] path dirname (by omega)
  obtain ⟨rest₂, hput₂, hlen₂⟩ := exists_putRange_append dirname rest₁ [47] (by simp; omega)
  obtain ⟨rest₃, hput₃, hlen₃⟩ :=
    exists_putRange_append (dirname ++ [47]) rest₂ text (by simp at *; omega)
  obtain ⟨rest₄, hput₄, -⟩ :=
    exists_putRange_append (dirname ++ [47] ++ text) rest₃ [0] (by simp at *; omega)
  have hend : dirname ++ [47] ++ text ++ [0] ++ rest₄ =
      (dirname ++ 47 :: text) ++ 0 :: rest₄ := by simp
  simp only [List.length_append, List.length_singleton] at hput₃ hput₄
  refine ⟨rest₄, ?_⟩
  rw [hgetDir, inBlock_some, ok_bind, hput₁, inBlock_some, ok_bind, hput₂, inBlock_some,
    ok_bind, hgetText,
    inBlock_some, ok_bind, Nat.mod_eq_of_lt (by omega), hput₃, inBlock_some, ok_bind,
    Nat.mod_eq_of_lt (by omega), hput₄, inBlock_some, ok_bind, hend]

/-- The string is the one that `cfgFilesInsertSorted` has for the file. -/
theorem file_eq {dirname text : CStr} (hnul : 0 ∉ dirname ++ 47 :: text) (rest : List UInt8) :
    CfgFileMem.file ⟨dirname.length, text.length, dirname.length + 1,
      (dirname ++ 47 :: text) ++ 0 :: rest⟩
      = .ok (cfgFileIn dirname text) := by
  unfold CfgFileMem.file
  dsimp only
  rw [takeCstr_append hnul]
  rfl

end Copies

/-! ## A file by itself -/

/-- With a slash, nothing wraps. -/
theorem cfgDirlen_eq {path dirname : CStr} (hpath : path = dirname ++ 47 :: basename path)
    (hlen : path.length < 2 ^ 64) : cfgDirlen path none = dirname.length := by
  have hsum := congrArg List.length hpath
  rw [List.length_append, List.length_cons] at hsum
  have hsub : path.length + 2 ^ 64 - ((basename path).length + 1) =
      dirname.length + 2 ^ 64 := by omega
  unfold cfgDirlen
  dsimp only
  rw [hsub, Nat.add_mod_right, Nat.mod_eq_of_lt (by omega)]

/-- The new file, when the path has a slash: it is the one the selection of the files is about. -/
theorem newCfgFile_single {heap : Allocator} (hheap : heap.Bounded) {path : CStr}
    (hslash : 47 ∈ path)
    (hnul : 0 ∉ path) (hgrants : heap.grants (path.length + 25) = true) :
    ∃ f, newCfgFile heap path none = .ok (some f) ∧ f.file = .ok (cfgFileFor path none) ∧
      (cfgFileFor path none).path = path := by
  obtain ⟨dirname, hpath⟩ := basename_split hslash
  have hmax := hheap _ hgrants
  have hsize : PTRDIFF_MAX < 2 ^ 64 := by decide
  have hsum := congrArg List.length hpath
  rw [List.length_append, List.length_cons] at hsum
  have hblock : CFG_FILE_SIZE + dirname.length + (basename path).length + 2 = path.length + 25 := by
    unfold CFG_FILE_SIZE
    omega
  obtain ⟨rest, hnew⟩ := newCfgFile_eq hheap
    (rfl : (none : Option CStr).getD (basename path) = basename path)
      ⟨47 :: basename path, hpath.symm⟩
    (cfgDirlen_eq hpath (by omega)) (hblock ▸ hgrants)
  have htake : path.take (path.length - ((basename path).length + 1)) = dirname := by
    have hlen : path.length - ((basename path).length + 1) = dirname.length := by omega
    rw [hlen]
    conv_lhs => rw [hpath]
    exact List.take_left
  have hfor : cfgFileFor path none = cfgFileIn dirname (basename path) := by
    unfold cfgFileFor
    rw [htake]
  rw [hfor]
  exact ⟨_, hnew, file_eq (hpath ▸ hnul) rest, hpath.symm⟩

/-- **With a slash** the function does what `cfgFilesInsertSorted` says. -/
theorem cfgFilesInsertMem_single {heap : Allocator} (hheap : heap.Bounded) (junk : CfgFile)
    {files : List CfgFile} (hl : Sorted strcmp CfgFile.name files) {path : CStr}
    (hslash : 47 ∈ path)
    (hnul : 0 ∉ path) (hgrants : heap.grants (path.length + 25) = true) :
    cfgFilesInsertMem heap junk files path none
      = .ok (if ∃ f ∈ files, f.name = basename path then -EEXIST else 0,
          insertNew strcmp CfgFile.name files (cfgFileFor path none)) := by
  obtain ⟨f, hnew, hfile, -⟩ := newCfgFile_single hheap hslash hnul hgrants
  have hname : (cfgFileFor path none).name = basename path := cfgFileIn_name _ _
  have hcmp : ∀ {a b : CStr}, strcmp a b < 0 → a ≠ b := by
    rintro a b hlt rfl
    rw [(strcmp_eq_zero_iff a a).2 rfl] at hlt
    exact absurd hlt (by decide)
  unfold cfgFilesInsertMem
  rw [Option.getD_none]
  rcases scan_cases strcmp_comparison (k := basename path) hl with
    ⟨before, a, rest, rfl, hkey, hscan⟩ | ⟨before, rest, rfl, hscan, hbefore, hrest⟩
  · rw [if_pos ⟨a, by simp, hkey⟩, insertNew, hname, hscan]
    rfl
  · have hnone : ¬ ∃ f ∈ before ++ rest, f.name = basename path := by
      rintro ⟨g, hg, hsame⟩
      rcases List.mem_append.1 hg with hg | hg
      · exact hcmp (hbefore g hg) hsame
      · exact hcmp (hrest g hg) hsame.symm
    obtain ⟨tmp, htmp, hput⟩ := insert_gap before rest junk (cfgFileFor path none)
    rw [if_neg hnone, insertNew, hname, hscan]
    dsimp only
    rw [hnew, ok_bind]
    dsimp only
    rw [htmp, ok_bind, hfile, ok_bind, hput, inBlock_some, ok_bind]
    simp

/--
**Without a slash** the length of the directory is the
largest `size_t`, and so is that of the copy.
-/
theorem newCfgFile_of_notMem {heap : Allocator} (hheap : heap.Bounded) {path : CStr}
    (hslash : 47 ∉ path)
    (hgrants : heap.grants (path.length + 25) = true) :
    newCfgFile heap path none = .error .outOfBounds := by
  have hmax := hheap _ hgrants
  have hptr : PTRDIFF_MAX < SIZE_MAX := by decide
  have hdirlen : cfgDirlen path none = SIZE_MAX := by
    have hsub : path.length + 2 ^ 64 - (path.length + 1) = SIZE_MAX := by
      unfold SIZE_MAX
      omega
    unfold cfgDirlen
    dsimp only
    rw [basename_of_notMem hslash, hsub]
    decide
  have hsize : (CFG_FILE_SIZE + SIZE_MAX + path.length + 2) % 2 ^ 64 = path.length + 25 := by
    unfold CFG_FILE_SIZE SIZE_MAX
    unfold SIZE_MAX at hptr
    omega
  have hget : getRange (path ++ [0]) 0 SIZE_MAX = none := by
    unfold getRange
    rw [if_neg]
    rw [List.length_append, List.length_singleton]
    omega
  unfold newCfgFile
  rw [hdirlen, Option.getD_none, basename_of_notMem hslash]
  dsimp only
  rw [hsize, Allocator.malloc, if_pos hgrants]
  dsimp only
  rw [hget]
  rfl

/-- The lengths of the directory, of the name and of the block are what they are meant to be. -/
def CfgLengthsFit (path : CStr) : Prop :=
  (basename path).length + 1 ≤ path.length ∧
    CFG_FILE_SIZE + (path.length - ((basename path).length + 1)) + (basename path).length + 2 < 2 ^ 64

/--
**A file that is given by itself** is kept with its own path exactly when there is a slash
in the path.
-/
theorem cfgFilesInsertMem_single_iff {heap : Allocator} (hheap : heap.Bounded) (junk : CfgFile)
    {files : List CfgFile} (hl : Sorted strcmp CfgFile.name files) {path : CStr} (hnul : 0 ∉ path)
    (hgrants : heap.grants (path.length + 25) = true) :
    (CfgLengthsFit path ∧ ∃ ret files',
      cfgFilesInsertMem heap junk files path none = .ok (ret, files') ∧
      ((∀ f ∈ files, f.name ≠ basename path) →
        ret = 0 ∧ ∃ f ∈ files', f.name = basename path ∧ f.path = path)) ↔ 47 ∈ path := by
  constructor
  · rintro ⟨⟨hlen, -⟩, -⟩
    by_contra hslash
    rw [basename_of_notMem hslash] at hlen
    omega
  · intro hslash
    obtain ⟨dirname, hpath⟩ := basename_split hslash
    have hsum := congrArg List.length hpath
    rw [List.length_append, List.length_cons] at hsum
    have hmax := hheap _ hgrants
    have hsize : PTRDIFF_MAX < 2 ^ 64 := by decide
    obtain ⟨f, -, -, hf⟩ := newCfgFile_single hheap hslash hnul hgrants
    refine ⟨⟨by omega, by unfold CFG_FILE_SIZE; omega⟩, _, _,
      cfgFilesInsertMem_single hheap junk hl hslash hnul hgrants, fun hnone => ⟨if_neg ?_, ?_⟩⟩
    · rintro ⟨g, hg, hsame⟩
      exact hnone g hg hsame
    · refine ⟨cfgFileFor path none, ?_, cfgFileIn_name _ _, hf⟩
      rw [mem_insertNew strcmp_comparison hl]
      exact Or.inr ⟨rfl, fun g hg => (hnone g hg).trans_eq (cfgFileIn_name _ _).symm⟩

theorem cfgFilesInsertMem_single_iff_slashes :
    ∃ ret files', cfgFilesInsertMem largeAllocator ⟨0, 0, []⟩ [] (cstr "a//b.conf") none =
      .ok (ret, files') ∧
      ∃ f ∈ files', f.path = cstr "a//b.conf" := by
  obtain ⟨-, ret, files', hrun, hstored⟩ := (cfgFilesInsertMem_single_iff largeAllocator_bounded
    ⟨0, 0, []⟩ (List.Pairwise.nil : Sorted strcmp CfgFile.name [])
    (by decide : 0 ∉ cstr "a//b.conf") (by decide)).2
    (by decide)
  obtain ⟨-, f, hf, -, hpath⟩ := hstored (by simp)
  exact ⟨ret, files', hrun, f, hf, hpath⟩

/-- A path without a slash. -/
theorem cfgFilesInsertMem_bare :
    cfgFilesInsertMem largeAllocator ⟨0, 0, []⟩ [] (cstr "foo.conf") none = .error .outOfBounds ∧
      cfgDirlen (cstr "foo.conf") none = SIZE_MAX ∧ ¬ CfgLengthsFit (cstr "foo.conf") := by
  refine ⟨?_, by decide, fun h => absurd h.1 (by decide)⟩
  have hnew := newCfgFile_of_notMem largeAllocator_bounded (by decide : 47 ∉ cstr "foo.conf") (by decide)
  unfold cfgFilesInsertMem
  rw [hnew]
  rfl

end Kmod
