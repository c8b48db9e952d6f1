import Kmod.Depmod.Priority

/-!
# The quick check of depmod

`depmod -A` only does its work if some module is newer than `modules.dep`. It looks for
one with a walk of its own, `depfile_up_to_date_dir`, which is not the walk that finds the
modules afterwards, `depmod_modules_search_dir`: it stays in the module directory, gives
up on long paths, and compares times in microseconds.

The walk is described on the files of a tree, each with the directories above it: which of
them it looks at (`LookedAt`). `upToDate_agrees_iff` says when the quick check agrees with the
search.
-/

namespace Kmod.UpToDate

/-! ## The model -/

/-- A `struct timespec`. -/
structure Timespec where
  sec : Int
  nsec : Nat
  deriving DecidableEq

/-- `ts_usec`; the sum of `unsigned long long` numbers is taken modulo 2^64. -/
def tsUsec (ts : Timespec) : Nat :=
  ((ts.sec * 1000000 + (ts.nsec / 1000 : Nat)) % 18446744073709551616).toNat

/-- One time is later than another. -/
def Timespec.Newer (a b : Timespec) : Prop := b.sec < a.sec ∨ (b.sec = a.sec ∧ b.nsec < a.nsec)

instance (a b : Timespec) : Decidable (a.Newer b) := inferInstanceAs (Decidable (_ ∨ _))

/-- An entry of a directory that is not a directory itself. -/
structure EntryFile where
  name : CStr
  regular : Bool
  /-- `d_type` is `DT_REG`. -/
  dtReg : Bool
  regular_of_dt : dtReg = true → regular = true
  /-- `fstatat` succeeds. -/
  fstatat : Bool
  mtime : Timespec
  deriving DecidableEq

/-- A directory in a directory. -/
structure EntryDir where
  name : CStr
  /-- `d_type` is `DT_DIR`. -/
  dtDir : Bool
  fstatat : Bool
  /-- `openat` and `fdopendir` succeed. -/
  opens : Bool
  deriving DecidableEq

/-- What `readdir` delivers, one entry after the other. -/
inductive DirTree where
  | done
  | file (e : EntryFile) (rest : DirTree)
  | subdir (d : EntryDir) (sub rest : DirTree)

/-- A directory that a walk starts from. -/
structure SearchRoot where
  path : CStr
  /-- `opendir` succeeds. -/
  opens : Bool
  tree : DirTree

/-- `.` and `..`. -/
def isDots (name : CStr) : Bool := name = cstr "." ∨ name = cstr ".."

/-- The directories of a build that both walks leave out. -/
def isBuildDir (name : CStr) : Bool := name = cstr "build" ∨ name = cstr "source"

/-- `should_exclude_dir`. -/
def shouldExcludeDir (excludes : List CStr) (name : CStr) : Bool :=
  isDots name || isBuildDir name || excludes.any (fun e => name = e)

/-- What the walks use of the build, the configuration and the system. -/
structure Env where
  kmodExts : List CStr
  /-- `cfg->excludes`. -/
  excludes : List CStr
  /-- `stat` succeeds for a path, in `kmod_module_new_from_path`. -/
  stats : CStr → Bool

/-- A file that is registered as a candidate for its module. -/
structure FoundModule where
  path : CStr
  mtime : Timespec
  deriving DecidableEq

/-- `depmod_modules_search_file`, up to the comparison of candidates. -/
def modulesSearchFile (env : Env) (base : CStr) (e : EntryFile) : List FoundModule :=
  if pathEndsWithKmodExt env.kmodExts e.name = false then []
  else if pathToModname (base ++ e.name) = none then []
  else if env.stats (base ++ e.name) then [⟨base ++ e.name, e.mtime⟩] else []

/-- `depmod_modules_search_dir`; `base` is the path with a slash at its end. -/
def modulesSearchDir (env : Env) : CStr → DirTree → List FoundModule
  | _, .done => []
  | base, .file e rest =>
    (if shouldExcludeDir env.excludes e.name then []
      else if e.dtReg || (e.fstatat && e.regular) then modulesSearchFile env base e
      else []) ++ modulesSearchDir env base rest
  | base, .subdir d sub rest =>
    (if shouldExcludeDir env.excludes d.name then []
      else if (d.dtDir || d.fstatat) && d.opens then modulesSearchDir env (base ++ d.name ++ [47]) sub
      else []) ++ modulesSearchDir env base rest

/-- `depmod_modules_search_path`. -/
def modulesSearchPath (env : Env) (root : SearchRoot) : List FoundModule :=
  if root.opens then modulesSearchDir env (root.path ++ [47]) root.tree else []

/-- `depmod_modules_search`: the candidates, of the module directory and of the external ones. -/
def modulesSearch (env : Env) (dirname : SearchRoot) (externals : List SearchRoot) :
    List FoundModule :=
  if dirname.opens then modulesSearchPath env dirname ++
    externals.flatMap (modulesSearchPath env) else []

def NAME_MAX : Nat := 255

/-- `depfile_up_to_date_dir`, with `err` as it is before the entries that are left. -/
def depfileUpToDateDir (kmodExts : List CStr) (ts : Timespec) : Nat → Int → DirTree → Int
  | _, err, .done => err
  | baselen, err, .file e rest =>
    if isDots e.name || isBuildDir e.name then depfileUpToDateDir kmodExts ts baselen err rest
    else if baselen + e.name.length + 2 ≥ PATH_MAX then depfileUpToDateDir kmodExts ts baselen err rest
    else if e.fstatat = false then depfileUpToDateDir kmodExts ts baselen err rest
    else if e.regular = false then depfileUpToDateDir kmodExts ts baselen err rest
    else if pathEndsWithKmodExt kmodExts e.name = false then depfileUpToDateDir kmodExts ts baselen err rest
    else if tsUsec e.mtime ≤ tsUsec ts then depfileUpToDateDir kmodExts ts baselen 1 rest
    else 0
  | baselen, err, .subdir d sub rest =>
    if isDots d.name || isBuildDir d.name then depfileUpToDateDir kmodExts ts baselen err rest
    else if baselen + d.name.length + 2 ≥ PATH_MAX then depfileUpToDateDir kmodExts ts baselen err rest
    else if d.fstatat = false then depfileUpToDateDir kmodExts ts baselen err rest
    else if baselen + d.name.length + 2 + NAME_MAX ≥ PATH_MAX then
      depfileUpToDateDir kmodExts ts baselen err rest
    else if d.opens = false then depfileUpToDateDir kmodExts ts baselen err rest
    else
      let err := depfileUpToDateDir kmodExts ts (baselen + d.name.length + 1) 1 sub
      if err = 0 then 0
      else if err < 0 then depfileUpToDateDir kmodExts ts baselen 1 rest
      else depfileUpToDateDir kmodExts ts baselen err rest

/--
`depfile_up_to_date`; `dep` is the time of `modules.dep`, if `fstatat` finds it, and
`errno` what is returned for an error.
-/
def depfileUpToDate (kmodExts : List CStr) (errno : Int) (dirname : SearchRoot)
    (dep : Option Timespec) : Int :=
  if dirname.opens = false then -errno
  else
    match dep with
    | none => -errno
    | some ts => depfileUpToDateDir kmodExts ts (dirname.path.length + 1) 1 dirname.tree

/-- `do_depmod` with `-A`, not to the standard output: the files are regenerated. -/
def quickRegenerates (kmodExts : List CStr) (errno : Int) (dirname : SearchRoot)
    (dep : Option Timespec) : Bool :=
  depfileUpToDate kmodExts errno dirname dep ≠ 1

/-! ## The files of a tree -/

/-- A file, and the directories from the root of the walk down to it. -/
structure TreeFile where
  dirs : List EntryDir
  file : EntryFile

def DirTree.files : List EntryDir → DirTree → List TreeFile
  | _, .done => []
  | dirs, .file e rest => ⟨dirs, e⟩ :: rest.files dirs
  | dirs, .subdir d sub rest => sub.files (dirs ++ [d]) ++ rest.files dirs

/-- The path to a file of a tree, with a slash at its end. -/
def dirsPath (base : CStr) (dirs : List EntryDir) : CStr :=
  base ++ dirs.flatMap (fun d => d.name ++ [47])

/--
The quick check looks at a file: it is a module that can be reached, its path has at most
4093 characters, and if it is in a subdirectory, the path up to there at most 3838.
-/
structure LookedAt (kmodExts : List CStr) (baselen : Nat) (t : TreeFile) : Prop where
  dirs : ∀ d ∈ t.dirs, isDots d.name = false ∧ isBuildDir d.name = false ∧ d.fstatat = true ∧
    d.opens = true
  name : isDots t.file.name = false ∧ isBuildDir t.file.name = false
  regular : t.file.fstatat = true ∧ t.file.regular = true
  ext : pathEndsWithKmodExt kmodExts t.file.name = true
  dirShort : t.dirs ≠ [] → baselen + (dirsPath [] t.dirs).length + 1 + NAME_MAX < PATH_MAX
  fileShort : baselen + (dirsPath [] t.dirs).length + t.file.name.length + 2 < PATH_MAX

theorem dirsPath_append (base : CStr) (dirs : List EntryDir) (d : EntryDir) :
    dirsPath base (dirs ++ [d]) = dirsPath base dirs ++ d.name ++ [47] := by
  simp [dirsPath]

theorem length_dirsPath_append (dirs : List EntryDir) (d : EntryDir) :
    (dirsPath [] (dirs ++ [d])).length = (dirsPath [] dirs).length + d.name.length + 1 := by
  rw [dirsPath_append, List.length_append, List.length_append]
  rfl

/-- The directories above the files of a subtree begin with those above the subtree. -/
theorem exists_dirs_append (tree : DirTree) :
    ∀ (dirs : List EntryDir), ∀ t ∈ tree.files dirs, ∃ more, t.dirs = dirs ++ more := by
  induction tree with
  | done => exact fun dirs t ht => absurd ht (by simp [DirTree.files])
  | file e rest ih =>
    intro dirs t ht
    rcases List.mem_cons.mp ht with rfl | ht
    · exact ⟨[], (List.append_nil _).symm⟩
    · exact ih dirs t ht
  | subdir d sub rest ihsub ihrest =>
    intro dirs t ht
    rcases List.mem_append.mp ht with ht | ht
    · obtain ⟨more, hmore⟩ := ihsub (dirs ++ [d]) t ht
      exact ⟨d :: more, by rw [hmore, List.append_assoc]; rfl⟩
    · exact ihrest dirs t ht

/-! ## The quick check -/

/-- The quick check finds that a file is newer. -/
def Outdates (kmodExts : List CStr) (ts : Timespec) (baselen : Nat) (t : TreeFile) : Prop :=
  LookedAt kmodExts baselen t ∧ tsUsec ts < tsUsec t.file.mtime

/-- The quick check compares the time of an entry. -/
def compares (kmodExts : List CStr) (baselen : Nat) (e : EntryFile) : Bool :=
  !(isDots e.name || isBuildDir e.name) && decide (baselen + e.name.length + 2 < PATH_MAX) && e.fstatat &&
    e.regular && pathEndsWithKmodExt kmodExts e.name

/-- The quick check goes into a directory. -/
def descends (baselen : Nat) (d : EntryDir) : Bool :=
  !(isDots d.name || isBuildDir d.name) && decide (baselen + d.name.length + 2 + NAME_MAX < PATH_MAX) &&
    d.fstatat && d.opens

section Quick

variable (kmodExts : List CStr) (ts : Timespec)

theorem depfileUpToDateDir_file (baselen : Nat) (e : EntryFile) (rest : DirTree) :
    depfileUpToDateDir kmodExts ts baselen 1 (.file e rest) =
      if compares kmodExts baselen e = true ∧ tsUsec ts < tsUsec e.mtime then 0
      else depfileUpToDateDir kmodExts ts baselen 1 rest := by
  rw [depfileUpToDateDir]
  unfold compares
  split
  · next h => simp [h]
  · next h1 =>
    split
    · next h => simp [Nat.not_lt.mpr h]
    · next h2 =>
      split
      · next h => simp [h]
      · next h3 =>
        split
        · next h => simp [h]
        · next h4 =>
          split
          · next h => simp [h]
          · next h5 =>
            have hall : (!(isDots e.name || isBuildDir e.name) &&
                decide (baselen + e.name.length + 2 < PATH_MAX) &&
                e.fstatat && e.regular && pathEndsWithKmodExt kmodExts e.name) = true := by
              simp_all
            rw [hall]
            split
            · next h => rw [if_neg (fun hc => absurd hc.2 (Nat.not_lt.mpr h))]
            · next h => rw [if_pos ⟨rfl, Nat.not_le.mp h⟩]

theorem depfileUpToDateDir_subdir (baselen : Nat) (d : EntryDir) (sub rest : DirTree)
    (hsub : descends baselen d = true →
      depfileUpToDateDir kmodExts ts (baselen + d.name.length + 1) 1 sub = 0 ∨
        depfileUpToDateDir kmodExts ts (baselen + d.name.length + 1) 1 sub = 1) :
    depfileUpToDateDir kmodExts ts baselen 1 (.subdir d sub rest) =
      if descends baselen d = true ∧
        depfileUpToDateDir kmodExts ts (baselen + d.name.length + 1) 1 sub = 0 then 0
      else depfileUpToDateDir kmodExts ts baselen 1 rest := by
  rw [depfileUpToDateDir]
  unfold descends at hsub ⊢
  split
  · next h => simp [h]
  · next h1 =>
    split
    · next h => rw [if_neg (by simp; omega)]
    · next h2 =>
      split
      · next h => simp [h]
      · next h3 =>
        split
        · next h => simp [Nat.not_lt.mpr h]
        · next h4 =>
          split
          · next h => simp [h]
          · next h5 =>
            have hall : (!(isDots d.name || isBuildDir d.name) &&
                decide (baselen + d.name.length + 2 + NAME_MAX < PATH_MAX) && d.fstatat && d.opens) = true := by
              simp_all
            rw [hall]
            rcases hsub hall with h | h
            · simp [h]
            · simp [h]

end Quick

/-- The quick check has got into the directories. -/
structure Inside (baselen : Nat) (dirs : List EntryDir) : Prop where
  each : ∀ d ∈ dirs, isDots d.name = false ∧ isBuildDir d.name = false ∧ d.fstatat = true ∧
    d.opens = true
  short : dirs ≠ [] → baselen + (dirsPath [] dirs).length + 1 + NAME_MAX < PATH_MAX

theorem Inside.lookedAt_iff {baselen : Nat} {dirs : List EntryDir} (h : Inside baselen dirs)
    (kmodExts : List CStr) (e : EntryFile) :
    LookedAt kmodExts baselen ⟨dirs, e⟩ ↔
      compares kmodExts (baselen + (dirsPath [] dirs).length) e = true := by
  simp only [compares, Bool.and_eq_true, Bool.not_eq_true', Bool.or_eq_false_iff, decide_eq_true_eq]
  constructor
  · rintro ⟨_, hname, hreg, hext, _, hshort⟩
    exact ⟨⟨⟨⟨hname, hshort⟩, hreg.1⟩, hreg.2⟩, hext⟩
  · rintro ⟨⟨⟨⟨hname, hshort⟩, hstat⟩, hreg⟩, hext⟩
    exact ⟨h.each, hname, ⟨hstat, hreg⟩, hext, h.short, hshort⟩

theorem Inside.append_iff {baselen : Nat} {dirs : List EntryDir} (h : Inside baselen dirs)
    (d : EntryDir) :
    Inside baselen (dirs ++ [d]) ↔ descends (baselen + (dirsPath [] dirs).length) d = true := by
  have hlen := length_dirsPath_append dirs d
  simp only [descends, Bool.and_eq_true, Bool.not_eq_true', Bool.or_eq_false_iff, decide_eq_true_eq]
  constructor
  · intro hin
    obtain ⟨hdots, hbuild, hstat, hopens⟩ := hin.each d (by simp)
    have hshort := hin.short (by simp)
    refine ⟨⟨⟨⟨hdots, hbuild⟩, ?_⟩, hstat⟩, hopens⟩
    omega
  · rintro ⟨⟨⟨⟨hdots, hbuild⟩, hshort⟩, hstat⟩, hopens⟩
    refine ⟨fun e he => ?_, fun _ => by omega⟩
    rcases List.mem_append.mp he with he | he
    · exact h.each e he
    · rw [List.mem_singleton.mp he]
      exact ⟨hdots, hbuild, hstat, hopens⟩

/-- What is looked at in a subtree is below directories that the check has got into. -/
theorem LookedAt.inside {kmodExts : List CStr} {baselen : Nat} {t : TreeFile}
    (h : LookedAt kmodExts baselen t)
    {dirs more : List EntryDir} (hdirs : t.dirs = dirs ++ more) : Inside baselen dirs := by
  refine ⟨fun d hd => h.dirs d (by rw [hdirs]; simp [hd]), fun hne => ?_⟩
  have hshort := h.dirShort (by rw [hdirs]; simp [hne])
  have hlen : (dirsPath [] t.dirs).length = (dirsPath [] dirs).length + (dirsPath [] more).length := by
    rw [hdirs]
    simp [dirsPath]
  omega

/-- **The quick check** says 0 if it looks at a newer file, and else 1. -/
theorem depfileUpToDateDir_cases (kmodExts : List CStr) (ts : Timespec) (baselen : Nat)
    (tree : DirTree) :
    ∀ dirs, Inside baselen dirs →
      (depfileUpToDateDir kmodExts ts (baselen + (dirsPath [] dirs).length) 1 tree = 0 ∧
          ∃ t ∈ tree.files dirs, Outdates kmodExts ts baselen t) ∨
        (depfileUpToDateDir kmodExts ts (baselen + (dirsPath [] dirs).length) 1 tree = 1 ∧
          ∀ t ∈ tree.files dirs, ¬ Outdates kmodExts ts baselen t) := by
  induction tree with
  | done => exact fun _ _ => .inr ⟨rfl, by simp [DirTree.files]⟩
  | file e rest ih =>
    intro dirs hin
    rw [depfileUpToDateDir_file]
    by_cases hnew : compares kmodExts (baselen + (dirsPath [] dirs).length) e = true ∧
      tsUsec ts < tsUsec e.mtime
    · rw [if_pos hnew]
      exact .inl ⟨rfl, ⟨dirs, e⟩, by simp [DirTree.files],
        (hin.lookedAt_iff kmodExts e).mpr hnew.1, hnew.2⟩
    · have hnot : ¬ Outdates kmodExts ts baselen ⟨dirs, e⟩ :=
        fun h => hnew ⟨(hin.lookedAt_iff kmodExts e).mp h.1, h.2⟩
      rw [if_neg hnew]
      rcases ih dirs hin with ⟨hzero, t, ht, hout⟩ | ⟨hone, hall⟩
      · exact .inl ⟨hzero, t, List.mem_cons_of_mem _ ht, hout⟩
      · refine .inr ⟨hone, fun t ht => ?_⟩
        rcases List.mem_cons.mp ht with rfl | ht
        · exact hnot
        · exact hall t ht
  | subdir d sub rest ihsub ihrest =>
    intro dirs hin
    have hlen := length_dirsPath_append dirs d
    have hsub : descends (baselen + (dirsPath [] dirs).length) d = true →
        _ := fun hd => ihsub (dirs ++ [d]) ((hin.append_iff d).mpr hd)
    rw [hlen, ← Nat.add_assoc, ← Nat.add_assoc] at hsub
    rw [depfileUpToDateDir_subdir kmodExts ts _ d sub rest
      (fun hd => (hsub hd).elim (fun h => .inl h.1) (fun h => .inr h.1))]
    by_cases hnew : descends (baselen + (dirsPath [] dirs).length) d = true ∧
        depfileUpToDateDir kmodExts ts (baselen + (dirsPath [] dirs).length + d.name.length + 1) 1 sub = 0
    · rw [if_pos hnew]
      rcases hsub hnew.1 with ⟨_, t, ht, hout⟩ | ⟨hone, _⟩
      · exact .inl ⟨rfl, t, List.mem_append_left _ ht, hout⟩
      · rw [hnew.2] at hone
        cases hone
    · have hnone : ∀ t ∈ sub.files (dirs ++ [d]), ¬ Outdates kmodExts ts baselen t := by
        intro t ht hout
        -- the check has got there, so it has found the file
        obtain ⟨more, hmore⟩ := exists_dirs_append sub (dirs ++ [d]) t ht
        have hd := (hin.append_iff d).mp (hout.1.inside hmore)
        rcases hsub hd with ⟨hzero, _⟩ | ⟨_, hall⟩
        · exact hnew ⟨hd, hzero⟩
        · exact hall t ht hout
      rw [if_neg hnew]
      rcases ihrest dirs hin with ⟨hzero, t, ht, hout⟩ | ⟨hone, hall⟩
      · exact .inl ⟨hzero, t, List.mem_append_right _ ht, hout⟩
      · refine .inr ⟨hone, fun t ht => ?_⟩
        rcases List.mem_append.mp ht with ht | ht
        · exact hnone t ht
        · exact hall t ht

/-! ## Agreement -/

/-- The files of the tree below a root. -/
def SearchRoot.files (root : SearchRoot) : List TreeFile := root.tree.files []

/--
**When the quick check is right.** That a candidate is newer than `modules.dep` makes it
regenerate the files, exactly if there is no such candidate, or if in the module directory
itself there is a file that the check looks at and that is newer in microseconds.
-/
theorem upToDate_agrees_iff (env : Env) (errno : Int) (dirname : SearchRoot)
    (externals : List SearchRoot)
    (dep : Option Timespec) :
    ((∃ f ∈ modulesSearch env dirname externals, ∃ ts ∈ dep, f.mtime.Newer ts) →
        depfileUpToDate env.kmodExts errno dirname dep ≠ 1 ∧
          quickRegenerates env.kmodExts errno dirname dep = true) ↔
      (¬ ∃ f ∈ modulesSearch env dirname externals, ∃ ts ∈ dep, f.mtime.Newer ts) ∨
        ∃ ts ∈ dep, ∃ t ∈ dirname.files, LookedAt env.kmodExts (dirname.path.length + 1) t ∧
          tsUsec ts < tsUsec t.file.mtime := by
  rw [imp_iff_not_or]
  by_cases hnewer : ∃ f ∈ modulesSearch env dirname externals, ∃ ts ∈ dep, f.mtime.Newer ts
  · rw [or_iff_right (not_not.mpr hnewer), or_iff_right (not_not.mpr hnewer)]
    -- there is something to find, so both can be read
    obtain ⟨f, hf, ts, hts, _⟩ := hnewer
    have hopens : dirname.opens = true := by
      by_contra hclosed
      rw [modulesSearch, if_neg hclosed] at hf
      cases hf
    obtain rfl : dep = some ts := hts
    have hcheck : depfileUpToDate env.kmodExts errno dirname (some ts)
        = depfileUpToDateDir env.kmodExts ts (dirname.path.length + 1) 1 dirname.tree := by
      rw [depfileUpToDate, if_neg (by simp [hopens])]
    rw [quickRegenerates, hcheck, decide_eq_true_iff, and_self]
    rcases depfileUpToDateDir_cases env.kmodExts ts (dirname.path.length + 1) dirname.tree []
      ⟨by simp, by simp⟩ with ⟨hzero, t, ht, hout⟩ | ⟨hone, hall⟩
    · have hzero' : depfileUpToDateDir env.kmodExts ts (dirname.path.length + 1) 1 dirname.tree = 0 := hzero
      rw [hzero']
      exact iff_of_true (by decide) ⟨ts, rfl, t, ht, hout⟩
    · have hone' : depfileUpToDateDir env.kmodExts ts (dirname.path.length + 1) 1 dirname.tree = 1 := hone
      rw [hone']
      refine iff_of_false (fun h => h rfl) ?_
      rintro ⟨ts', hts', t, ht, hout⟩
      obtain rfl := Option.some.inj hts'
      exact hall t ht hout
  · exact iff_of_true (.inl hnewer) (.inl hnewer)

/-- A module in an external directory, a day newer than `modules.dep`. -/
def newExternal : SearchRoot :=
  ⟨cstr "/ext", true, .file ⟨cstr "a.ko", true, true, fun _ => rfl, true, ⟨86400, 0⟩⟩ .done⟩

/-- The module is a candidate and newer, but the files are not regenerated. -/
theorem external_not_regenerated :
    modulesSearch ⟨[cstr ".ko"], [], fun _ => true⟩ ⟨cstr "/m", true, .done⟩ [newExternal]
        = [⟨cstr "/ext/a.ko", ⟨86400, 0⟩⟩] ∧
      Timespec.Newer ⟨86400, 0⟩ ⟨0, 0⟩ ∧
      depfileUpToDate [cstr ".ko"] 2 ⟨cstr "/m", true, .done⟩ (some ⟨0, 0⟩) = 1 ∧
      quickRegenerates [cstr ".ko"] 2 ⟨cstr "/m", true, .done⟩ (some ⟨0, 0⟩) = false := by
  decide

end Kmod.UpToDate
