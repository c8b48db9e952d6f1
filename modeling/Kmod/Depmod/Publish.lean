import Kmod.Base
import Mathlib.Logic.Function.Basic

/-!
# Publishing the index files

`depmod_output` writes every index to a temporary file in the output directory and then
renames it. What the callbacks write is the subject of other modules; here a callback is
what it returns, what it has written to the stream, and what became of the stream.

The temporary file is published before the state of its stream is looked at, so an index
that has been truncated does replace the old one (`truncated_published`). It is the only
way to lose an index (`depmodOutput_intact_iff`).
-/

namespace Kmod.Publish

/-! ## The model -/

/-- A file: which one it is, and what it holds. -/
structure DirFile where
  ino : Nat
  data : List UInt8
  deriving DecidableEq

/-- The files of the output directory, by name. -/
abbrev Directory := CStr → Option DirFile

/--
What happens to one index: the answers of the system, the result of the callback, and
what it has written.
-/
structure IndexRun where
  /-- The length of the path that `fd_lookup_path` finds. -/
  pathLen : Option Nat
  /-- Whether `mkstemp`, `fchmod` and `fdopen` succeed. -/
  mkstemp : Bool
  fchmod : Bool
  fdopen : Bool
  /-- The last six characters of the temporary name, and the new file. -/
  suffix : CStr
  ino : Nat
  /-- What the callback returns, and what it has handed to the stream. -/
  r : Int
  written : List UInt8
  /-- What has arrived in the file once the stream is closed. -/
  stored : List UInt8
  /-- `ferror(fp) | fclose(fp)` is not zero. -/
  ferr : Bool
  /-- The error of `renameat`, or zero. -/
  renameat : Int
  deriving DecidableEq

/-- A `struct tmpfile`. -/
structure Tmpfile where
  tmpname : CStr

/-- `tmpfile_openat`. The file is removed again if it cannot be used. -/
def tmpfileOpenat (dir : Directory) (run : IndexRun) : Option Tmpfile × Directory :=
  match run.pathLen with
  | none => (none, dir)
  | some n =>
    if n + (cstr "/tmpfileXXXXXX").length + 1 > PATH_MAX then (none, dir)
    else if run.mkstemp = false then (none, dir)
    else
      let tmpname := cstr "tmpfile" ++ run.suffix
      let created := Function.update dir tmpname (some ⟨run.ino, []⟩)
      if run.fchmod = false ∨ run.fdopen = false then (none, Function.update created tmpname none)
      else (some ⟨tmpname⟩, created)

/-- `renameat` within a directory, if it succeeds. -/
def renamed (dir : Directory) (oldname newname : CStr) : Directory :=
  Function.update (Function.update dir newname (dir oldname)) oldname none

/-- `tmpfile_publish`. -/
def tmpfilePublish (dir : Directory) (file : Tmpfile) (targetname : CStr) (run : IndexRun) :
    Int × Directory :=
  if run.renameat ≠ 0 then (-run.renameat, dir) else (0, renamed dir file.tmpname targetname)

/-- `tmpfile_release`. -/
def tmpfileRelease (dir : Directory) (file : Tmpfile) : Directory :=
  Function.update dir file.tmpname none

def depfiles : List CStr :=
  [cstr "modules.dep", cstr "modules.dep.bin", cstr "modules.alias", cstr "modules.alias.bin",
    cstr "modules.softdep", cstr "modules.weakdep", cstr "modules.symbols",
      cstr "modules.symbols.bin",
    cstr "modules.builtin.bin", cstr "modules.builtin.alias.bin", cstr "modules.devname"]

def ENOSPC : Int := 28

/-- The loop of `depmod_output`; `CRIT` exits. -/
def depmodOutputLoop (runs : CStr → IndexRun) :
    List CStr → Int → Directory → Except Fault Int × Directory
  | [], err, dir => (.ok err, dir)
  | name :: names, err, dir =>
    match tmpfileOpenat dir (runs name) with
    | (none, dir) => depmodOutputLoop runs names err dir
    | (some file, dir) =>
      -- the callback writes, and the stream is closed
      let dir := Function.update dir file.tmpname (some ⟨(runs name).ino, (runs name).stored⟩)
      if (runs name).r < 0 then (.ok (runs name).r, tmpfileRelease dir file)
      else
        match tmpfilePublish dir file name (runs name) with
        | (err, dir) =>
          if err ≠ 0 then (.error .exited, dir)
          else if (runs name).ferr then (.ok (-ENOSPC), dir)
          else depmodOutputLoop runs names err dir

/--
`depmod_output` to files: what it returns, and the directory. `mkdir` is the result of
`mkdir_p`, and `opened` says whether the directory can be opened.
-/
def depmodOutput (mkdir : Int) (opened : Bool) (runs : CStr → IndexRun) (dir : Directory) :
    Except Fault Int × Directory :=
  if mkdir < 0 ∨ opened = false then (.error .exited, dir)
  else depmodOutputLoop runs depfiles 0 dir

/-! ## What is to hold -/

/-- `tmpfile_openat` succeeds. -/
def IndexRun.opens (run : IndexRun) : Bool :=
  run.pathLen.any (fun n => n + (cstr "/tmpfileXXXXXX").length + 1 ≤ PATH_MAX) &&
    run.mkstemp && run.fchmod && run.fdopen

/-- The callback or the stream has failed. -/
def IndexRun.Failed (run : IndexRun) : Prop := run.r < 0 ∨ run.ferr = true

/-- What is known of the system: files are new, and a stream without an error has been written. -/
structure Lawful (dir : Directory) (runs : CStr → IndexRun) : Prop where
  fresh : ∀ name file, dir name = some file → ∀ index, file.ino ≠ (runs index).ino
  complete : ∀ index, (runs index).ferr = false → (runs index).stored = (runs index).written

/--
What is promised for an index: after the run there is the file that was there before, or
a new one that has been written completely; and a file that failed is not there.
-/
structure Intact (dir dir' : Directory) (run : IndexRun) (name : CStr) : Prop where
  kept : dir' name = dir name ∨ (¬ run.Failed ∧ dir' name = some ⟨run.ino, run.written⟩)
  unpublished : run.Failed → ∀ file, dir' name = some file → file.ino ≠ run.ino

/-- The temporary file is renamed. -/
def IndexRun.Renames (run : IndexRun) : Prop := run.opens = true ∧ 0 ≤ run.r ∧ run.renameat = 0

/-- The loop goes on to the next index. -/
def IndexRun.GoesOn (run : IndexRun) : Prop := run.opens = false ∨ (run.Renames ∧ run.ferr = false)

instance (run : IndexRun) : Decidable run.Renames := inferInstanceAs (Decidable (_ ∧ _))
instance (run : IndexRun) : Decidable run.GoesOn := inferInstanceAs (Decidable (_ ∨ _))

/-! ## One index -/

/-- Nothing has happened to the indexes. -/
def SameIndexes (dir dir' : Directory) : Prop := ∀ n ∈ depfiles, dir' n = dir n

theorem tmpname_ne {name : CStr} (hname : name ∈ depfiles) (suffix : CStr) :
    name ≠ cstr "tmpfile" ++ suffix := by
  have hfirst : ∀ n ∈ depfiles, n.head? = some 109 := by decide
  rintro rfl
  have := hfirst _ hname
  simp [cstr] at this

/-- The name of a temporary file is not that of an index. -/
theorem SameIndexes.update {dir dir' : Directory} (h : SameIndexes dir dir') (suffix : CStr)
    (file : Option DirFile) : SameIndexes dir (Function.update dir' (cstr "tmpfile" ++ suffix) file) := by
  intro n hn
  rw [Function.update_of_ne (tmpname_ne hn suffix)]
  exact h n hn

theorem tmpfileOpenat_cases (dir : Directory) (run : IndexRun) :
    ∃ dir', SameIndexes dir dir' ∧
      ((run.opens = false ∧ tmpfileOpenat dir run = (none, dir')) ∨
        (run.opens = true ∧ tmpfileOpenat dir run = (some ⟨cstr "tmpfile" ++ run.suffix⟩, dir'))) := by
  have hsame : SameIndexes dir dir := fun _ _ => rfl
  unfold tmpfileOpenat IndexRun.opens
  cases hlen : run.pathLen with
  | none => exact ⟨dir, hsame, .inl ⟨by simp, rfl⟩⟩
  | some n =>
    dsimp only
    by_cases hlong : n + (cstr "/tmpfileXXXXXX").length + 1 > PATH_MAX
    · refine ⟨dir, hsame, .inl ⟨?_, if_pos hlong⟩⟩
      rw [Option.any_some, decide_eq_false (Nat.not_le.mpr hlong), Bool.false_and, Bool.false_and,
        Bool.false_and]
    · rw [if_neg hlong, Option.any_some, decide_eq_true (Nat.not_lt.mp hlong), Bool.true_and]
      by_cases htemp : run.mkstemp = false
      · refine ⟨dir, hsame, .inl ⟨?_, if_pos htemp⟩⟩
        rw [htemp, Bool.false_and, Bool.false_and]
      · rw [if_neg htemp, Bool.eq_true_of_not_eq_false htemp, Bool.true_and]
        have hcreated := hsame.update run.suffix (some ⟨run.ino, []⟩)
        by_cases hunusable : run.fchmod = false ∨ run.fdopen = false
        · rw [if_pos hunusable]
          refine ⟨_, hcreated.update run.suffix none, .inl ⟨?_, rfl⟩⟩
          rcases hunusable with hmode | hopen
          · rw [hmode, Bool.false_and]
          · rw [hopen, Bool.and_false]
        · rw [if_neg hunusable]
          rw [not_or, Bool.not_eq_false, Bool.not_eq_false] at hunusable
          exact ⟨_, hcreated, .inr ⟨by rw [hunusable.1, hunusable.2]; rfl, rfl⟩⟩

theorem not_goesOn {run : IndexRun} (hopens : run.opens = true)
    (h : ¬ (run.Renames ∧ run.ferr = false)) :
    ¬ run.GoesOn := by
  rintro (hclosed | hgo)
  · rw [hopens] at hclosed
    cases hclosed
  · exact h hgo

/--
One round of the loop. Exactly the index that is renamed changes, and the loop stops
unless it goes on.
-/
theorem depmodOutputLoop_cons (runs : CStr → IndexRun) (name : CStr) (names : List CStr) (err : Int)
    (dir : Directory) :
    ∃ dir', (∀ n ∈ depfiles, dir' n = if n = name ∧ (runs name).Renames
        then some ⟨(runs name).ino, (runs name).stored⟩ else dir n) ∧
      if (runs name).GoesOn
        then ∃ err', depmodOutputLoop runs (name :: names) err dir =
          depmodOutputLoop runs names err' dir'
        else (depmodOutputLoop runs (name :: names) err dir).2 = dir' := by
  obtain ⟨dir₁, hsame, ⟨hopens, hopen⟩ | ⟨hopens, hopen⟩⟩ := tmpfileOpenat_cases dir (runs name)
  · -- there is no temporary file
    have hno : ¬ (runs name).Renames := fun hr => by simp [hr.1] at hopens
    refine ⟨dir₁, fun n hn => ?_, ?_⟩
    · rw [if_neg (fun hc => hno hc.2), hsame n hn]
    · rw [if_pos (.inl hopens)]
      exact ⟨err, by rw [depmodOutputLoop, hopen]⟩
  · -- the callback has written to the file, and the stream is closed
    obtain ⟨closed, hclosed_eq⟩ : ∃ dir₂, Function.update dir₁ (cstr "tmpfile" ++ (runs name).suffix)
        (some ⟨(runs name).ino, (runs name).stored⟩) = dir₂ := ⟨_, rfl⟩
    have hclosed := hsame.update (runs name).suffix (some ⟨(runs name).ino, (runs name).stored⟩)
    rw [hclosed_eq] at hclosed
    by_cases hr : (runs name).r < 0
    · have hno : ¬ (runs name).Renames := fun h => absurd h.2.1 (Int.not_le.mpr hr)
      refine ⟨tmpfileRelease closed ⟨cstr "tmpfile" ++ (runs name).suffix⟩, fun n hn => ?_, ?_⟩
      · rw [if_neg (fun hc => hno hc.2)]
        exact hclosed.update (runs name).suffix none n hn
      · rw [if_neg (not_goesOn hopens (fun hg => hno hg.1))]
        simp only [depmodOutputLoop, hopen, hclosed_eq, if_pos hr]
    · by_cases hrename : (runs name).renameat = 0
      · -- the file is published, whatever the state of its stream is
        have hyes : (runs name).Renames := ⟨hopens, Int.not_lt.mp hr, hrename⟩
        refine ⟨renamed closed (cstr "tmpfile" ++ (runs name).suffix) name, fun n hn => ?_, ?_⟩
        · rw [renamed, Function.update_of_ne (tmpname_ne hn _)]
          by_cases hn' : n = name
          · rw [if_pos ⟨hn', hyes⟩, hn', Function.update_self, ← hclosed_eq, Function.update_self]
          · rw [if_neg (fun hc => hn' hc.1), Function.update_of_ne hn', hclosed n hn]
        · cases hferr : (runs name).ferr with
          | false =>
            rw [if_pos (.inr ⟨hyes, hferr⟩)]
            refine ⟨0, ?_⟩
            simp [depmodOutputLoop, hopen, hclosed_eq, hr, tmpfilePublish, hrename, hferr]
          | true =>
            rw [if_neg (not_goesOn hopens (fun hg => by simp [hferr] at hg))]
            simp [depmodOutputLoop, hopen, hclosed_eq, hr, tmpfilePublish, hrename, hferr]
      · have hno : ¬ (runs name).Renames := fun h => hrename h.2.2
        refine ⟨closed, fun n hn => ?_, ?_⟩
        · rw [if_neg (fun hc => hno hc.2)]
          exact hclosed n hn
        · rw [if_neg (not_goesOn hopens (fun hg => hno hg.1))]
          simp [depmodOutputLoop, hopen, hclosed_eq, hr, tmpfilePublish, hrename]

/-! ## The loop -/

/-- The loop gets as far as an index. -/
def Reaches (runs : CStr → IndexRun) (names : List CStr) (name : CStr) : Prop :=
  ∃ before after, names = before ++ name :: after ∧ ∀ n ∈ before, (runs n).GoesOn

theorem reaches_cons {runs : CStr → IndexRun} {first name : CStr} {names : List CStr} :
    Reaches runs (first :: names) name ↔ name = first ∨
      ((runs first).GoesOn ∧ Reaches runs names name) := by
  constructor
  · rintro ⟨before, after, heq, hgo⟩
    cases before with
    | nil => exact .inl (List.cons.inj heq).1.symm
    | cons b before =>
      obtain ⟨rfl, rfl⟩ := List.cons.inj heq
      exact .inr ⟨hgo first (by simp), before, after, rfl,
        fun n hn => hgo n (List.mem_cons_of_mem _ hn)⟩
  · rintro (rfl | ⟨hfirst, before, after, rfl, hgo⟩)
    · exact ⟨[], names, rfl, by simp⟩
    · refine ⟨first :: before, after, rfl, fun n hn => ?_⟩
      rcases List.mem_cons.mp hn with rfl | hn
      · exact hfirst
      · exact hgo n hn

/-- The indexes that are reached and renamed are replaced, the others stay. -/
theorem depmodOutputLoop_dir (runs : CStr → IndexRun) :
    ∀ (names : List CStr) (err : Int) (dir : Directory), names.Nodup →
      ∀ n ∈ depfiles,
        ((Reaches runs names n ∧ (runs n).Renames) →
          (depmodOutputLoop runs names err dir).2 n = some ⟨(runs n).ino, (runs n).stored⟩) ∧
        (¬ (Reaches runs names n ∧ (runs n).Renames) →
          (depmodOutputLoop runs names err dir).2 n = dir n) := by
  intro names
  induction names with
  | nil =>
    intro err dir _ n _
    refine ⟨?_, fun _ => rfl⟩
    rintro ⟨⟨before, after, heq, _⟩, _⟩
    simp at heq
  | cons name names ih =>
    intro err dir hnodup n hn
    obtain ⟨hnot, hnodup'⟩ := List.nodup_cons.mp hnodup
    obtain ⟨dir', hdir', hloop⟩ := depmodOutputLoop_cons runs name names err dir
    have hunreached : ¬ Reaches runs names name := by
      rintro ⟨before, after, rfl, _⟩
      exact hnot (by simp)
    rw [reaches_cons]
    have hn' := hdir' n hn
    by_cases hgo : (runs name).GoesOn
    · rw [if_pos hgo] at hloop
      obtain ⟨err', hloop⟩ := hloop
      obtain ⟨hyes, hno⟩ := ih err' dir' hnodup' n hn
      rw [hloop]
      by_cases heq : n = name
      · subst heq
        rw [hno (fun hc => hunreached hc.1), hn']
        simp +contextual
      · rw [if_neg (fun hc => heq hc.1)] at hn'
        simp only [heq, hgo, false_or, true_and]
        exact ⟨hyes, fun hc => (hno hc).trans hn'⟩
    · rw [if_neg hgo] at hloop
      rw [hloop, hn']
      simp +contextual [hgo]

theorem depfiles_nodup : depfiles.Nodup := by decide

/--
**When indexes survive.** Every index is the one that was there or a complete new one,
and none that failed is published, exactly if the output directory cannot be used, or no
stream fails of an index that the loop reaches, that has a temporary file, whose callback
returns no error and that can be renamed.
-/
theorem depmodOutput_intact_iff {dir : Directory} {runs : CStr → IndexRun} (hsys : Lawful dir runs)
    (mkdir : Int) (opened : Bool) :
    (∀ name ∈ depfiles, Intact dir (depmodOutput mkdir opened runs dir).2 (runs name) name) ↔
      mkdir < 0 ∨ opened = false ∨
        ∀ name ∈ depfiles, Reaches runs depfiles name → (runs name).Renames →
          (runs name).ferr = false := by
  have hkept : ∀ (dir' : Directory) (name : CStr), dir' name = dir name →
      Intact dir dir' (runs name) name := by
    intro dir' name heq
    refine ⟨.inl heq, fun _ file hfile => hsys.fresh name file ?_ name⟩
    rw [← heq, hfile]
  by_cases hdir : mkdir < 0 ∨ opened = false
  · have hsame : (depmodOutput mkdir opened runs dir).2 = dir := by rw [depmodOutput, if_pos hdir]
    rw [hsame]
    refine ⟨fun _ => hdir.elim .inl (fun h => .inr (.inl h)), fun _ name _ => hkept dir name rfl⟩
  · have hout : depmodOutput mkdir opened runs dir =
      depmodOutputLoop runs depfiles 0 dir := if_neg hdir
    rw [hout, ← or_assoc, or_iff_right hdir]
    refine forall₂_congr (fun name hname => ?_)
    obtain ⟨hyes, hno⟩ := depmodOutputLoop_dir runs depfiles 0 dir depfiles_nodup name hname
    by_cases hpublished : Reaches runs depfiles name ∧ (runs name).Renames
    · have hfile := hyes hpublished
      simp only [hpublished.1, hpublished.2, true_implies]
      constructor
      · intro hintact
        by_contra hferr
        exact hintact.unpublished (.inr (Bool.eq_true_of_not_eq_false hferr)) _ hfile rfl
      · intro hferr
        have hgood : ¬ (runs name).Failed := by
          rintro (hr | hf)
          · exact absurd hpublished.2.2.1 (Int.not_le.mpr hr)
          · rw [hferr] at hf
            cases hf
        refine ⟨.inr ⟨hgood, ?_⟩, fun hfailed => absurd hfailed hgood⟩
        rw [hfile, hsys.complete name hferr]
    · refine ⟨fun _ hreach hren => absurd ⟨hreach, hren⟩ hpublished,
        fun _ => hkept _ name (hno hpublished)⟩

/-- An index of one byte. -/
def writtenRun : IndexRun := ⟨some 4, true, true, true, cstr "a1b2c3", 7, 0, [10], [10], false, 0⟩

/-- The same on a full disk: nothing of it arrives. -/
def truncatedRun : IndexRun := { writtenRun with stored := [], ferr := true }

/-- There is an old `modules.dep`. -/
def oldDirectory : Directory :=
  fun name => if name = cstr "modules.dep" then some ⟨1, [35, 10]⟩ else none

theorem oldDirectory_lawful {run : IndexRun} (hino : run.ino = 7)
    (hcomplete : run.ferr = false → run.stored = run.written) :
    Lawful oldDirectory (fun _ => run) := by
  refine ⟨fun name file hfile _ => ?_, fun _ => hcomplete⟩
  unfold oldDirectory at hfile
  split at hfile
  · obtain rfl := Option.some.inj hfile
    rw [hino]
    decide
  · cases hfile

/-- Every index is written. -/
theorem depmodOutput_intact_iff_written :
    Lawful oldDirectory (fun _ => writtenRun) ∧
      ∀ name ∈ depfiles, Intact oldDirectory
        (depmodOutput 0 true (fun _ => writtenRun) oldDirectory).2 writtenRun name := by
  have hsys : Lawful oldDirectory (fun _ => writtenRun) := oldDirectory_lawful rfl (fun _ => rfl)
  exact ⟨hsys, (depmodOutput_intact_iff hsys 0 true).mpr (.inr (.inr (fun _ _ _ _ => rfl)))⟩

/-- The disk is full: the old `modules.dep` is replaced by an empty one. -/
theorem truncated_published :
    Lawful oldDirectory (fun _ => truncatedRun) ∧
      oldDirectory (cstr "modules.dep") = some ⟨1, [35, 10]⟩ ∧
      (depmodOutput 0 true (fun _ => truncatedRun) oldDirectory).2 (cstr "modules.dep") =
        some ⟨7, []⟩ ∧
      ¬ Intact oldDirectory (depmodOutput 0 true (fun _ => truncatedRun) oldDirectory).2 truncatedRun
        (cstr "modules.dep") := by
  have hfile : (depmodOutput 0 true (fun _ => truncatedRun) oldDirectory).2 (cstr "modules.dep")
      = some ⟨7, []⟩ := by decide
  refine ⟨oldDirectory_lawful rfl (fun h => by cases h), by decide, hfile, fun hintact => ?_⟩
  exact hintact.unpublished (.inr rfl) _ hfile rfl

end Kmod.Publish
