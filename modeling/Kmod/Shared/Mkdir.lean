import Kmod.Base
import Kmod.Lib.Memory
import Kmod.Lib.Bytes
import Kmod.Lib.Segments

/-!
# Creating a directory and its parents

`mkdir_p` copies the path and cuts the copy at its slashes, from the end, until what is left
is a directory. Then it puts the slashes back, one after the other, and creates what the
string is each time.

At every moment the copy is the path with some of its slashes overwritten with NUL
(`cutBuf`). Going back, the string before the first NUL is tested one cut after it has been
made; going forward, its parent is always a directory. So what is created is what was
missing (`mkdirP_creates`).
-/

namespace Kmod.Mkdir

open Kmod Memory Bytes Segments

/-! ## Files and directories -/

def ENOTDIR : Int := 20

/-- What a process sees: places are lists of names, from the root on. -/
structure FileSystem where
  dir : List CStr → Bool
  /-- What is there and is no directory. -/
  file : List CStr → Bool
  cwd : List CStr
  root : dir [] = true
  closed : ∀ l c, dir (l ++ [c]) = true → dir l = true
  disjoint : ∀ l, dir l = true → file l = false
  cwd_dir : dir cwd = true

namespace FileSystem

variable (fs : FileSystem)

/-- Where a path starts. -/
def base (path : CStr) : List CStr := if path.head? = some 47 then [] else fs.cwd

/-- The place that a path names; a slash more or one at the end does not matter. -/
def loc (path : CStr) : List CStr := fs.base path ++ segments 47 path

/-- What the system says of a place where nothing is. -/
def missing (l : List CStr) : Int := if l.inits.any fs.file then ENOTDIR else ENOENT

theorem dir_of_append {l : List CStr} :
    ∀ {m : List CStr}, fs.dir (l ++ m) = true → fs.dir l = true := by
  intro m
  induction m using List.reverseRecOn with
  | nil => exact fun h => (List.append_nil l) ▸ h
  | append_singleton m c ih =>
    intro h
    rw [← List.append_assoc] at h
    exact ih (fs.closed _ c h)

theorem dir_dropLast {l : List CStr} (h : fs.dir l = true) : fs.dir l.dropLast = true := by
  rcases List.eq_nil_or_concat l with rfl | ⟨l, c, rfl⟩
  · exact h
  · rw [List.concat_eq_append] at h ⊢
    rw [List.dropLast_concat]
    exact fs.closed l c h

/-- The file system with a directory more. -/
def add (l : List CStr) (hparent : fs.dir l.dropLast = true) (hfile : fs.file l = false) :
    FileSystem where
  dir := fun x => x == l || fs.dir x
  file := fs.file
  cwd := fs.cwd
  root := by rw [fs.root, Bool.or_true]
  closed := by
    intro x c h
    rw [Bool.or_eq_true, beq_iff_eq] at h ⊢
    rcases h with rfl | h
    · rw [List.dropLast_concat] at hparent
      exact Or.inr hparent
    · exact Or.inr (fs.closed x c h)
  disjoint := by
    intro x h
    rw [Bool.or_eq_true, beq_iff_eq] at h
    rcases h with rfl | h
    · exact hfile
    · exact fs.disjoint x h
  cwd_dir := by rw [fs.cwd_dir, Bool.or_true]

end FileSystem

/-- The file system, and the calls of `mkdir` so far: the place, and the file system before. -/
structure Disk where
  fs : FileSystem
  calls : List (FileSystem × List CStr)

/-- `stat(path)` tells that it is a directory, or something else, or the error. -/
def isDir (s : Disk) (path : CStr) : Int :=
  if path = [] then -ENOENT
  else if s.fs.dir (s.fs.loc path) then 1
  else if s.fs.file (s.fs.loc path) then 0
  else -s.fs.missing (s.fs.loc path)

/-- `mkdir`: 0 or `errno`. -/
def mkdir (s : Disk) (path : CStr) : Int × Disk :=
  let l := s.fs.loc path
  let calls := s.calls ++ [(s.fs, l)]
  if path = [] then (ENOENT, ⟨s.fs, calls⟩)
  else if s.fs.dir l = true then (EEXIST, ⟨s.fs, calls⟩)
  else if hfile : s.fs.file l = false then
    if hparent : s.fs.dir l.dropLast = true then (0, ⟨s.fs.add l hparent hfile, calls⟩)
    else (s.fs.missing l, ⟨s.fs, calls⟩)
  else (EEXIST, ⟨s.fs, calls⟩)

/-! ## The model -/

/-- `while (end > start && *end != '/') end--` -/
def toSlash (buf : List UInt8) : Nat → Except Fault Nat
  | 0 => .ok 0
  | e + 1 => do
    let c ← inBlock buf[e + 1]?
    if c ≠ 47 then toSlash buf e else .ok (e + 1)

/-- `while (end > start && *(end - 1) == '/') end--` -/
def overSlashes (buf : List UInt8) : Nat → Except Fault Nat
  | 0 => .ok 0
  | e + 1 => do
    let c ← inBlock buf[e]?
    if c = 47 then overSlashes buf e else .ok (e + 1)

/-- The scan backwards ends with a return, or goes on with the copy and `end`. -/
abbrev ScanResult := Except Int (List UInt8 × Nat)

/-- The scan backwards. -/
def scanBack (s : Disk) (len : Nat) : Nat → List UInt8 → Nat → Except Fault ScanResult
  | 0, _, _ => .error .outOfFuel
  | fuel + 1, buf, e => do
    let start ← stringAt buf 0
    let r := isDir s start
    if 0 < r then do
      let rest ← stringAt buf e
      let e := e + rest.length
      if e = len then .ok (.error 0)
      else do
        let buf ← inBlock (putRange buf e [47])
        .ok (.ok (buf, e))
    else if r = 0 then .ok (.error (-ENOTDIR))
    else if e = 0 then .ok (.ok (buf, e))
    else do
      let buf ← inBlock (putRange buf e [0])
      let e ← toSlash buf e
      let e ← overSlashes buf e
      scanBack s len fuel buf e

/-- The second loop, which creates. -/
def createForward (len : Nat) : Nat → List UInt8 → Nat → Disk → Except Fault (Int × Disk)
  | 0, _, _, _ => .error .outOfFuel
  | fuel + 1, buf, e, s =>
    if e < len then do
      let start ← stringAt buf 0
      let (errno, s) := mkdir s start
      if errno ≠ 0 ∧ errno ≠ EEXIST then .ok (-errno, s)
      else do
        let rest ← stringAt buf e
        let e := e + rest.length
        let buf ← inBlock (putRange buf e [47])
        createForward len fuel buf e s
    else .ok (0, s)

/-- `mkdir_p` on a string in memory; `memdup` is whether there is memory for the copy. -/
def mkdirP (memdup : Bool) (fuel : Nat) (s : Disk) (path : List UInt8) (len : Nat) :
    Except Fault (Int × Disk) :=
  if memdup = false then .ok (-ENOMEM, s)
  else do
    let buf ← inBlock (getRange path 0 (len + 1))
    let buf ← inBlock (putRange buf len [0])
    match ← scanBack s len fuel buf len with
    | .error r => .ok (r, s)
    | .ok (buf, e) => createForward len fuel buf e s

/-! ## The copy -/

/-- The copy: a path, and what was cut off from it, piece after piece. -/
def cutBuf (V : CStr) : List CStr → List UInt8
  | [] => V ++ [0]
  | X :: Xs => V ++ 0 :: cutBuf X Xs

/-- The path with its slashes back. -/
def joined (V : CStr) : List CStr → CStr
  | [] => V
  | X :: Xs => V ++ 47 :: joined X Xs

theorem joined_cons (V X : CStr) (Xs : List CStr) :
    joined (V ++ 47 :: X) Xs = joined V (X :: Xs) := by
  cases Xs with
  | nil => rfl
  | cons Y Xs => simp [joined]

theorem exists_cutBuf_eq (V : CStr) (Xs : List CStr) : ∃ rest, cutBuf V Xs = V ++ 0 :: rest := by
  cases Xs with
  | nil => exact ⟨[], rfl⟩
  | cons X Xs => exact ⟨_, rfl⟩

/-- The string in the first piece, from an offset on. -/
theorem stringAt_cutBuf {V : CStr} (hnul : 0 ∉ V) (Xs : List CStr) {p : Nat} (hp : p ≤ V.length) :
    stringAt (cutBuf V Xs) p = .ok (V.drop p) := by
  obtain ⟨rest, hrest⟩ := exists_cutBuf_eq V Xs
  have hdrop : 0 ∉ V.drop p := fun h => hnul (List.mem_of_mem_drop h)
  refine stringAt_of_eq (V.take p) rest ?_ ?_ hdrop
  · rw [← List.append_assoc, List.take_append_drop, hrest]
  · rw [List.length_take]
    exact (Nat.min_eq_left hp).symm

/-- A slash is put back. -/
theorem putRange_slash (V X : CStr) (Xs : List CStr) :
    putRange (cutBuf V (X :: Xs)) V.length [47] = some (cutBuf (V ++ 47 :: X) Xs) := by
  have hput : putRange (V ++ 0 :: cutBuf X Xs) V.length [47] = some (V ++ 47 :: cutBuf X Xs) :=
    putRange_append V (0 :: cutBuf X Xs) [47] (by simp)
  refine hput.trans (congrArg some ?_)
  cases Xs with
  | nil => simp [cutBuf]
  | cons Y Xs => simp [cutBuf]

/-- A slash is cut. -/
theorem putRange_cut (V X : CStr) (Xs : List CStr) :
    putRange (cutBuf (V ++ 47 :: X) Xs) V.length [0] = some (cutBuf V (X :: Xs)) := by
  have hbuf : cutBuf (V ++ 47 :: X) Xs = V ++ 47 :: cutBuf X Xs := by
    cases Xs with
    | nil => simp [cutBuf]
    | cons Y Xs => simp [cutBuf]
  rw [hbuf]
  exact putRange_append V (47 :: cutBuf X Xs) [0] (by simp)

/-- The NUL at the end, which is there already. -/
theorem putRange_nul (V : CStr) (Xs : List CStr) :
    putRange (cutBuf V Xs) V.length [0] = some (cutBuf V Xs) := by
  obtain ⟨rest, hrest⟩ := exists_cutBuf_eq V Xs
  rw [hrest]
  exact putRange_append V (0 :: rest) [0] (by simp)

/-! ## Going back -/

/-- A path without its last name and the slashes before it. -/
def stem (V : CStr) : CStr := (V.rdropWhile (· ≠ 47)).rdropWhile (· = 47)

theorem toSlash_eq {U : CStr} {c : UInt8} (hc : c ≠ 47) (l : List UInt8) :
    toSlash (U ++ c :: l) U.length = .ok ((U.rdropWhile (· ≠ 47)).length - 1) := by
  induction U using List.reverseRecOn generalizing c l with
  | nil => rfl
  | append_singleton U d ih =>
    have hget : (U ++ [d] ++ c :: l)[U.length + 1]? = some c := by
      rw [List.getElem?_append_right (by simp)]
      simp
    rw [List.length_append, List.length_singleton, toSlash, hget, inBlock_some, ok_bind, if_pos hc]
    by_cases hd : d = 47
    · subst hd
      rw [List.rdropWhile_concat_neg _ _ _ (by simp), List.length_append, List.length_singleton]
      cases hU : U.length with
      | zero => rfl
      | succ n =>
        have hget' : (U ++ [47] ++ c :: l)[n + 1]? = some 47 := by
          rw [← hU]
          simp
        rw [toSlash, hget', inBlock_some, ok_bind, if_neg (not_not.2 rfl), Nat.add_sub_cancel]
    · rw [List.rdropWhile_concat_pos _ _ _ (by simpa using hd), List.append_assoc]
      exact ih hd (c :: l)

theorem overSlashes_eq (U : CStr) (l : List UInt8) :
    overSlashes (U ++ l) U.length = .ok (U.rdropWhile (· = 47)).length := by
  induction U using List.reverseRecOn generalizing l with
  | nil => rfl
  | append_singleton U d ih =>
    have hget : (U ++ [d] ++ l)[U.length]? = some d := by simp
    rw [List.length_append, List.length_singleton, overSlashes, hget, inBlock_some, ok_bind]
    by_cases hd : d = 47
    · rw [if_pos hd, List.rdropWhile_concat_pos _ _ _ (by simpa using hd), List.append_assoc]
      exact ih ([d] ++ l)
    · rw [if_neg hd, List.rdropWhile_concat_neg _ _ _ (by simpa using hd)]
      simp

theorem rdropWhile_append_rtakeWhile (p : UInt8 → Bool) (l : List UInt8) :
    l = l.rdropWhile p ++ l.rtakeWhile p := List.rdropWhile_append_rtakeWhile.symm

/-- **Going back** from a cut stops where the path without its last name ends. -/
theorem back_eq (U : CStr) (l : List UInt8) :
    (toSlash (U ++ 0 :: l) U.length >>= fun e => overSlashes (U ++ 0 :: l) e)
      = .ok (stem U).length := by
  rw [toSlash_eq (by decide), ok_bind]
  unfold stem
  have hsplit := rdropWhile_append_rtakeWhile (· ≠ 47) U
  rcases List.eq_nil_or_concat (U.rdropWhile (· ≠ 47)) with hnil | ⟨A, d, hA⟩
  · rw [hnil]
    rfl
  · rw [List.concat_eq_append] at hA
    have hd : d = 47 := by
      have hlast := List.rdropWhile_last_not (fun c : UInt8 => decide (c ≠ 47)) U (by rw [hA]; simp)
      simp only [hA, List.getLast_append_singleton] at hlast
      simpa using hlast
    subst hd
    rw [hA] at hsplit ⊢
    rw [List.length_append, List.length_singleton, Nat.add_sub_cancel,
      List.rdropWhile_concat_pos _ _ _ (by simp), hsplit, List.append_assoc, List.append_assoc]
    exact overSlashes_eq A _

/-- What the last name and the slashes before it are. -/
theorem exists_stem_eq (V : CStr) :
    ∃ k w, V = stem V ++ (List.replicate k 47 ++ w) ∧ 47 ∉ w ∧ (stem V ≠ [] → 0 < k) := by
  have hname := rdropWhile_append_rtakeWhile (· ≠ 47) V
  have hslashes := rdropWhile_append_rtakeWhile (· = 47) (V.rdropWhile (· ≠ 47))
  have hall : ∀ c ∈ (V.rdropWhile (· ≠ 47)).rtakeWhile (· = 47), c = 47 :=
    fun c hc => by simpa using List.mem_rtakeWhile_imp hc
  obtain ⟨k, hk⟩ : ∃ k, (V.rdropWhile (· ≠ 47)).rtakeWhile (· = 47) = List.replicate k 47 :=
    ⟨_, List.eq_replicate_iff.2 ⟨rfl, hall⟩⟩
  refine ⟨k, V.rtakeWhile (· ≠ 47), ?_, fun hmem => ?_, fun hne => ?_⟩
  · rw [← hk, ← List.append_assoc]
    unfold stem
    rw [← hslashes]
    exact hname
  · simpa using List.mem_rtakeWhile_imp hmem
  · -- without a slash, a name would end in one
    rcases Nat.eq_zero_or_pos k with rfl | hk'
    · rw [hk, List.replicate_zero, List.append_nil] at hslashes
      have hne' : V.rdropWhile (· ≠ 47) ≠ [] := by
        rw [hslashes]
        exact hne
      have hlast := List.rdropWhile_last_not _ _ hne'
      have hlast' := List.rdropWhile_last_not (fun c : UInt8 => decide (c = 47)) _ hne
      simp only [← hslashes] at hlast'
      rw [decide_eq_true_eq, not_not] at hlast
      exact absurd (decide_eq_true hlast) hlast'
    · exact hk'

/-! ## Pieces -/

/--
The pieces that a path is cut into: the first one is not empty, the others are a name at most.
-/
structure Pieces (q V : CStr) (Xs : List CStr) : Prop where
  joined_eq : joined V Xs = q
  nul : 0 ∉ q
  ne_nil : V ≠ []
  names : ∀ X ∈ Xs, (segments 47 X).length ≤ 1

theorem segments_name {w : CStr} (hw : 47 ∉ w) (k : Nat) :
    segments 47 (List.replicate k 47 ++ w) = if w = [] then [] else [w] := by
  rw [segments_replicate_append]
  split
  · next h => rw [h, segments_nil]
  · next h => exact segments_word h hw

theorem length_segments_name {w : CStr} (hw : 47 ∉ w) (k : Nat) :
    (segments 47 (List.replicate k 47 ++ w)).length ≤ 1 := by
  rw [segments_name hw]
  split
  · exact Nat.zero_le _
  · exact Nat.le_refl _

namespace Pieces

variable {q V : CStr} {Xs : List CStr}

theorem exists_joined_eq (V : CStr) (Xs : List CStr) : ∃ rest, joined V Xs = V ++ rest ∧
    (rest = [] ∨ rest.head? = some 47) := by
  cases Xs with
  | nil => exact ⟨[], (List.append_nil V).symm, Or.inl rfl⟩
  | cons X Xs => exact ⟨_, rfl, Or.inr rfl⟩

theorem nul_first (h : Pieces q V Xs) : 0 ∉ V := by
  obtain ⟨rest, hrest, -⟩ := exists_joined_eq V Xs
  intro hmem
  refine h.nul ?_
  rw [← h.joined_eq, hrest]
  exact List.mem_append_left _ hmem

theorem length_le (h : Pieces q V Xs) : V.length ≤ q.length := by
  obtain ⟨rest, hrest, -⟩ := exists_joined_eq V Xs
  rw [← h.joined_eq, hrest, List.length_append]
  omega

/-- The names of the first piece come first. -/
theorem segments_prefix (h : Pieces q V Xs) : segments 47 V <+: segments 47 q := by
  rw [← h.joined_eq]
  cases Xs with
  | nil => exact List.prefix_rfl
  | cons X Xs =>
    rw [joined, segments_append_sep]
    exact List.prefix_append _ _

theorem head?_eq (h : Pieces q V Xs) : q.head? = V.head? := by
  obtain ⟨rest, hrest, -⟩ := exists_joined_eq V Xs
  rw [← h.joined_eq, hrest, List.head?_append_of_ne_nil _ h.ne_nil]

/-- A slash is put back. -/
theorem restore {X : CStr} (h : Pieces q V (X :: Xs)) : Pieces q (V ++ 47 :: X) Xs where
  joined_eq := (joined_cons V X Xs).trans h.joined_eq
  nul := h.nul
  ne_nil := by simp
  names := fun Y hY => h.names Y (List.mem_cons_of_mem _ hY)

/-- A slash is cut. -/
theorem cut (h : Pieces q V Xs) (hstem : stem V ≠ []) :
    ∃ X, V = stem V ++ 47 :: X ∧ Pieces q (stem V) (X :: Xs) := by
  obtain ⟨k, w, hV, hw, hk⟩ := exists_stem_eq V
  obtain ⟨k, rfl⟩ := Nat.exists_eq_succ_of_ne_zero (hk hstem).ne'
  rw [List.replicate_succ, List.cons_append] at hV
  refine ⟨List.replicate k 47 ++ w, hV, ?_, h.nul, hstem, fun Y hY => ?_⟩
  · rw [← joined_cons, ← hV]
    exact h.joined_eq
  · rcases List.mem_cons.1 hY with rfl | hY
    · exact length_segments_name hw k
    · exact h.names Y hY

end Pieces

/-- Without a stem there is one name at most. -/
theorem length_segments_of_stem {V : CStr} (h : stem V = []) : (segments 47 V).length ≤ 1 := by
  obtain ⟨k, w, hV, hw, -⟩ := exists_stem_eq V
  rw [h, List.nil_append] at hV
  rw [hV]
  exact length_segments_name hw k

/-! ## Creating -/

/-- A path that starts the same way starts at the same place. -/
theorem FileSystem.loc_piece (fs : FileSystem) {q V : CStr} {Xs : List CStr} (h : Pieces q V Xs) :
    fs.loc V = fs.base q ++ segments 47 V := by
  unfold FileSystem.loc FileSystem.base
  rw [h.head?_eq]

/-- The places of the path, from the first name on. -/
def FileSystem.prefixes (fs : FileSystem) (q : CStr) (l : List CStr) : Prop :=
  ∃ names, names ≠ [] ∧ names <+: segments 47 q ∧ l = fs.base q ++ names

/-- What there is after some calls of `mkdir`. -/
structure Made (new : List CStr → Prop) (s s' : Disk) : Prop where
  dir : ∀ l, s'.fs.dir l = true ↔ s.fs.dir l = true ∨ new l
  file : s'.fs.file = s.fs.file
  cwd : s'.fs.cwd = s.fs.cwd
  calls : ∃ calls, s'.calls = s.calls ++ calls ∧ ∀ call ∈ calls, call.1.dir call.2.dropLast = true

theorem Made.trans {new new' : List CStr → Prop} {s s₁ s₂ : Disk} (h : Made new s s₁)
    (h' : Made new' s₁ s₂) : Made (fun l => new l ∨ new' l) s s₂ := by
  obtain ⟨calls, hcalls, hparents⟩ := h.calls
  obtain ⟨calls', hcalls', hparents'⟩ := h'.calls
  refine ⟨fun l => ?_, h'.file.trans h.file, h'.cwd.trans h.cwd, calls ++ calls', ?_, ?_⟩
  · rw [h'.dir, h.dir, or_assoc]
  · rw [hcalls', hcalls, List.append_assoc]
  · intro call hcall
    rcases List.mem_append.1 hcall with hcall | hcall
    · exact hparents call hcall
    · exact hparents' call hcall

theorem Made.congr {new new' : List CStr → Prop} {s s' : Disk} (h : Made new s s')
    (hnew : ∀ l, s.fs.dir l = true ∨ new l ↔ s.fs.dir l = true ∨ new' l) : Made new' s s' :=
  ⟨fun l => (h.dir l).trans (hnew l), h.file, h.cwd, h.calls⟩

/-- **A call of `mkdir`** with a parent that is there. -/
theorem mkdir_spec {s : Disk} {path : CStr} (hpath : path ≠ [])
    (hparent : s.fs.dir (s.fs.loc path).dropLast = true)
    (hfile : s.fs.file (s.fs.loc path) = false) :
    ((mkdir s path).1 = 0 ∨ (mkdir s path).1 = EEXIST) ∧
      Made (fun l => l = s.fs.loc path) s (mkdir s path).2 := by
  have hcalls : ∃ calls, s.calls ++ [(s.fs, s.fs.loc path)] = s.calls ++ calls ∧
      ∀ call ∈ calls, call.1.dir call.2.dropLast = true := by
    refine ⟨_, rfl, fun call hcall => ?_⟩
    rw [List.mem_singleton.1 hcall]
    exact hparent
  unfold mkdir
  dsimp only
  rw [if_neg hpath]
  by_cases hdir : s.fs.dir (s.fs.loc path) = true
  · rw [if_pos hdir]
    refine ⟨Or.inr rfl, fun l => ⟨Or.inl, fun h => h.elim id ?_⟩, rfl, rfl, hcalls⟩
    rintro rfl
    exact hdir
  · rw [if_neg hdir, dif_pos hfile, dif_pos hparent]
    refine ⟨Or.inl rfl, fun l => ?_, rfl, rfl, hcalls⟩
    show (l == s.fs.loc path || s.fs.dir l) = true ↔ _
    rw [Bool.or_eq_true, beq_iff_eq]
    exact or_comm

theorem FileSystem.dir_base (fs : FileSystem) (q : CStr) : fs.dir (fs.base q) = true := by
  unfold FileSystem.base
  split
  · exact fs.root
  · exact fs.cwd_dir

theorem base_eq {new : List CStr → Prop} {s s' : Disk} (h : Made new s s') (q : CStr) :
    s'.fs.base q = s.fs.base q := by
  unfold FileSystem.base
  rw [h.cwd]

theorem prefixes_eq {new : List CStr → Prop} {s s' : Disk} (h : Made new s s') (q : CStr) :
    s'.fs.prefixes q = s.fs.prefixes q := by
  unfold FileSystem.prefixes
  rw [base_eq h]

section Forward

variable {q W : CStr} {Xs : List CStr} {s : Disk}

/-- The place of the first piece is one of the path, or the one where it starts. -/
theorem loc_cases (h : Pieces q W Xs) :
    s.fs.loc W = s.fs.base q ∨ s.fs.prefixes q (s.fs.loc W) := by
  rw [s.fs.loc_piece h]
  by_cases hnil : segments 47 W = []
  · rw [hnil, List.append_nil]
    exact Or.inl rfl
  · exact Or.inr ⟨_, hnil, h.segments_prefix, rfl⟩

theorem file_loc (h : Pieces q W Xs) (hfile : ∀ l, s.fs.prefixes q l → s.fs.file l = false) :
    s.fs.file (s.fs.loc W) = false := by
  rcases loc_cases (s := s) h with hbase | hprefix
  · rw [hbase]
    exact s.fs.disjoint _ (s.fs.dir_base q)
  · exact hfile _ hprefix

/-- A round of the second loop. -/
theorem createForward_round (h : Pieces q W Xs) {e : Nat} (he : e < W.length)
    (hparent : s.fs.dir (s.fs.loc W).dropLast = true)
    (hfile : ∀ l, s.fs.prefixes q l → s.fs.file l = false) (fuel : Nat) :
    createForward q.length (fuel + 1) (cutBuf W Xs) e s = (do
      let buf ← inBlock (putRange (cutBuf W Xs) W.length [47])
      createForward q.length fuel buf W.length (mkdir s W).2) := by
  have hle := h.length_le
  have herrno : ¬ ((mkdir s W).1 ≠ 0 ∧ (mkdir s W).1 ≠ EEXIST) := by
    rcases (mkdir_spec h.ne_nil hparent (file_loc h hfile)).1 with hok | hexist
    · exact fun hne => hne.1 hok
    · exact fun hne => hne.2 hexist
  rw [createForward, if_pos (by omega), stringAt_cutBuf h.nul_first Xs (Nat.zero_le _), ok_bind,
    List.drop_zero]
  dsimp only
  rw [if_neg herrno, stringAt_cutBuf h.nul_first Xs (Nat.le_of_lt he), ok_bind, List.length_drop,
    Nat.add_sub_cancel' (Nat.le_of_lt he)]

/-- With a slash put back, the parent is the first piece, or its parent. -/
theorem dir_parent_restore {X : CStr} (h : Pieces q W (X :: Xs))
    (hdir : s.fs.dir (s.fs.loc W) = true) :
    s.fs.dir (s.fs.loc (W ++ 47 :: X)).dropLast = true := by
  rw [s.fs.loc_piece h.restore, segments_append_sep, ← List.append_assoc, ← s.fs.loc_piece h]
  have hname := h.names X List.mem_cons_self
  rcases Nat.lt_or_ge (segments 47 X).length 1 with hlt | hge
  · have hnil : segments 47 X = [] := List.eq_nil_of_length_eq_zero (by omega)
    rw [hnil, List.append_nil]
    exact s.fs.dir_dropLast hdir
  · obtain ⟨x, hx⟩ := List.length_eq_one_iff.1 (Nat.le_antisymm hname hge)
    rw [hx, List.dropLast_concat]
    exact hdir

/-- If its parent is there, a path is all that its prefixes add. -/
theorem dir_or_loc_iff (hq : W = q) (hparent : s.fs.dir (s.fs.loc W).dropLast = true)
    (l : List CStr) :
    s.fs.dir l = true ∨ l = s.fs.loc W ↔ s.fs.dir l = true ∨ s.fs.prefixes q l := by
  subst hq
  unfold FileSystem.loc at hparent ⊢
  constructor
  · rintro (hl | rfl)
    · exact Or.inl hl
    · by_cases hnil : segments 47 W = []
      · rw [hnil, List.append_nil]
        exact Or.inl (s.fs.dir_base W)
      · exact Or.inr ⟨_, hnil, List.prefix_rfl, rfl⟩
  · rintro (hl | ⟨names, hne, ⟨more, hmore⟩, rfl⟩)
    · exact Or.inl hl
    · rcases List.eq_nil_or_concat more with rfl | ⟨more, x, rfl⟩
      · rw [List.append_nil] at hmore
        exact Or.inr (by rw [hmore])
      · -- a shorter one is there because the parent is
        rw [List.concat_eq_append] at hmore
        rw [← hmore, ← List.append_assoc, ← List.append_assoc, List.dropLast_concat] at hparent
        exact Or.inl (s.fs.dir_of_append hparent)

/-- **The second loop** creates the first piece, and then each path with a piece more. -/
theorem createForward_spec (Xs : List CStr) :
    ∀ {W : CStr} {e fuel : Nat} {s : Disk}, Pieces q W Xs → e < W.length → Xs.length + 1 < fuel →
      s.fs.dir (s.fs.loc W).dropLast = true → (∀ l, s.fs.prefixes q l → s.fs.file l = false) →
      ∃ s', createForward q.length fuel (cutBuf W Xs) e s = .ok (0, s') ∧
        Made (s.fs.prefixes q) s s' := by
  induction Xs with
  | nil =>
    intro W e fuel s h he hfuel hparent hfile
    obtain ⟨fuel, rfl⟩ : ∃ n, fuel = n + 1 + 1 := ⟨fuel - 2, by omega⟩
    obtain ⟨-, hmade⟩ := mkdir_spec h.ne_nil hparent (file_loc h hfile)
    have hq : W = q := h.joined_eq
    have hput : putRange (cutBuf W []) W.length [47] = some (W ++ [47]) :=
      putRange_append W [0] [47] (by simp)
    refine ⟨_, ?_, hmade.congr (dir_or_loc_iff hq hparent)⟩
    rw [createForward_round h he hparent hfile, hput, inBlock_some, ok_bind, createForward,
      if_neg (by rw [hq]; omega)]
  | cons X Xs ih =>
    intro W e fuel s h he hfuel hparent hfile
    rw [List.length_cons] at hfuel
    obtain ⟨fuel, rfl⟩ : ∃ n, fuel = n + 1 := ⟨fuel - 1, by omega⟩
    obtain ⟨-, hmade⟩ := mkdir_spec h.ne_nil hparent (file_loc h hfile)
    have hlen : W.length < (W ++ 47 :: X).length := by simp
    have hdir : (mkdir s W).2.fs.dir ((mkdir s W).2.fs.loc W) = true := by
      rw [(mkdir s W).2.fs.loc_piece h, base_eq hmade, ← s.fs.loc_piece h, hmade.dir]
      exact Or.inr rfl
    obtain ⟨s', hrun, hmade'⟩ := ih h.restore hlen
      (by omega : Xs.length + 1 < fuel) (dir_parent_restore h hdir)
      (fun l hl => by
        rw [prefixes_eq hmade] at hl
        rw [hmade.file]
        exact hfile l hl)
    rw [prefixes_eq hmade] at hmade'
    refine ⟨s', ?_, (hmade.trans hmade').congr (fun l => ?_)⟩
    · rw [createForward_round h he hparent hfile, putRange_slash, inBlock_some, ok_bind]
      exact hrun
    · refine ⟨fun hl => ?_, Or.imp_right Or.inr⟩
      rcases hl with hl | rfl | hl
      · exact Or.inl hl
      · rcases loc_cases (s := s) h with hbase | hprefix
        · rw [hbase]
          exact Or.inl (s.fs.dir_base q)
        · exact Or.inr hprefix
      · exact Or.inr hl

end Forward

/-! ## Scanning backwards -/

section Back

variable {q V : CStr} {Xs : List CStr} {s : Disk}

theorem missing_pos (fs : FileSystem) (l : List CStr) : 0 < fs.missing l := by
  unfold FileSystem.missing
  split
  · decide
  · decide

/-- There is a directory. -/
theorem scanBack_dir (h : Pieces q V Xs) (hdir : s.fs.dir (s.fs.loc V) = true) {e : Nat}
    (he : e ≤ V.length) (fuel : Nat) :
    scanBack s q.length (fuel + 1) (cutBuf V Xs) e = (if V.length = q.length then .ok (.error 0)
      else do
        let buf ← inBlock (putRange (cutBuf V Xs) V.length [47])
        .ok (.ok (buf, V.length))) := by
  have hisDir : isDir s V = 1 := by
    unfold isDir
    rw [if_neg h.ne_nil, if_pos hdir]
  rw [scanBack, stringAt_cutBuf h.nul_first Xs (Nat.zero_le _), ok_bind, List.drop_zero, hisDir]
  dsimp only
  rw [if_pos (by decide), stringAt_cutBuf h.nul_first Xs he, ok_bind, List.length_drop,
    Nat.add_sub_cancel' he]

/-- There is something that is no directory. -/
theorem scanBack_file (h : Pieces q V Xs) (hfile : s.fs.file (s.fs.loc V) = true) (e fuel : Nat) :
    scanBack s q.length (fuel + 1) (cutBuf V Xs) e = .ok (.error (-ENOTDIR)) := by
  have hdir : ¬ s.fs.dir (s.fs.loc V) = true := fun hdir => by
    rw [s.fs.disjoint _ hdir] at hfile
    cases hfile
  have hisDir : isDir s V = 0 := by
    unfold isDir
    rw [if_neg h.ne_nil, if_neg hdir, if_pos hfile]
  rw [scanBack, stringAt_cutBuf h.nul_first Xs (Nat.zero_le _), ok_bind, List.drop_zero, hisDir]
  rfl

/-- There is nothing. -/
theorem scanBack_missing (h : Pieces q V Xs) (hdir : ¬ s.fs.dir (s.fs.loc V) = true)
    (hfile : s.fs.file (s.fs.loc V) = false) (e fuel : Nat) :
    scanBack s q.length (fuel + 1) (cutBuf V Xs) e = (if e = 0 then .ok (.ok (cutBuf V Xs, e))
      else do
        let buf ← inBlock (putRange (cutBuf V Xs) e [0])
        let e ← toSlash buf e
        let e ← overSlashes buf e
        scanBack s q.length fuel buf e) := by
  have hisDir : isDir s V = -s.fs.missing (s.fs.loc V) := by
    unfold isDir
    rw [if_neg h.ne_nil, if_neg hdir, if_neg (by rw [hfile]; decide)]
  have hpos := missing_pos s.fs (s.fs.loc V)
  rw [scanBack, stringAt_cutBuf h.nul_first Xs (Nat.zero_le _), ok_bind, List.drop_zero, hisDir]
  dsimp only
  rw [if_neg (by omega), if_neg (by omega)]

/-- After a cut, and from the end of the path. -/
theorem scanBack_again (V : CStr) (Xs : List CStr) (fuel : Nat) :
    (do
      let e ← toSlash (cutBuf V Xs) V.length
      let e ← overSlashes (cutBuf V Xs) e
      scanBack s q.length fuel (cutBuf V Xs) e)
      = scanBack s q.length fuel (cutBuf V Xs) (stem V).length := by
  obtain ⟨rest, hrest⟩ := exists_cutBuf_eq V Xs
  have hback := back_eq V rest
  rw [← hrest] at hback
  obtain ⟨e, he, hover⟩ := ok_of_bind hback
  rw [he, ok_bind, hover, ok_bind]

/-- The next cut. -/
theorem scanBack_cut (h : Pieces q V Xs) (hdir : ¬ s.fs.dir (s.fs.loc V) = true)
    (hfile : s.fs.file (s.fs.loc V) = false) (hstem : stem V ≠ []) :
    ∃ X, V = stem V ++ 47 :: X ∧ Pieces q (stem V) (X :: Xs) ∧ ∀ fuel,
      scanBack s q.length (fuel + 1) (cutBuf V Xs) (stem V).length
        = scanBack s q.length fuel (cutBuf (stem V) (X :: Xs)) (stem (stem V)).length := by
  obtain ⟨X, hV, hcut⟩ := h.cut hstem
  refine ⟨X, hV, hcut, fun fuel => ?_⟩
  have hne : ¬ (stem V).length = 0 := fun hzero => hstem (List.eq_nil_of_length_eq_zero hzero)
  have hput : putRange (cutBuf V Xs) (stem V).length [0] = some (cutBuf (stem V) (X :: Xs)) := by
    have hput' := putRange_cut (stem V) X Xs
    rwa [← hV] at hput'
  rw [scanBack_missing h hdir hfile, if_neg hne, hput, inBlock_some, ok_bind]
  exact scanBack_again (stem V) (X :: Xs) fuel

theorem length_stem_le (V : CStr) : (stem V).length ≤ V.length := by
  obtain ⟨k, w, hV, -, -⟩ := exists_stem_eq V
  have hlen := congrArg List.length hV
  rw [List.length_append] at hlen
  omega

theorem length_stem_lt {V X : CStr} (hV : V = stem V ++ 47 :: X) : (stem V).length < V.length := by
  have hlen := congrArg List.length hV
  rw [List.length_append, List.length_cons] at hlen
  omega

/-- **Scanning backwards**, if nothing is in the way, ends where the rest can be created. -/
theorem scanBack_spec (fuel : Nat) :
    ∀ {V : CStr} {Xs : List CStr}, Pieces q V Xs → V.length < fuel →
      (∀ l, s.fs.prefixes q l → s.fs.file l = false) →
      (scanBack s q.length fuel (cutBuf V Xs) (stem V).length = .ok (.error 0) ∧
        s.fs.dir (s.fs.loc q) = true) ∨
      ∃ W Ys e, scanBack s q.length fuel (cutBuf V Xs) (stem V).length =
        .ok (.ok (cutBuf W Ys, e)) ∧
        Pieces q W Ys ∧ e < W.length ∧ s.fs.dir (s.fs.loc W).dropLast = true := by
  induction fuel with
  | zero =>
    intro V Xs _ hfuel
    omega
  | succ fuel ih =>
    intro V Xs h hfuel hfree
    by_cases hdir : s.fs.dir (s.fs.loc V) = true
    · rw [scanBack_dir h hdir (length_stem_le V)]
      cases Xs with
      | nil =>
        have hq : V = q := h.joined_eq
        exact Or.inl ⟨if_pos (by rw [hq]), hq ▸ hdir⟩
      | cons X Xs =>
        have hle := h.restore.length_le
        have hlt : V.length < (V ++ 47 :: X).length := by simp
        rw [if_neg (by omega), putRange_slash, inBlock_some, ok_bind]
        exact Or.inr ⟨_, Xs, V.length, rfl, h.restore, hlt, dir_parent_restore h hdir⟩
    · have hfile := file_loc h hfree
      by_cases hstem : stem V = []
      · -- only the first name is left
        refine Or.inr ⟨V, Xs, 0, ?_, h, List.length_pos_iff.2 h.ne_nil, ?_⟩
        · rw [hstem]
          exact (scanBack_missing h hdir hfile 0 fuel).trans (if_pos rfl)
        · have hname := length_segments_of_stem hstem
          rw [s.fs.loc_piece h]
          rcases Nat.lt_or_ge (segments 47 V).length 1 with hlt | hge
          · have hnil : segments 47 V = [] := List.eq_nil_of_length_eq_zero (by omega)
            rw [hnil, List.append_nil]
            exact s.fs.dir_dropLast (s.fs.dir_base q)
          · obtain ⟨x, hx⟩ := List.length_eq_one_iff.1 (Nat.le_antisymm hname hge)
            rw [hx, List.dropLast_concat]
            exact s.fs.dir_base q
      · obtain ⟨X, hV, hcut, hrun⟩ := scanBack_cut h hdir hfile hstem
        have hlt := length_stem_lt hV
        rw [hrun]
        exact ih hcut (by omega) hfree

/-- **Scanning backwards** finds what is in the way. -/
theorem scanBack_blocked (fuel : Nat) :
    ∀ {V : CStr} {Xs : List CStr}, Pieces q V Xs → V.length < fuel →
      (∃ names, names ≠ [] ∧ names <+: segments 47 V ∧ s.fs.file (s.fs.base q ++ names) = true) →
      scanBack s q.length fuel (cutBuf V Xs) (stem V).length = .ok (.error (-ENOTDIR)) := by
  induction fuel with
  | zero =>
    intro V Xs _ hfuel
    omega
  | succ fuel ih =>
    rintro V Xs h hfuel ⟨names, hne, hprefix, hfile⟩
    by_cases hhere : s.fs.file (s.fs.loc V) = true
    · exact scanBack_file h hhere _ _
    · have hfileV : s.fs.file (s.fs.loc V) = false := by simpa using hhere
      have hdir : ¬ s.fs.dir (s.fs.loc V) = true := by
        intro hdir
        obtain ⟨more, hmore⟩ := hprefix
        rw [s.fs.loc_piece h, ← hmore, ← List.append_assoc] at hdir
        rw [s.fs.disjoint _ (s.fs.dir_of_append hdir)] at hfile
        cases hfile
      -- what is in the way is not the whole of this path
      have hlt : names.length < (segments 47 V).length := by
        refine Nat.lt_of_le_of_ne hprefix.length_le (fun heq => ?_)
        rw [s.fs.loc_piece h, ← hprefix.eq_of_length heq, hfile] at hhere
        exact hhere rfl
      have hpos := List.length_pos_iff.2 hne
      have hstem : stem V ≠ [] := by
        intro hnil
        have hname := length_segments_of_stem hnil
        omega
      obtain ⟨X, hV, hcut, hrun⟩ := scanBack_cut h hdir hfileV hstem
      have hlen := length_stem_lt hV
      rw [hrun]
      refine ih hcut (by omega) ⟨names, hne, ?_, hfile⟩
      rw [hV, segments_append_sep] at hprefix hlt
      have hname := hcut.names X List.mem_cons_self
      rw [List.length_append] at hlt
      exact List.prefix_of_prefix_length_le hprefix (List.prefix_append _ _) (by omega)

end Back

/-! ## The whole -/

theorem Pieces.length_lt {q V : CStr} {Xs : List CStr} (h : Pieces q V Xs) :
    Xs.length < q.length := by
  have hlen : ∀ (Xs : List CStr) (V : CStr), Xs.length + V.length ≤ (joined V Xs).length := by
    intro Xs
    induction Xs with
    | nil => exact fun V => Nat.le_of_eq (Nat.zero_add _)
    | cons X Xs ih =>
      intro V
      have hX := ih X
      rw [joined, List.length_append, List.length_cons, List.length_cons]
      omega
  have hV := List.length_pos_iff.2 h.ne_nil
  have hall := hlen Xs V
  rw [h.joined_eq] at hall
  omega

/-- The copy of the path. -/
theorem copy_eq {path : CStr} {len : Nat} (hlen : len ≤ path.length) :
    (inBlock (getRange (path ++ [0]) 0 (len + 1)) >>= fun buf => inBlock (putRange buf len [0]))
      = .ok (cutBuf (path.take len) []) := by
  obtain ⟨d, rest, hrest⟩ : ∃ d rest, path.drop len ++ [0] = d :: rest := by
    cases path.drop len with
    | nil => exact ⟨0, [], rfl⟩
    | cons d rest => exact ⟨d, rest ++ [0], rfl⟩
  have htake : (path.take len).length = len := by
    rw [List.length_take]
    omega
  have hpath : path ++ [0] = [] ++ ((path.take len ++ [d]) ++ rest) := by
    rw [List.nil_append, List.append_assoc, List.singleton_append, ← hrest, ← List.append_assoc,
      List.take_append_drop]
  have hget : getRange (path ++ [0]) 0 (len + 1) = some (path.take len ++ [d]) := by
    rw [hpath]
    have happ := getRange_append [] (path.take len ++ [d]) rest
    rwa [List.length_append, htake] at happ
  have hput : putRange (path.take len ++ [d]) len [0] = some (path.take len ++ [0]) := by
    have happ := putRange_append (path.take len) [d] [0] (Nat.le_refl _)
    rwa [htake] at happ
  rw [hget, inBlock_some, ok_bind, hput]
  rfl

/-- The empty path. -/
theorem not_prefixes_nil (fs : FileSystem) (l : List CStr) : ¬ fs.prefixes [] l := by
  rintro ⟨names, hne, hprefix, -⟩
  exact hne (List.prefix_nil.1 hprefix)

/-- Below a directory that is there, everything is there. -/
theorem dir_of_prefixes {fs : FileSystem} {q : CStr} (hdir : fs.dir (fs.loc q) = true)
    {l : List CStr}
    (hl : fs.prefixes q l) : fs.dir l = true := by
  obtain ⟨names, -, ⟨more, hmore⟩, rfl⟩ := hl
  unfold FileSystem.loc at hdir
  rw [← hmore, ← List.append_assoc] at hdir
  exact fs.dir_of_append hdir

/-- What `mkdir_p` does, when it has copied the path `q`. -/
def mkdirCopied (fuel : Nat) (s : Disk) (q : CStr) : Except Fault (Int × Disk) := do
  match ← scanBack s q.length fuel (cutBuf q []) q.length with
  | .error r => .ok (r, s)
  | .ok (buf, e) => createForward q.length fuel buf e s

theorem mkdirP_eq {path : CStr} {len : Nat} (hlen : len ≤ path.length) (fuel : Nat) (s : Disk) :
    mkdirP true fuel s (path ++ [0]) len = mkdirCopied fuel s (path.take len) := by
  have htake : (path.take len).length = len := by
    rw [List.length_take]
    omega
  obtain ⟨buf, hget, hput⟩ := ok_of_bind (copy_eq hlen)
  unfold mkdirP mkdirCopied
  rw [if_neg (by decide), hget, ok_bind, hput, ok_bind, htake]

section Copied

variable {q : CStr} {s : Disk} {fuel : Nat}

/-- A path that is not empty and where nothing is. -/
theorem mkdirCopied_missing (h : Pieces q q []) (hfuel : q.length < fuel)
    (hdir : ¬ s.fs.dir (s.fs.loc q) = true) (hfile : s.fs.file (s.fs.loc q) = false) :
    ((∀ l, s.fs.prefixes q l → s.fs.file l = false) →
      ∃ s', mkdirCopied (fuel + 1) s q = .ok (0, s') ∧ Made (s.fs.prefixes q) s s') ∧
    ((∃ l, s.fs.prefixes q l ∧ s.fs.file l = true) →
      mkdirCopied (fuel + 1) s q = .ok (-ENOTDIR, s)) := by
  have hne : ¬ q.length = 0 := fun hzero => h.ne_nil (List.eq_nil_of_length_eq_zero hzero)
  have hscan : scanBack s q.length (fuel + 1) (cutBuf q []) q.length
      = scanBack s q.length fuel (cutBuf q []) (stem q).length := by
    rw [scanBack_missing h hdir hfile, if_neg hne, putRange_nul, inBlock_some, ok_bind]
    exact scanBack_again q [] fuel
  unfold mkdirCopied
  rw [hscan]
  refine ⟨fun hfree => ?_, fun ⟨l, ⟨names, hnames, hprefix, hl⟩, hlfile⟩ => ?_⟩
  · rcases scanBack_spec fuel h hfuel hfree with ⟨-, hthere⟩ |
      ⟨W, Ys, e, hrun, hpieces, he, hparent⟩
    · exact absurd hthere hdir
    · have hlt := hpieces.length_lt
      rw [hrun, ok_bind]
      exact createForward_spec Ys hpieces he (by omega) hparent hfree
  · rw [scanBack_blocked fuel h hfuel ⟨names, hnames, hprefix, hl ▸ hlfile⟩]
    rfl

theorem mkdirCopied_spec (hnul : 0 ∉ q) (hfuel : q.length < fuel) :
    ((∀ l, s.fs.prefixes q l → s.fs.file l = false) →
      ∃ s', mkdirCopied (fuel + 1) s q = .ok (0, s') ∧ Made (s.fs.prefixes q) s s') ∧
    ((∃ l, s.fs.prefixes q l ∧ s.fs.file l = true) →
      mkdirCopied (fuel + 1) s q = .ok (-ENOTDIR, s)) := by
  by_cases hq : q = []
  · subst hq
    refine ⟨fun _ => ⟨s, rfl, ⟨fun l => ?_, rfl, rfl, [], (List.append_nil _).symm, by simp⟩⟩, ?_⟩
    · simp only [not_prefixes_nil, or_false]
    · rintro ⟨l, hl, -⟩
      exact absurd hl (not_prefixes_nil s.fs l)
  have h : Pieces q q [] := ⟨rfl, hnul, hq, by simp⟩
  by_cases hdir : s.fs.dir (s.fs.loc q) = true
  · have hrun : mkdirCopied (fuel + 1) s q = .ok (0, s) := by
      unfold mkdirCopied
      rw [scanBack_dir h hdir (Nat.le_refl _), if_pos rfl]
      rfl
    refine ⟨fun _ => ⟨s, hrun, ⟨fun l => ?_, rfl, rfl, [], (List.append_nil _).symm, by simp⟩⟩, ?_⟩
    · exact ⟨Or.inl, fun hl => hl.elim id (dir_of_prefixes hdir)⟩
    · rintro ⟨l, hl, hlfile⟩
      rw [s.fs.disjoint l (dir_of_prefixes hdir hl)] at hlfile
      cases hlfile
  · by_cases hfile : s.fs.file (s.fs.loc q) = true
    · refine ⟨fun hfree => ?_, fun _ => ?_⟩
      · rw [file_loc h hfree] at hfile
        cases hfile
      · unfold mkdirCopied
        rw [scanBack_file h hfile]
        rfl
    · exact mkdirCopied_missing h hfuel hdir (by simpa using hfile)

end Copied

/--
**`mkdir_p`** creates what is missing of the path, each directory after its parent; if
something else is in the way, it creates nothing.
-/
theorem mkdirP_creates (fs : FileSystem) {path : CStr} (hnul : 0 ∉ path) {len : Nat}
    (hlen : len ≤ path.length) {fuel : Nat} (hfuel : len + 2 ≤ fuel) :
    ∃ ret s', mkdirP true fuel ⟨fs, []⟩ (path ++ [0]) len = .ok (ret, s') ∧
      ((∀ l, fs.prefixes (path.take len) l → fs.file l = false) →
        ret = 0 ∧ (∀ l, s'.fs.dir l = true ↔ fs.dir l = true ∨ fs.prefixes (path.take len) l) ∧
        s'.fs.file = fs.file ∧ ∀ call ∈ s'.calls, call.1.dir call.2.dropLast = true) ∧
      ((∃ l, fs.prefixes (path.take len) l ∧ fs.file l = true) →
        ret = -ENOTDIR ∧ s' = ⟨fs, []⟩) := by
  have htake : (path.take len).length = len := by
    rw [List.length_take]
    omega
  obtain ⟨fuel, rfl⟩ : ∃ n, fuel = n + 1 := ⟨fuel - 1, by omega⟩
  obtain ⟨hfree, hblocked⟩ := mkdirCopied_spec (s := ⟨fs, []⟩)
    (fun h => hnul (List.mem_of_mem_take h) : 0 ∉ path.take len)
    (by omega : (path.take len).length < fuel)
  rw [mkdirP_eq hlen]
  by_cases hway : ∃ l, fs.prefixes (path.take len) l ∧ fs.file l = true
  · refine ⟨-ENOTDIR, ⟨fs, []⟩, hblocked hway, fun hnone => ?_, fun _ => ⟨rfl, rfl⟩⟩
    obtain ⟨l, hl, hfile⟩ := hway
    rw [hnone l hl] at hfile
    cases hfile
  · have hnone : ∀ l, fs.prefixes (path.take len) l → fs.file l = false := by
      intro l hl
      by_contra hfile
      exact hway ⟨l, hl, by simpa using hfile⟩
    obtain ⟨s', hrun, hmade⟩ := hfree hnone
    obtain ⟨calls, hcalls, hparents⟩ := hmade.calls
    refine ⟨0, s', hrun, fun _ => ⟨rfl, hmade.dir, hmade.file, ?_⟩, fun h => absurd h hway⟩
    rw [hcalls]
    exact hparents

/-- Nothing but the root. -/
def emptyRoot : FileSystem where
  dir := fun l => l == []
  file := fun _ => false
  cwd := []
  root := rfl
  closed := fun l c h => by simp at h
  disjoint := fun _ _ => rfl
  cwd_dir := rfl

theorem mkdirP_creates_both :
    ∃ s', mkdirP true 6 ⟨emptyRoot, []⟩ (cstr "a//b" ++ [0]) 4 = .ok (0, s') ∧
      s'.fs.dir [cstr "a", cstr "b"] = true := by
  obtain ⟨ret, s', hrun, hfree, -⟩ := mkdirP_creates emptyRoot (by decide : 0 ∉ cstr "a//b")
    (by decide : 4 ≤ (cstr "a//b").length) (Nat.le_refl 6)
  obtain ⟨rfl, hdir, -⟩ := hfree (fun _ _ => rfl)
  refine ⟨s', hrun, (hdir _).2 (Or.inr ⟨[cstr "a", cstr "b"], by simp, ?_, rfl⟩)⟩
  have hnames : segments 47 ((cstr "a//b").take 4) = [cstr "a", cstr "b"] := by decide +kernel
  exact hnames ▸ List.prefix_rfl

end Kmod.Mkdir
