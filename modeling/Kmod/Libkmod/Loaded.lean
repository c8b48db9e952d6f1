import Kmod.Depmod.ModulesOrder
import Kmod.Libkmod.ConfigWords
import Kmod.Libkmod.Lookup
import Kmod.Modprobe.Rmmod
import Kmod.Shared.Numbers

/-!
# The modules in the kernel

What is loaded is read from `/proc/modules` and from the files below `/sys/module`. A line of
`/proc/modules` names the modules that use a module, and so it can be longer than any buffer:
what does not fit is thrown away up to the newline (`eatLine_line`), or it would be taken for
another module. The size of a module is in a file of its own, or in the line if the kernel is
old; both ways give the same.

lsmod puts it together: it shows what the kernel has, in the kernel's order (`lsmod_shows`).
-/

namespace Kmod.Loaded

open Kmod.Numbers Kmod.ReadSafe ModulesOrder

/-! ## The model -/

/-- What is read of the system. -/
structure System where
  /-- `open`, `openat` and `fopen`: what is in the file, or `errno`. -/
  openFile : CStr → Except Int (List UInt8)
  /-- How the calls of `read` on it are answered. -/
  answers : CStr → List Answer
  /-- `opendir` and `readdir`: the names in the directory. -/
  opendir : CStr → Option (List CStr)
  /-- `stat`: whether it is a directory, or `errno`. -/
  stat : CStr → Except Int Bool
  /-- `kmod_module_is_builtin` -/
  isBuiltin : CStr → Bool

def KMOD_MODULE_COMING : Int := 2
def KMOD_MODULE_GOING : Int := 3

/-- `snprintf(path, PATH_MAX, "/sys/module/%s...", name)` -/
def sysModule (name tail : CStr) : CStr :=
  (cstr "/sys/module/" ++ (name ++ tail)).take (PATH_MAX - 1)

/-- The end of a line that did not fit into the buffer is thrown away. -/
def eatLine : Nat → CStr → CStr → Except Fault CStr
  | 0, _, _ => .error .outOfFuel
  | fuel + 1, line, rest =>
    if line.getLast?.all (· = 10) then .ok rest
    else
      match fgets PATH_MAX rest with
      | none => .ok rest
      | some (buf, rest) => eatLine fuel (buf.takeWhile (· ≠ 0)) rest

/-- The loop of `kmod_module_new_from_loaded` over the lines. -/
def loadedLoop : Nat → CStr → Except Fault (List CStr)
  | 0, _ => .error .outOfFuel
  | fuel + 1, rest =>
    match fgets PATH_MAX rest with
    | none => .ok []
    | some (buf, rest) => do
      let line := buf.takeWhile (· ≠ 0)
      let rest ← eatLine (rest.length + 1) line rest
      let mods ← loadedLoop fuel rest
      match (strtokR isBlank line).1 with
      | none => .ok mods
      | some name => .ok (Lookup.kmodModuleNewFromName name :: mods)

/-- `kmod_module_new_from_loaded`: the names of the modules, or an error. -/
def kmodModuleNewFromLoaded (sys : System) : Except Fault (Except Int (List CStr)) :=
  match sys.openFile (cstr "/proc/modules") with
  | .error errno => .ok (.error (-errno))
  | .ok content => (loadedLoop (content.length + 1) content).map .ok

/-- `kmod_module_get_initstate` -/
def kmodModuleGetInitstate (sys : System) (name : CStr) : Except Fault Int :=
  if sys.isBuiltin name then .ok KMOD_MODULE_BUILTIN
  else if PATH_MAX ≤ (cstr "/sys/module/" ++ (name ++ cstr "/initstate")).length then
    .ok (-ENAMETOOLONG)
  else
    match sys.openFile (sysModule name (cstr "/initstate")) with
    | .error errno =>
      match sys.stat (sysModule name []) with
      | .ok true => .ok KMOD_MODULE_COMING
      | .ok false => .ok (-errno)
      | .error errno => .ok (-errno)
    | .ok content => do
      match ← readStrSafe (sys.answers (sysModule name (cstr "/initstate")))
          (List.replicate 32 7) content with
      | none => .error .outOfFuel
      | some (err, (buf, _)) =>
        if err < 0 then .ok err
        else if buf.takeWhile (· ≠ 0) = cstr "live\n" then .ok KMOD_MODULE_LIVE
        else if buf.takeWhile (· ≠ 0) = cstr "coming\n" then .ok KMOD_MODULE_COMING
        else if buf.takeWhile (· ≠ 0) = cstr "going\n" then .ok KMOD_MODULE_GOING
        else .ok (-EINVAL)

/-- The loop of `kmod_module_get_size` over the lines of `/proc/modules`. -/
def sizeLoop (name : CStr) : Nat → CStr → Except Fault Int
  | 0, _ => .error .outOfFuel
  | fuel + 1, rest =>
    match fgets PATH_MAX rest with
    | none => .ok (-ENOENT)
    | some (buf, rest) =>
      let line := buf.takeWhile (· ≠ 0)
      let tok := strtokR isBlank line
      if tok.1 ≠ some name then do
        let rest ← eatLine (rest.length + 1) line rest
        sizeLoop name fuel rest
      else
        match (strtokR isBlank tok.2).1 with
        | none => .ok (-ENOENT)
        | some tok =>
          let r := strtol 10 tok
          if r.endptr = tok ∨ r.endptr ≠ [] ∨ r.range ∨ r.value < 0 then .ok (-ENOENT)
          else .ok r.value

/-- `kmod_module_get_size`. A `coresize` that cannot be read leaves a zero. -/
def kmodModuleGetSize (sys : System) (name : CStr) : Except Fault Int :=
  match sys.openFile (sysModule name []) with
  | .error errno => .ok (-errno)
  | .ok _ =>
    match sys.openFile (sysModule name [] ++ cstr "/coresize") with
    | .ok content =>
      (readStrLong (sys.answers (sysModule name [] ++ cstr "/coresize")) 10 content).map Prod.snd
    | .error _ =>
      match sys.openFile (cstr "/proc/modules") with
      | .error errno => .ok (-errno)
      | .ok content => sizeLoop name (content.length + 1) content

/-- `kmod_module_get_refcnt`: the `long` is made an `int`. -/
def kmodModuleGetRefcnt (sys : System) (name : CStr) : Except Fault Int :=
  match sys.openFile (sysModule name (cstr "/refcnt")) with
  | .error errno => .ok (-errno)
  | .ok content => do
    let (err, refcnt) ← readStrLong (sys.answers (sysModule name (cstr "/refcnt"))) 10 content
    .ok (if err < 0 then err else refcnt.bmod (2 ^ 32))

/-- The entries of a directory that stand for itself and for the one above. -/
def isDots (entry : CStr) : Bool := entry = cstr "." || entry = cstr ".."

/-- `kmod_module_get_holders` -/
def kmodModuleGetHolders (sys : System) (name : CStr) : List CStr :=
  match sys.opendir (sysModule name (cstr "/holders")) with
  | none => []
  | some entries => (entries.filter (!isDots ·)).map Lookup.kmodModuleNewFromName

/-- The loop of `kmod_module_get_sections`: nothing, if a section cannot be read. -/
def sectionsLoop (sys : System) (dname : CStr) :
    List CStr → Except Fault (Option (List (CStr × Nat)))
  | [] => .ok (some [])
  | entry :: entries =>
    if isDots entry then sectionsLoop sys dname entries
    else
      match sys.openFile (dname ++ 47 :: entry) with
      | .error _ => .ok none
      | .ok content => do
        let (err, address) ← readStrUlong (sys.answers (dname ++ 47 :: entry)) 16 content
        if err < 0 then .ok none
        else
          match ← sectionsLoop sys dname entries with
          | none => .ok none
          | some sections => .ok (some ((entry, address.toNat) :: sections))

/-- `kmod_module_get_sections`: their names and addresses. -/
def kmodModuleGetSections (sys : System) (name : CStr) : Except Fault (List (CStr × Nat)) :=
  match sys.opendir (sysModule name (cstr "/sections")) with
  | none => .ok []
  | some entries =>
    (sectionsLoop sys (sysModule name (cstr "/sections")) entries).map (·.getD [])

/-! ## lsmod -/

/-- `%-19s` -/
def padRight (width : Nat) (s : CStr) : CStr := s ++ List.replicate (width - s.length) 32

/-- `%8ld` -/
def padLeft (width : Nat) (s : CStr) : CStr := List.replicate (width - s.length) 32 ++ s

/-- The names of the holders, each behind its separator. -/
def putHolders : UInt8 → List CStr → CStr
  | _, [] => []
  | sep, hm :: holders => sep :: hm ++ putHolders 44 holders

/-- `printf("%-19s %8ld  %d", name, size, use_count)`, and the holders. -/
def lsmodRow (name : CStr) (size useCount : Int) (holders : List CStr) : CStr :=
  padRight 19 name ++ cstr " " ++ padLeft 8 (printInt size) ++ cstr "  " ++ printInt useCount ++
    putHolders 32 holders ++ cstr "\n"

/-- The loop of `do_lsmod` over the modules: what is written. -/
def lsmodLoop (sys : System) : List CStr → Except Fault CStr
  | [] => .ok []
  | name :: list => do
    let useCount ← kmodModuleGetRefcnt sys name
    let size ← kmodModuleGetSize sys name
    let more ← lsmodLoop sys list
    .ok (lsmodRow name size useCount (kmodModuleGetHolders sys name) ++ more)

def LSMOD_HEADER : CStr := cstr "Module                  Size  Used by\n"

/-- `do_lsmod`, for the arguments behind the options: what is written, and the exit status. -/
def doLsmod (sys : System) (args : List CStr) : Except Fault (CStr × Nat) :=
  if args ≠ [] then .ok ([], 1)
  else do
    match ← kmodModuleNewFromLoaded sys with
    | .error _ => .ok ([], 1)
    | .ok list =>
      let rows ← lsmodLoop sys list
      .ok (LSMOD_HEADER ++ rows, 0)

/-! ## The kernel -/

inductive ModuleState where
  | live
  | coming
  | going
  deriving DecidableEq

def ModuleState.text : ModuleState → CStr
  | .live => cstr "live\n"
  | .coming => cstr "coming\n"
  | .going => cstr "going\n"

def ModuleState.code : ModuleState → Int
  | .live => KMOD_MODULE_LIVE
  | .coming => KMOD_MODULE_COMING
  | .going => KMOD_MODULE_GOING

/-- A module that is loaded. -/
structure LoadedModule where
  name : CStr
  size : Nat
  refcnt : Int
  holders : List CStr
  state : ModuleState
  sections : List (CStr × Nat)
  /-- What the line in `/proc/modules` says behind the size. -/
  info : CStr

/-- A name the kernel uses, so short that the paths fit into their buffers. -/
structure ModuleName (name : CStr) : Prop where
  ne_nil : name ≠ []
  length : name.length ≤ 4073
  chars : ∀ c ∈ name, c ≠ 0 ∧ c ≠ 10 ∧ c ≠ 32 ∧ c ≠ 9 ∧ c ≠ 45 ∧ c ≠ 46

/-- What the kernel keeps to. -/
structure LoadedModule.Ok (m : LoadedModule) : Prop where
  name : ModuleName m.name
  holders : ∀ h ∈ m.holders, ModuleName h
  size : m.size ≤ LONG_MAX
  refcnt : -2147483648 ≤ m.refcnt ∧ m.refcnt ≤ 2147483647
  sections : ∀ s ∈ m.sections, s.2 ≤ ULONG_MAX
  info : ∀ c ∈ m.info, c ≠ 0 ∧ c ≠ 10

/-- The line of a module in `/proc/modules`. -/
def LoadedModule.line (m : LoadedModule) : CStr :=
  m.name ++ 32 :: (printNat 10 m.size ++ 32 :: m.info)

/-- **What the system shows** of the modules that are loaded. -/
structure Shows (sys : System) (mods : List LoadedModule) : Prop where
  ok : ∀ m ∈ mods, m.Ok
  nodup : (mods.map LoadedModule.name).Nodup
  proc : sys.openFile (cstr "/proc/modules") = .ok (mods.flatMap (fun m => m.line ++ [10]))
  answers : ∀ path, Delivers 31 (sys.answers path)
  builtin : ∀ m ∈ mods, sys.isBuiltin m.name = false
  dir : ∀ m ∈ mods, ∃ content, sys.openFile (cstr "/sys/module/" ++ m.name) = .ok content
  initstate : ∀ m ∈ mods,
    sys.openFile (cstr "/sys/module/" ++ (m.name ++ cstr "/initstate")) = .ok m.state.text
  /-- A kernel that is older than 3.3 has no such file. -/
  coresize : ∀ m ∈ mods, ∀ content,
    sys.openFile (cstr "/sys/module/" ++ m.name ++ cstr "/coresize") = .ok content →
      content = printNat 10 m.size ++ cstr "\n"
  refcnt : ∀ m ∈ mods, sys.openFile (cstr "/sys/module/" ++ (m.name ++ cstr "/refcnt"))
    = .ok (printInt m.refcnt ++ cstr "\n")
  holders : ∀ m ∈ mods, ∃ entries,
    sys.opendir (cstr "/sys/module/" ++ (m.name ++ cstr "/holders")) = some entries ∧
      entries.filter (!isDots ·) = m.holders
  sections : ∀ m ∈ mods, ∃ entries,
    sys.opendir (cstr "/sys/module/" ++ (m.name ++ cstr "/sections")) = some entries ∧
      entries.filter (!isDots ·) = m.sections.map Prod.fst
  address : ∀ m ∈ mods, ∀ s ∈ m.sections,
    sys.openFile (cstr "/sys/module/" ++ (m.name ++ cstr "/sections") ++ 47 :: s.1)
      = .ok (printAddress s.2 ++ cstr "\n")

/-! ## Lines -/

/-- `fgets` does not read more than a line, and what does not fit is left. -/
theorem fgets_take {size : Nat} {text : CStr} (h : 10 ∉ text) (rest : CStr) :
    fgets size (text ++ 10 :: rest)
      = some ((text ++ [10]).take (size - 1), (text ++ [10]).drop (size - 1) ++ rest) := by
  have hwhile : (text ++ 10 :: rest).takeWhile (· ≠ 10) = text := by
    rw [List.takeWhile_append_of_pos, List.takeWhile_cons_of_neg (by simp), List.append_nil]
    intro c hc
    exact decide_eq_true (fun hc10 => h (hc10 ▸ hc))
  have htext : text ++ 10 :: rest = (text ++ [10]) ++ rest := (List.append_cons text 10 rest)
  have hlen : (text ++ [10]).length = text.length + 1 := by simp
  unfold fgets
  rw [if_neg (by simp), hwhile, htext]
  dsimp only
  rcases Nat.le_total (size - 1) (text.length + 1) with hle | hle
  · rw [min_eq_left hle, List.take_append_of_le_length (by omega),
      List.drop_append_of_le_length (by omega)]
  · rw [min_eq_right hle, ← hlen, List.take_left, List.drop_left,
      List.take_of_length_le (by omega), List.drop_of_length_le (by omega), List.nil_append]

theorem fgets_line {text : CStr} (h : 10 ∉ text) (rest : CStr) :
    fgets PATH_MAX (text ++ 10 :: rest)
      = some ((text ++ [10]).take 4095, (text ++ [10]).drop 4095 ++ rest) :=
  fgets_take h rest

/-- A line that fits is read at once. -/
theorem fgets_whole {size : Nat} {text : CStr} (h : 10 ∉ text) (hfits : text.length + 1 < size)
    (rest : CStr) : fgets size (text ++ 10 :: rest) = some (text ++ [10], rest) := by
  have hlen : (text ++ [10]).length ≤ size - 1 := by
    rw [List.length_append, List.length_singleton]
    omega
  rw [fgets_take h, List.take_of_length_le hlen, List.drop_of_length_le hlen, List.nil_append]

/-- The buffer holds no NUL before its end. -/
theorem takeWhile_take_line {text : CStr} (h : ∀ c ∈ text, c ≠ 0 ∧ c ≠ 10) (n : Nat) :
    ((text ++ [10]).take n).takeWhile (· ≠ 0) = (text ++ [10]).take n := by
  rw [List.takeWhile_eq_self_iff]
  intro c hc
  rcases List.mem_append.mp (List.mem_of_mem_take hc) with hc | hc
  · exact decide_eq_true (h c hc).1
  · obtain rfl := List.mem_singleton.mp hc
    rfl

theorem takeWhile_line {text : CStr} (h : ∀ c ∈ text, c ≠ 0 ∧ c ≠ 10) :
    (text ++ [10]).takeWhile (· ≠ 0) = text ++ [10] := by
  have hline := takeWhile_take_line h (text ++ [10]).length
  rwa [List.take_length] at hline

/-- **The end of a long line** is thrown away, and nothing else. -/
theorem eatLine_line (rest : CStr) (fuel : Nat) :
    ∀ {text line more : CStr}, (∀ c ∈ text, c ≠ 0 ∧ c ≠ 10) → text ++ [10] = line ++ more →
      line ≠ [] → more.length < fuel → eatLine fuel line (more ++ rest) = .ok rest := by
  induction fuel with
  | zero => exact fun _ _ _ h => absurd h (Nat.not_lt_zero _)
  | succ fuel ih =>
    intro text line more htext hline hne hfuel
    rcases List.eq_nil_or_concat more with rfl | ⟨more, c, rfl⟩
    · -- the whole line is there
      rw [List.append_nil] at hline
      unfold eatLine
      rw [← hline, List.getLast?_concat]
      rfl
    · have hends : text = line ++ more ∧ [10] = [c] := by
        rw [List.concat_eq_append, ← List.append_assoc] at hline
        exact List.append_inj' hline rfl
      obtain ⟨rfl, hc⟩ := hends
      obtain rfl : 10 = c := List.singleton_inj.mp hc
      have hmore : ∀ c ∈ more, c ≠ 0 ∧ c ≠ 10 :=
        fun c hc => htext c (List.mem_append_right line hc)
      have hlast : line.getLast?.all (· = 10) = false := by
        rw [List.getLast?_eq_some_getLast hne]
        exact decide_eq_false (htext _ (List.mem_append_left more (List.getLast_mem hne))).2
      unfold eatLine
      rw [hlast, List.concat_eq_append, List.append_assoc, List.singleton_append,
        fgets_line (fun h => (hmore 10 h).2 rfl)]
      show eatLine fuel (((more ++ [10]).take 4095).takeWhile (· ≠ 0)) _ = .ok rest
      rw [takeWhile_take_line hmore]
      refine ih hmore (List.take_append_drop ..).symm ?_ ?_
      · simp
      · rw [List.length_concat] at hfuel
        rw [List.length_drop, List.length_append, List.length_singleton]
        omega

section Line

variable {m : LoadedModule}

theorem LoadedModule.Ok.line (h : m.Ok) : ∀ c ∈ m.line, c ≠ 0 ∧ c ≠ 10 := by
  intro c hc
  rcases List.mem_append.mp hc with hc | hc
  · exact ⟨(h.name.chars c hc).1, (h.name.chars c hc).2.1⟩
  rcases List.mem_cons.mp hc with rfl | hc
  · decide
  rcases List.mem_append.mp hc with hc | hc
  · have hdigit := ne_zero_of_mem_printInt (z := m.size) c hc
    exact ⟨hdigit.1, hdigit.2.1⟩
  rcases List.mem_cons.mp hc with rfl | hc
  · decide
  · exact h.info c hc

/-- The name and the size are in the part of the line that fits into the buffer. -/
theorem LoadedModule.Ok.buffered (h : m.Ok) : ∃ tail,
    ((m.line ++ [10]).take 4095).takeWhile (· ≠ 0)
      = m.name ++ 32 :: (printNat 10 m.size ++ 32 :: tail) := by
  have hdigits : (printNat 10 m.size).length ≤ 19 := by
    refine length_printNat_le (k := 18) (by decide) ?_
    have hsize := h.size
    unfold LONG_MAX at hsize
    omega
  have hname := h.name.length
  have hsplit : m.line ++ [10]
      = (m.name ++ 32 :: (printNat 10 m.size ++ [32])) ++ (m.info ++ [10]) := by
    simp [LoadedModule.line]
  have hshort : (m.name ++ 32 :: (printNat 10 m.size ++ [32])).length ≤ 4095 := by
    simp only [List.length_append, List.length_cons, List.length_nil]
    omega
  refine ⟨(m.info ++ [10]).take (4095 - (m.name ++ 32 :: (printNat 10 m.size ++ [32])).length), ?_⟩
  rw [takeWhile_take_line h.line, hsplit, List.take_append, List.take_of_length_le hshort]
  simp

/-- A name is a word. -/
theorem ModuleName.isBlank_false {name : CStr} (h : ModuleName name) :
    ∀ c ∈ name, isBlank c = false := by
  intro c hc
  obtain ⟨-, -, hspace, htab, -⟩ := h.chars c hc
  simp [isBlank, hspace, htab]

/-- **The words of a line**: the name and the size. -/
theorem LoadedModule.Ok.words (h : m.Ok) : ∃ more tail,
    strtokR isBlank (((m.line ++ [10]).take 4095).takeWhile (· ≠ 0)) = (some m.name, more) ∧
      strtokR isBlank more = (some (printNat 10 m.size), tail) := by
  obtain ⟨tail, htail⟩ := h.buffered
  have hdigits : ∀ c ∈ printNat 10 m.size, isBlank c = false := by
    intro c hc
    obtain ⟨-, -, hspace, htab⟩ := ne_zero_of_mem_printInt (z := m.size) c hc
    simp [isBlank, hspace, htab]
  rw [htail]
  exact ⟨_, tail, strtokR_word [] _ (by simp) h.name.ne_nil h.name.isBlank_false rfl,
    strtokR_word [] _ (by simp) (printNat_ne_nil 10 m.size) hdigits rfl⟩

theorem ModuleName.normalize {name : CStr} (h : ModuleName name) :
    Lookup.kmodModuleNewFromName name = name := by
  have hlen := h.length
  have htake : name.take (PATH_MAX - 1) = name :=
    List.take_of_length_le (by show name.length ≤ 4095; omega)
  have hdot : name.takeWhile (· ≠ 46) = name := by
    rw [List.takeWhile_eq_self_iff]
    exact fun c hc => decide_eq_true (h.chars c hc).2.2.2.2.2
  unfold Lookup.kmodModuleNewFromName modnameNormalize
  rw [htake, hdot]
  exact (List.map_congr_left (fun c hc => if_neg (h.chars c hc).2.2.2.2.1)).trans (List.map_id _)

end Line

/-! ## /proc/modules -/

/-- What the lines make, all together. -/
abbrev procModules (mods : List LoadedModule) : CStr := mods.flatMap (fun m => m.line ++ [10])

/-- The first line is read, and what comes next is the other lines. -/
theorem fgets_procModules {m : LoadedModule} (h : m.Ok) (mods : List LoadedModule) :
    ∃ buf rest, fgets PATH_MAX (procModules (m :: mods)) = some (buf, rest) ∧
      buf = (m.line ++ [10]).take 4095 ∧
      eatLine (rest.length + 1) (buf.takeWhile (· ≠ 0)) rest = .ok (procModules mods) := by
  have htext : procModules (m :: mods) = m.line ++ 10 :: procModules mods := by
    rw [procModules, List.flatMap_cons, List.append_assoc]
    rfl
  rw [htext]
  refine ⟨_, _, fgets_line (fun hmem => (h.line 10 hmem).2 rfl) _, rfl, ?_⟩
  rw [takeWhile_take_line h.line]
  refine eatLine_line _ _ h.line (List.take_append_drop ..).symm (by simp) ?_
  rw [List.length_append]
  omega

/-- A line has at least its newline. -/
theorem length_procModules_lt (m : LoadedModule) (mods : List LoadedModule) :
    (procModules mods).length < (procModules (m :: mods)).length := by
  rw [procModules, procModules, List.flatMap_cons, List.length_append, List.length_append,
    List.length_singleton]
  omega

/-- **Every module is found once**, in the order of the lines. -/
theorem loadedLoop_procModules {mods : List LoadedModule} : ∀ {fuel : Nat}, (∀ m ∈ mods, m.Ok) →
    (procModules mods).length < fuel →
    loadedLoop fuel (procModules mods) = .ok (mods.map LoadedModule.name) := by
  induction mods with
  | nil =>
    intro fuel _ hfuel
    cases fuel with
    | zero => exact absurd hfuel (Nat.not_lt_zero _)
    | succ fuel => rfl
  | cons m mods ih =>
    intro fuel hok hfuel
    cases fuel with
    | zero => exact absurd hfuel (Nat.not_lt_zero _)
    | succ fuel =>
      have hm := hok m (List.mem_cons_self ..)
      obtain ⟨_, rest, hfgets, rfl, heat⟩ := fgets_procModules hm mods
      obtain ⟨more, tail, hname, -⟩ := hm.words
      have hlt := length_procModules_lt m mods
      have hrest := @ih fuel (fun m hmem => hok m (List.mem_cons_of_mem _ hmem)) (by omega)
      rw [loadedLoop, hfgets]
      simp only [heat, hrest, hname, bind, Except.bind]
      rw [hm.name.normalize]
      rfl

/-- **The size in the line** of a module is found, whatever the lines before it are. -/
theorem sizeLoop_procModules {m : LoadedModule} {mods : List LoadedModule} :
    ∀ {fuel : Nat}, (∀ m ∈ mods, m.Ok) → (mods.map LoadedModule.name).Nodup → m ∈ mods →
    (procModules mods).length < fuel → sizeLoop m.name fuel (procModules mods) = .ok m.size := by
  induction mods with
  | nil => exact fun _ _ hmem => absurd hmem List.not_mem_nil
  | cons m' mods ih =>
    intro fuel hok hnodup hmem hfuel
    cases fuel with
    | zero => exact absurd hfuel (Nat.not_lt_zero _)
    | succ fuel =>
      have hm' := hok m' (List.mem_cons_self ..)
      obtain ⟨_, rest, hfgets, rfl, heat⟩ := fgets_procModules hm' mods
      obtain ⟨more, tail, hname, hsize⟩ := hm'.words
      rw [sizeLoop, hfgets]
      obtain ⟨hnot, hnodup'⟩ := List.nodup_cons.mp hnodup
      rcases List.mem_cons.mp hmem with rfl | hmem
      · -- this is the line
        have hnum : strtol 10 (printNat 10 m.size) = ⟨m.size, [], false⟩ := by
          have hstops : Stops 10 [] := stops_nil 10
          have hprint := strtol_printInt (z := m.size) (by omega) (by exact_mod_cast hm'.size) hstops
          rw [List.append_nil] at hprint
          exact hprint
        simp only [hname, ne_eq, not_true_eq_false, if_false, hsize, hnum]
        refine if_neg ?_
        rintro (h | h | h | h)
        · exact printNat_ne_nil 10 m.size h.symm
        · exact h
        · exact Bool.false_ne_true h
        · omega
      · -- another module has another name
        have hne : some m'.name ≠ some m.name := by
          intro heq
          exact hnot (List.mem_map.mpr ⟨m, hmem, (Option.some.inj heq).symm⟩)
        have hlt := length_procModules_lt m' mods
        simp only [hname, ne_eq, hne, not_false_eq_true, if_true]
        rw [heat]
        exact ih (fun m hmem => hok m (List.mem_cons_of_mem _ hmem)) hnodup' hmem (by omega)

/-! ## /sys/module -/

section Shown

variable {sys : System} {mods : List LoadedModule} {m : LoadedModule}

/-- The paths fit into their buffers. -/
theorem ModuleName.sysModule {name : CStr} (h : ModuleName name) {tail : CStr}
    (htail : tail.length ≤ 10) :
    sysModule name tail = cstr "/sys/module/" ++ (name ++ tail) := by
  have hname := h.length
  have hprefix : (cstr "/sys/module/").length = 12 := by decide
  unfold Loaded.sysModule
  refine List.take_of_length_le ?_
  rw [List.length_append, List.length_append, hprefix]
  show 12 + (name.length + tail.length) ≤ 4095
  omega

theorem Shows.kmodModuleGetRefcnt (h : Shows sys mods) (hm : m ∈ mods) :
    kmodModuleGetRefcnt sys m.name = .ok m.refcnt := by
  have hok := h.ok m hm
  obtain ⟨hlow, hhigh⟩ := hok.refcnt
  unfold Loaded.kmodModuleGetRefcnt
  rw [hok.name.sysModule (by decide), h.refcnt m hm]
  dsimp only
  rw [readStrLong_number (h.answers _) (by unfold LONG_MAX; omega) (by unfold LONG_MAX; omega)]
  show Except.ok (if (0 : Int) < 0 then 0 else m.refcnt.bmod (2 ^ 32)) = .ok m.refcnt
  rw [if_neg (by decide), Int.bmod_eq_of_le (by omega) (by omega)]

/-- The two ways to the size lead to the same. -/
theorem Shows.kmodModuleGetSize (h : Shows sys mods) (hm : m ∈ mods) :
    kmodModuleGetSize sys m.name = .ok m.size := by
  have hok := h.ok m hm
  obtain ⟨content, hdir⟩ := h.dir m hm
  have hpath : sysModule m.name [] = cstr "/sys/module/" ++ m.name := by
    rw [hok.name.sysModule (by decide), List.append_nil]
  unfold Loaded.kmodModuleGetSize
  rw [hpath, hdir]
  dsimp only
  cases hcore : sys.openFile (cstr "/sys/module/" ++ m.name ++ cstr "/coresize") with
  | ok content =>
    rw [h.coresize m hm content hcore]
    have hread := readStrLong_number (z := m.size)
      (h.answers (cstr "/sys/module/" ++ m.name ++ cstr "/coresize")) (by omega)
      (by exact_mod_cast hok.size)
    exact congrArg (Except.map Prod.snd) hread
  | error errno =>
    rw [h.proc]
    exact sizeLoop_procModules h.ok h.nodup hm (Nat.lt_succ_self _)

theorem Shows.kmodModuleGetHolders (h : Shows sys mods) (hm : m ∈ mods) :
    kmodModuleGetHolders sys m.name = m.holders := by
  have hok := h.ok m hm
  obtain ⟨entries, hentries, hfilter⟩ := h.holders m hm
  unfold Loaded.kmodModuleGetHolders
  rw [hok.name.sysModule (by decide), hentries]
  dsimp only
  rw [hfilter]
  exact (List.map_congr_left (fun hm hmem => (hok.holders hm hmem).normalize)).trans
    (List.map_id _)

theorem Shows.kmodModuleGetInitstate (h : Shows sys mods) (hm : m ∈ mods) :
    kmodModuleGetInitstate sys m.name = .ok m.state.code := by
  have hok := h.ok m hm
  have hname := hok.name.length
  have hfits : ¬ PATH_MAX ≤ (cstr "/sys/module/" ++ (m.name ++ cstr "/initstate")).length := by
    have hprefix : (cstr "/sys/module/").length = 12 := by decide
    have htail : (cstr "/initstate").length = 10 := by decide
    rw [List.length_append, List.length_append, hprefix, htail]
    show ¬ 4096 ≤ _
    omega
  have htext : m.state.text.length ≤ 31 ∧ ∀ c ∈ m.state.text, c ≠ 0 := by
    cases m.state <;> decide
  obtain ⟨buf, left, hread, hbuf⟩ := readStrSafe_text
    (h.answers (cstr "/sys/module/" ++ (m.name ++ cstr "/initstate"))) htext.1 htext.2
  have hnonneg : ¬ (m.state.text.length : Int) < 0 := by omega
  unfold Loaded.kmodModuleGetInitstate
  rw [h.builtin m hm, if_neg Bool.false_ne_true, if_neg hfits, hok.name.sysModule (by decide),
    h.initstate m hm]
  simp only [hread, bind, Except.bind]
  rw [if_neg hnonneg, hbuf]
  cases m.state with
  | live => rfl
  | coming => rfl
  | going => rfl

/-- The sections are those the directory lists, with what their files say. -/
theorem sectionsLoop_shown {dname : CStr}
    (hanswers : ∀ path, Delivers 31 (sys.answers path)) :
    ∀ {entries : List CStr} {sections : List (CStr × Nat)},
      entries.filter (!isDots ·) = sections.map Prod.fst →
      (∀ s ∈ sections, s.2 ≤ ULONG_MAX ∧
        sys.openFile (dname ++ 47 :: s.1) = .ok (printAddress s.2 ++ cstr "\n")) →
      sectionsLoop sys dname entries = .ok (some sections) := by
  intro entries
  induction entries with
  | nil =>
    intro sections hfilter _
    obtain rfl := List.map_eq_nil_iff.mp hfilter.symm
    rfl
  | cons entry entries ih =>
    intro sections hfilter hfiles
    rw [sectionsLoop]
    cases hdots : isDots entry with
    | true =>
      rw [List.filter_cons_of_neg (by simp [hdots])] at hfilter
      exact ih hfilter hfiles
    | false =>
      rw [List.filter_cons_of_pos (by simp [hdots])] at hfilter
      cases sections with
      | nil => cases hfilter
      | cons s sections =>
        obtain ⟨rfl, hentries⟩ := List.cons_eq_cons.mp hfilter
        obtain ⟨hle, hfile⟩ := hfiles s (List.mem_cons_self ..)
        have hrest := ih hentries (fun s hs => hfiles s (List.mem_cons_of_mem _ hs))
        rw [if_neg Bool.false_ne_true, hfile]
        simp only [readStrUlong_address (hanswers _) hle, hrest, bind, Except.bind]
        rfl

theorem Shows.kmodModuleGetSections (h : Shows sys mods) (hm : m ∈ mods) :
    kmodModuleGetSections sys m.name = .ok m.sections := by
  have hok := h.ok m hm
  obtain ⟨entries, hentries, hfilter⟩ := h.sections m hm
  unfold Loaded.kmodModuleGetSections
  rw [hok.name.sysModule (by decide), hentries]
  dsimp only
  rw [sectionsLoop_shown h.answers hfilter
    (fun s hs => ⟨hok.sections s hs, h.address m hm s hs⟩)]
  rfl

end Shown

/-! ## The result -/

/-- The line lsmod shows for a module. -/
def LoadedModule.row (m : LoadedModule) : CStr := lsmodRow m.name m.size m.refcnt m.holders

theorem lsmodLoop_shows {sys : System} {mods : List LoadedModule} (h : Shows sys mods) :
    ∀ list : List LoadedModule, list ⊆ mods →
      lsmodLoop sys (list.map LoadedModule.name) = .ok (list.flatMap LoadedModule.row) := by
  intro list
  induction list with
  | nil => exact fun _ => rfl
  | cons m list ih =>
    intro hsub
    obtain ⟨hm, hsub⟩ := List.cons_subset.mp hsub
    rw [List.map_cons, lsmodLoop, h.kmodModuleGetRefcnt hm, h.kmodModuleGetSize hm,
      h.kmodModuleGetHolders hm, ih hsub]
    rfl

/--
**lsmod shows what is loaded**, in the kernel's order, with the size, the number of uses and the
holders of each module. It does not matter how long the lines of `/proc/modules` are, in which
pieces the files are read and whether the kernel shows sizes below `/sys/module`. The states and
the sections are found as well.
-/
theorem lsmod_shows {sys : System} {mods : List LoadedModule} (h : Shows sys mods) :
    doLsmod sys [] = .ok (LSMOD_HEADER ++ mods.flatMap LoadedModule.row, 0) ∧
      ∀ m ∈ mods, kmodModuleGetInitstate sys m.name = .ok m.state.code ∧
        kmodModuleGetSections sys m.name = .ok m.sections := by
  refine ⟨?_, fun m hm => ⟨h.kmodModuleGetInitstate hm, h.kmodModuleGetSections hm⟩⟩
  have hloaded : kmodModuleNewFromLoaded sys = .ok (.ok (mods.map LoadedModule.name)) := by
    unfold kmodModuleNewFromLoaded
    rw [h.proc]
    exact congrArg (Except.map Except.ok) (loadedLoop_procModules h.ok (Nat.lt_succ_self _))
  unfold doLsmod
  rw [if_neg (by simp), hloaded]
  simp only [lsmodLoop_shows h mods (List.Subset.refl _), bind, Except.bind]

def dmCrypt : LoadedModule :=
  ⟨cstr "dm_crypt", 65536, 0, [], .coming, [], cstr "0 - Loading 0x0"⟩

def dmMod : LoadedModule :=
  ⟨cstr "dm_mod", 212992, 1, [cstr "dm_crypt"], .live, [(cstr ".text", 0xffffffffc0a2c000)],
    cstr "1 dm_crypt, Live 0x0"⟩

/-- A kernel with two modules, of which one uses the other. -/
def twoModules : List LoadedModule := [dmCrypt, dmMod]

theorem mem_twoModules {m : LoadedModule} (h : m ∈ twoModules) : m = dmCrypt ∨ m = dmMod := by
  rcases List.mem_cons.mp h with rfl | h
  · exact .inl rfl
  · exact .inr (List.mem_singleton.mp h)

/-- It is an old one: the sizes are in `/proc/modules` only. -/
def twoModulesSystem : System where
  openFile path :=
    if path = cstr "/proc/modules" then .ok (procModules twoModules)
    else if path = cstr "/sys/module/dm_crypt/initstate" then .ok (cstr "coming\n")
    else if path = cstr "/sys/module/dm_mod/initstate" then .ok (cstr "live\n")
    else if path = cstr "/sys/module/dm_crypt/refcnt" then .ok (cstr "0\n")
    else if path = cstr "/sys/module/dm_mod/refcnt" then .ok (cstr "1\n")
    else if path = cstr "/sys/module/dm_mod/sections/.text" then
      .ok (cstr "0xffffffffc0a2c000\n")
    else if path = cstr "/sys/module/dm_crypt" ∨ path = cstr "/sys/module/dm_mod" then .ok []
    else .error ENOENT
  answers _ := .failed 11 (by decide) :: List.replicate 40 (.got 3)
  opendir path :=
    if path = cstr "/sys/module/dm_mod/holders" then
      some [cstr ".", cstr "..", cstr "dm_crypt"]
    else if path = cstr "/sys/module/dm_mod/sections" then
      some [cstr ".", cstr "..", cstr ".text"]
    else some [cstr ".", cstr ".."]
  stat _ := .ok true
  isBuiltin _ := false

/-- Two modules are shown. -/
theorem lsmod_shows_two : doLsmod twoModulesSystem [] = .ok (LSMOD_HEADER ++
    (cstr "dm_crypt               65536  0\n" ++
      cstr "dm_mod                212992  1 dm_crypt\n"), 0) := by
  have hdelivers : Delivers 31 (.failed 11 (by decide) :: List.replicate 40 (.got 3)) := by
    refine ⟨?_, by decide⟩
    intro a ha
    rcases List.mem_cons.mp ha with rfl | ha
    · exact .inl rfl
    · exact .inr ⟨3, List.eq_of_mem_replicate ha⟩
  have h : Shows twoModulesSystem twoModules := {
    ok := by
      have hname : ModuleName (cstr "dm_crypt") := ⟨by decide, by decide, by decide⟩
      intro m hm
      rcases mem_twoModules hm with rfl | rfl
      · exact ⟨hname, fun _ h => absurd h List.not_mem_nil, by decide, by decide, by decide,
          by decide⟩
      · exact ⟨⟨by decide, by decide, by decide⟩, fun _ h => List.mem_singleton.mp h ▸ hname,
          by decide, by decide, by decide, by decide⟩
    nodup := by decide
    proc := rfl
    answers := fun _ => hdelivers
    builtin := fun _ _ => rfl
    dir := by
      intro m hm
      rcases mem_twoModules hm with rfl | rfl <;> exact ⟨[], rfl⟩
    initstate := by
      intro m hm
      rcases mem_twoModules hm with rfl | rfl <;> rfl
    coresize := by
      intro m hm content hcontent
      rcases mem_twoModules hm with rfl | rfl <;> cases hcontent
    refcnt := by
      intro m hm
      rcases mem_twoModules hm with rfl | rfl <;> rfl
    holders := by
      intro m hm
      rcases mem_twoModules hm with rfl | rfl <;> exact ⟨_, rfl, rfl⟩
    sections := by
      intro m hm
      rcases mem_twoModules hm with rfl | rfl <;> exact ⟨_, rfl, rfl⟩
    address := by
      intro m hm s hs
      rcases mem_twoModules hm with rfl | rfl
      · cases hs
      · obtain rfl := List.mem_singleton.mp hs
        rfl }
  exact (lsmod_shows h).1.trans (by decide)

end Kmod.Loaded
