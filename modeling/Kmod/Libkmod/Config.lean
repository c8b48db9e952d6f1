import Kmod.Libkmod.ProbeList

/-!
# The configuration

libkmod reads its configuration line by line. A line is cut into words by
`strtok_r`; what follows the name of a softdep or a weakdep is cut into words by a
scanner of its own, which goes through the text twice: once to count, and once to
copy the words into the block that was allocated in between.

Such a block holds the name and the words one after the other, each with its NUL,
and lists of pointers to the words. Pointers are offsets here, and writing past the
end of the block or of a list is a fault.

The texts of log messages are left out. An allocation succeeds unless its size is
more than `PTRDIFF_MAX`; sizes that overflow a `size_t`, which the code checks for,
are among these.
-/

namespace Kmod

/-! ## Characters and words -/

/-- `isspace`, in the C locale. -/
def isspace (c : UInt8) : Bool := c = 32 || (9 ≤ c && c ≤ 13)

/-- The delimiters space and tab. -/
def isBlank (c : UInt8) : Bool := c = 32 || c = 9

/-- `strtok_r`: the token, and where the next call goes on. -/
def strtokR (delim : UInt8 → Bool) (s : CStr) : Option CStr × CStr :=
  match s.dropWhile delim with
  | [] => (none, [])
  | c :: s => (some ((c :: s).takeWhile (fun c => !delim c)),
      ((c :: s).dropWhile (fun c => !delim c)).drop 1)

/-- The delimiters of `strtok_r(NULL, "\0", ...)`. -/
def noDelim (_ : UInt8) : Bool := false

/-- The loop of `underscores`, outside or inside of brackets. -/
def underscoresLoop : Bool → CStr → Option CStr
  | false, [] => some []
  | true, [] => none
  | true, c :: s => (underscoresLoop (c ≠ 93) s).map (c :: ·)
  | false, c :: s =>
    if c = 45 then (underscoresLoop false s).map (95 :: ·)
    else if c = 93 then none
    else (underscoresLoop (c = 91) s).map (c :: ·)

/-- `underscores`: the string with underscores for dashes, unless it returns an error. -/
def underscores (s : Option CStr) : Option CStr := s.bind (underscoresLoop false)

/-- The string a pointer points to. -/
def cstrAt (mem : List UInt8) (p : Nat) : CStr := (mem.drop p).takeWhile (· ≠ 0)

/-! ## The scanner of dependency lists -/

section Scan

variable {σ ε : Type}

/--
The loop that cuts a text into words: `tok` is what stands between `p` and `s`, the
line is the rest from `s` on. A word is given to `step` when a space or the end of
the line follows, with the answer to `*s != '\0' || !was_space`.
-/
def scanLine (step : σ → CStr → Bool → Except ε σ) : CStr → CStr → Bool → σ → Except ε σ
  | [], tok, wasSpace, st => step st tok (!wasSpace)
  | c :: line, tok, wasSpace, st =>
    if !isspace c then scanLine step line (tok ++ [c]) false st
    else if wasSpace then scanLine step line [] true st
    -- `p >= s`: the loop goes on and `p` stays where it is, at this space
    else if tok = [] then scanLine step line [c] true st
    else do
      let st ← step st tok true
      scanLine step line [] true st

end Scan

/-! ## Softdeps -/

/-- Where the words of a softdep go. -/
inductive SoftdepMode where
  | none
  | pre
  | post
  deriving DecidableEq, Repr

/-- The block of a `struct kmod_softdep`: the bytes from `name` on, and the pointers into them. -/
structure SoftdepBlock where
  text : List UInt8
  pre : List Nat
  post : List Nat
  deriving DecidableEq, Repr

/-- The softdep as the rest of libkmod sees it. -/
def SoftdepBlock.softdep (dep : SoftdepBlock) : KmodSoftdep :=
  ⟨cstrAt dep.text 0, dep.pre.map (cstrAt dep.text), dep.post.map (cstrAt dep.text)⟩

/-- What the first pass counts. -/
structure SoftdepCount where
  mode : SoftdepMode
  nPre : Nat
  nPost : Nat
  buflen : Nat

/-- One word in the first pass. -/
def softdepCount (n : SoftdepCount) (word : CStr) (counts : Bool) : Except Int SoftdepCount :=
  if word = cstr "pre:" then .ok { n with mode := .pre }
  else if word = cstr "post:" then .ok { n with mode := .post }
  else if counts then
    match n.mode with
    | .none => .ok n
    | .pre =>
      if n.nPre + 1 > UINT32_MAX then .error (-EINVAL)
      else .ok { n with nPre := n.nPre + 1, buflen := n.buflen + (word.length + 1) }
    | .post =>
      if n.nPost + 1 > UINT32_MAX then .error (-EINVAL)
      else .ok { n with nPost := n.nPost + 1, buflen := n.buflen + (word.length + 1) }
  else .ok n

/-- What the second pass has copied. -/
structure SoftdepCopy where
  mode : SoftdepMode
  block : SoftdepBlock

/-- One word in the second pass; the block has room for what was counted. -/
def softdepCopy (nPre nPost size : Nat) (st : SoftdepCopy) (word : CStr) (counts : Bool) :
    Except Fault SoftdepCopy :=
  if word = cstr "pre:" then .ok { st with mode := .pre }
  else if word = cstr "post:" then .ok { st with mode := .post }
  else if counts then
    let dep := st.block
    match st.mode with
    | .none => .ok st
    | .pre =>
      if dep.pre.length < nPre ∧ dep.text.length + (word.length + 1) ≤ size then
        .ok ⟨.pre, ⟨dep.text ++ (word ++ [0]), dep.pre ++ [dep.text.length], dep.post⟩⟩
      else .error .outOfBounds
    | .post =>
      if dep.post.length < nPost ∧ dep.text.length + (word.length + 1) ≤ size then
        .ok ⟨.post, ⟨dep.text ++ (word ++ [0]), dep.pre, dep.post ++ [dep.text.length]⟩⟩
      else .error .outOfBounds
  else .ok st

/-- `sizeof(struct kmod_softdep)`, with three pointers and two counters. -/
def SIZEOF_SOFTDEP : Nat := 32

/-- `sizeof(struct kmod_weakdep)`, with two pointers and a counter. -/
def SIZEOF_WEAKDEP : Nat := 24

/-! ## Weakdeps -/

/-- The block of a `struct kmod_weakdep`. -/
structure WeakdepBlock where
  text : List UInt8
  weak : List Nat
  deriving DecidableEq, Repr

/-- The words of a weakdep. -/
def WeakdepBlock.words (dep : WeakdepBlock) : List CStr := dep.weak.map (cstrAt dep.text)

/-- One word in the first pass: the number of words, and `buflen`. -/
def weakdepCount (n : Nat × Nat) (word : CStr) (counts : Bool) : Except Int (Nat × Nat) :=
  if counts then
    if n.1 + 1 > UINT32_MAX then .error (-EINVAL) else .ok (n.1 + 1, n.2 + (word.length + 1))
  else .ok n

/-- One word in the second pass. -/
def weakdepCopy (nWeak size : Nat) (dep : WeakdepBlock) (word : CStr) (counts : Bool) :
    Except Fault WeakdepBlock :=
  if counts then
    if dep.weak.length < nWeak ∧ dep.text.length + (word.length + 1) ≤ size then
      .ok ⟨dep.text ++ (word ++ [0]), dep.weak ++ [dep.text.length]⟩
    else .error .outOfBounds
  else .ok dep

/-! ## The configuration -/

/-- A `struct kmod_config`. -/
structure KmodConfig where
  /-- Name and module name. -/
  aliases : List (CStr × CStr)
  blacklists : List CStr
  /-- Module name and options. -/
  options : List (CStr × CStr)
  installCommands : List (CStr × CStr)
  removeCommands : List (CStr × CStr)
  softdeps : List SoftdepBlock
  weakdeps : List WeakdepBlock
  deriving DecidableEq, Repr

/-- A configuration with nothing in it. -/
def emptyConfig : KmodConfig := ⟨[], [], [], [], [], [], []⟩

/-- `kmod_config_add_alias`. -/
def kmodConfigAddAlias (config : KmodConfig) (name modname : CStr) : KmodConfig :=
  { config with aliases := config.aliases ++ [(name, modname)] }

/-- `kmod_config_add_blacklist`. -/
def kmodConfigAddBlacklist (config : KmodConfig) (modname : CStr) : KmodConfig :=
  { config with blacklists := config.blacklists ++ [modname] }

/-- `kmod_config_add_options`: tabs in the options become spaces. -/
def kmodConfigAddOptions (config : KmodConfig) (modname options : CStr) : KmodConfig :=
  { config with
    options := config.options ++ [(modname, options.map (fun c => if c = 9 then 32 else c))] }

/-- `kmod_config_add_softdep`: what it returns, and the configuration then. -/
def kmodConfigAddSoftdep (config : KmodConfig) (modname line : CStr) :
    Except Fault (Int × KmodConfig) :=
  match scanLine softdepCount line [] false ⟨.none, 0, 0, 0⟩ with
  | .error err => .ok (err, config)
  | .ok n =>
    if SIZEOF_SOFTDEP + (modname.length + 1) + n.nPre * 8 + n.nPost * 8 + n.buflen > PTRDIFF_MAX then
      .ok (-ENOMEM, config)
    else do
      let copy ← scanLine (softdepCopy n.nPre n.nPost (modname.length + 1 + n.buflen)) line [] false
        ⟨.none, modname ++ [0], [], []⟩
      .ok (0, { config with softdeps := config.softdeps ++ [copy.block] })

/-- `kmod_config_add_weakdep`. -/
def kmodConfigAddWeakdep (config : KmodConfig) (modname line : CStr) :
    Except Fault (Int × KmodConfig) :=
  match scanLine weakdepCount line [] false (0, 0) with
  | .error err => .ok (err, config)
  | .ok (nWeak, buflen) =>
    if SIZEOF_WEAKDEP + (modname.length + 1) + nWeak * 8 + buflen > PTRDIFF_MAX then
      .ok (-ENOMEM, config)
    else do
      let dep ← scanLine (weakdepCopy nWeak (modname.length + 1 + buflen)) line [] false
        ⟨modname ++ [0], []⟩
      .ok (0, { config with weakdeps := config.weakdeps ++ [dep] })

/-! ## The lines of a configuration file -/

/-- The rest of a line with a module name and a text: an error ends the line. -/
def withModname (config : KmodConfig) (rest : CStr)
    (add : CStr → CStr → Except Fault KmodConfig) : Except Fault KmodConfig :=
  let (modname, rest) := strtokR isBlank rest
  let (text, _) := strtokR noDelim rest
  match underscores modname, text with
  | some modname, some text => add modname text
  | _, _ => .ok config

/-- One line of `kmod_config_parse`; a bad line is ignored. -/
def kmodConfigParseLine (config : KmodConfig) (line : CStr) : Except Fault KmodConfig :=
  if line = [] ∨ line.head? = some 35 then .ok config
  else
    match strtokR isBlank line with
    | (none, _) => .ok config
    | (some cmd, rest) =>
      if cmd = cstr "alias" then
        let (alias_, rest) := strtokR isBlank rest
        let (modname, _) := strtokR isBlank rest
        match underscores alias_, underscores modname with
        | some alias_, some modname => .ok (kmodConfigAddAlias config alias_ modname)
        | _, _ => .ok config
      else if cmd = cstr "blacklist" then
        match underscores (strtokR isBlank rest).1 with
        | some modname => .ok (kmodConfigAddBlacklist config modname)
        | none => .ok config
      else if cmd = cstr "options" then
        withModname config rest (fun modname options => .ok (kmodConfigAddOptions config modname options))
      else if cmd = cstr "install" then
        withModname config rest (fun modname command =>
          .ok { config with installCommands := config.installCommands ++ [(modname, command)] })
      else if cmd = cstr "remove" then
        withModname config rest (fun modname command =>
          .ok { config with removeCommands := config.removeCommands ++ [(modname, command)] })
      else if cmd = cstr "softdep" then
        withModname config rest (fun modname softdeps =>
          (kmodConfigAddSoftdep config modname softdeps).map Prod.snd)
      else if cmd = cstr "weakdep" then
        withModname config rest (fun modname weakdeps =>
          (kmodConfigAddWeakdep config modname weakdeps).map Prod.snd)
      else .ok config

/-- `kmod_config_parse`, on the lines that `freadline_wrapped` returns. -/
def kmodConfigParse (config : KmodConfig) (lines : List CStr) : Except Fault KmodConfig :=
  lines.foldlM kmodConfigParseLine config

end Kmod
