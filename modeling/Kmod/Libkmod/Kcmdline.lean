import Kmod.Lib.Bytes
import Kmod.Lib.Memory
import Kmod.Libkmod.Config

/-!
# The kernel command line

Module options may be given on the kernel command line. `kmod_config_parse_kcmdline`
goes through the command line character by character, in a buffer that it edits in
place: a NUL ends the module name and the option, and the text in front of a value is
moved by one to put a quote in front of the value. Pointers into the buffer are offsets
here, and `param` and `value` keep what an earlier option left in them.
-/

namespace Kmod

open Kmod.Bytes Kmod.Memory

/-- `KCMD_LINE_SIZE`. -/
def KCMD_LINE_SIZE : Nat := 4096

/-- What `underscores` leaves in its argument, whether it returns an error or not. -/
def underscoresText : Bool → CStr → CStr
  | _, [] => []
  | true, c :: s => c :: underscoresText (c ≠ 93) s
  | false, c :: s =>
    if c = 45 then 95 :: underscoresText false s
    else if c = 93 then c :: s
    else c :: underscoresText (c = 91) s

/-- `kcmdline_parse_result`: the configuration and the buffer then. -/
def kcmdlineParseResult (config : KmodConfig) (buf : List UInt8) (modname : Nat)
    (param value : Option Nat) : Except Fault (KmodConfig × List UInt8) :=
  match param with
  | none => .ok (config, buf)
  | some param => do
    let name ← stringAt buf modname
    let text ← stringAt buf param
    if name = cstr "modprobe" ∧ cstr "blacklist=" <+: text then
      match value with
      | none => .ok (config, buf)
      | some value => do
        -- `strsep` writes a NUL for each comma
        let names ← stringAt buf value
        let buf ← inBlock (putRange buf value (names.map (fun c => if c = 44 then 0 else c)))
        .ok ((names.splitOn 44).foldl kmodConfigAddBlacklist config, buf)
    else do
      let buf ← inBlock (putRange buf modname (underscoresText false name))
      match underscores (some name) with
      | none => .ok (config, buf)
      | some name => do
        let text ← stringAt buf param
        .ok (kmodConfigAddOptions config name text, buf)

/-- The states of the parser. -/
inductive KcmdlineMode where
  | ignore
  | modname
  | param
  | value
  | complete
  deriving DecidableEq, Repr

/-- The variables of `kmod_config_parse_kcmdline` other than `p`. -/
structure KcmdlineState where
  buf : List UInt8
  modname : Nat
  param : Option Nat
  value : Option Nat
  pQuoteStart : Option Nat
  isQuoted : Bool
  state : KcmdlineMode
  config : KmodConfig

/-- The `switch` on the character at `p`. -/
def kcmdlineChar (p : Nat) (c : UInt8) (st : KcmdlineState) : KcmdlineState :=
  if c = 34 then
    if !st.isQuoted ∧ st.state = .modname ∧ p = st.modname then
      { st with isQuoted := !st.isQuoted, pQuoteStart := some p, modname := p + 1 }
    else if st.state ≠ .value then { st with isQuoted := !st.isQuoted, state := .ignore }
    else { st with isQuoted := !st.isQuoted }
  else if c = 0 ∨ isspace c then
    if st.isQuoted ∧ st.state = .value then st
    else if st.isQuoted then { st with state := .ignore }
    else if st.state = .value ∨ st.state = .param then
      { st with buf := st.buf.set p 0, state := .complete }
    else { st with modname := p + 1, state := .modname, pQuoteStart := none }
  else if c = 46 then
    if st.state = .modname then
      { st with buf := st.buf.set p 0, param := some (p + 1), state := .param }
    else if st.state = .param then { st with state := .ignore }
    else st
  else if c = 61 then
    if st.state = .param then { st with value := some (p + 1), state := .value }
    else if st.state = .modname then { st with state := .ignore }
    else st
  else st

/-- Puts the quote that stands before the module name in front of the value. -/
def kcmdlineRequote (st : KcmdlineState) : Except Fault KcmdlineState :=
  match st.pQuoteStart with
  | none => .ok st
  | some start =>
    if start < st.modname then do
      let value ← inBlock st.value
      let param ← inBlock st.param
      if value < st.modname then .error .outOfBounds
      else do
        let moved ← inBlock (getRange st.buf st.modname (value - st.modname))
        let buf ← inBlock (putRange st.buf start moved)
        let buf ← inBlock (putRange buf (value - 1) [34])
        .ok { st with
          buf := buf, value := some (value - 1), modname := st.modname - 1, param :=
          some (param - 1) }
    else .ok st

/-- What is done when an option is complete; then the next one begins. -/
def kcmdlineComplete (p : Nat) (st : KcmdlineState) : Except Fault KcmdlineState :=
  if st.state = .complete then do
    let st ← kcmdlineRequote st
    let (config, buf) ← kcmdlineParseResult st.config st.buf st.modname st.param st.value
    .ok { st with
      buf := buf, config := config, modname := p + 1, state := .modname, pQuoteStart := none }
  else .ok st

/-- The loop over the characters; `n` bytes of the buffer are left. -/
def kcmdlineLoop : Nat → Nat → KcmdlineState → Except Fault KcmdlineState
  | 0, _, _ => .error .outOfBounds
  | n + 1, p, st => do
    let c ← inBlock st.buf[p]?
    let st ← kcmdlineComplete p (kcmdlineChar p c st)
    if c = 0 then .ok st else kcmdlineLoop n (p + 1) st

/-- The part of `kmod_config_parse_kcmdline` that parses the buffer. -/
def parseKcmdline (config : KmodConfig) (buf : List UInt8) : Except Fault KmodConfig := do
  let st ← kcmdlineLoop buf.length 0 ⟨buf, 0, none, none, none, false, .modname, config⟩
  .ok st.config

/--
`kmod_config_parse_kcmdline`: what it returns, and the configuration. The command line
is what can be read from `/proc/cmdline`, or an error; `junk` is what `read_str_safe`
does not fill of the buffer.
-/
def kmodConfigParseKcmdline (junk : Nat → UInt8) (config : KmodConfig)
    (cmdline : Except Int (List UInt8)) : Except Fault (Int × KmodConfig) :=
  match cmdline with
  | .error err => .ok (err, config)
  | .ok cmdline =>
    let str := cmdline.take (KCMD_LINE_SIZE - 1) ++ [0]
    do
      let config ← parseKcmdline config (str ++ (List.range (KCMD_LINE_SIZE - str.length)).map junk)
      .ok (0, config)

end Kmod
