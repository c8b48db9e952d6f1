import Kmod.Base
import Kmod.Lib.ByteScan
import Kmod.Lib.Fuel
import Kmod.Lib.Replace

/-!
# Install and remove commands

A command from the configuration is run in place of inserting or removing a module. Before
that, `$CMDLINE_OPTS` in it is replaced by the options of the module. libkmod does this
for install commands and modprobe for remove commands, with the same loop: it looks for
the first `$CMDLINE_OPTS`, builds the command anew with the options in its place, and
starts again from the beginning of what it has built.

So the options are searched as well. If they contain `$CMDLINE_OPTS`, the loop never ends,
and if an end of them makes up one with the text next to it, this one is replaced,
too. Otherwise the command that is run is the one from the configuration with each
`$CMDLINE_OPTS` replaced once (`installCommand_once_iff`).
-/

namespace Kmod.CmdlineOpts

open Kmod.Memory Kmod.ByteScan Kmod.Replace Kmod.Fuel

/-! ## The model -/

/-- `"$CMDLINE_OPTS"`. -/
def cmdlineOpts : CStr := cstr "$CMDLINE_OPTS"

/-- What the functions find around them. -/
structure Host where
  /-- Whether the `n`th allocation of a command, of a size, succeeds. -/
  malloc : Nat → Nat → Bool
  /-- What stands in memory that has just been allocated. -/
  garbage : UInt8
  /-- `system`, by the value of `MODPROBE_MODULE` and the command: -1, or the status. -/
  system : CStr → CStr → Int

/-- `WEXITSTATUS`. -/
def WEXITSTATUS (status : Int) : Int := status / 256 % 256

/-- `strstr`, for the string at the beginning of a block. -/
def strstr (block : List UInt8) (word : CStr) : Option Nat := findWord word (front block)

/-- The body of the loop, once there is memory for the new command. -/
def buildCommand (host : Host) (options : CStr) (cmd : List UInt8)
    (prefixlen suffixlen slen : Nat) :
    Except Fault (List UInt8) := do
  let s := List.replicate (slen + 1) host.garbage
  let before ← inBlock (getRange cmd 0 prefixlen)
  let s ← inBlock (putRange s 0 before)
  let s ← inBlock (putRange s prefixlen options)
  let suffix ← inBlock (getRange cmd (prefixlen + cmdlineOpts.length) suffixlen)
  let s ← inBlock (putRange s (prefixlen + options.length) suffix)
  inBlock (putRange s slen [0])

/--
The loop of both functions. `n` allocations have been made, and `cmd` is the block with
the command, of length `cmdlen`. Nothing comes out if an allocation fails.
-/
def expandCommand (host : Host) (options : CStr) :
    Nat → Nat → List UInt8 → Nat → Except Fault (Option (List UInt8))
  | 0, _, _, _ => .error .outOfFuel
  | fuel + 1, n, cmd, cmdlen =>
    match strstr cmd cmdlineOpts with
    | none => .ok (some cmd)
    | some prefixlen =>
      let suffixlen := cmdlen - prefixlen - cmdlineOpts.length
      let slen := cmdlen - cmdlineOpts.length + options.length
      if !host.malloc n (slen + 1) then .ok none
      else do
        let s ← buildCommand host options cmd prefixlen suffixlen slen
        expandCommand host options fuel (n + 1) s slen

/-- What comes of a command. -/
structure Outcome where
  /-- The command as it is after the loop. -/
  made : Option CStr
  /-- The command that was run. -/
  ran : Option CStr
  ret : Int

/-- An allocation failed. -/
def Outcome.noMemory : Outcome := ⟨none, none, -ENOMEM⟩

/-- `command_do` of libkmod. -/
def libkmodCommandDo (host : Host) (modname cmd : CStr) : Int :=
  let err := host.system modname cmd
  if err = -1 then -EINVAL
  else if WEXITSTATUS err ≠ 0 then -EINVAL
  else 0

/-- `module_do_install_commands`; `run_install` may be `NULL`. -/
def moduleDoInstallCommands (host : Host) (runInstall : Option (CStr → Int)) (fuel : Nat)
    (modname command : CStr) (options : Option CStr) : Except Fault Outcome :=
  let options := options.getD []
  if !host.malloc 0 (command.length + 1) then .ok .noMemory
  else do
    let cmd ← expandCommand host options fuel 1 (command ++ [0]) command.length
    match cmd with
    | none => .ok .noMemory
    | some cmd =>
      let err :=
        match runInstall with
        | some run => run (front cmd)
        | none => libkmodCommandDo host modname (front cmd)
      .ok ⟨some (front cmd), some (front cmd), err⟩

/-- `command_do` of modprobe. -/
def commandDo (host : Host) (dryRun : Bool) (fuel : Nat) (modname command : CStr)
    (cmdlineOpts : Option CStr) : Except Fault Outcome :=
  let cmdlineOpts := cmdlineOpts.getD []
  if !host.malloc 0 (command.length + 1) then .ok .noMemory
  else do
    let cmd ← expandCommand host cmdlineOpts fuel 1 (command ++ [0]) command.length
    match cmd with
    | none => .ok .noMemory
    | some cmd =>
      if dryRun then .ok ⟨some (front cmd), none, 0⟩
      else
        let ret := host.system modname (front cmd)
        let ret := if ret ≠ -1 ∧ WEXITSTATUS ret ≠ 0 then -WEXITSTATUS ret else ret
        .ok ⟨some (front cmd), some (front cmd), ret⟩

/-- The command with each `$CMDLINE_OPTS` replaced by the options. -/
def expandedOnce (command : CStr) (options : Option CStr) : CStr :=
  replaceAll cmdlineOpts (options.getD []) command

/-! ## One round -/

theorem front_concat {text : CStr} (h : 0 ∉ text) : front (text ++ [0]) = text := by
  have hne : ∀ c ∈ text, (c != 0) = true := by
    intro c hc
    exact bne_iff_ne.2 (fun h0 => h (h0 ▸ hc))
  unfold front
  rw [List.takeWhile_append_of_pos hne]
  exact List.append_nil text

/-- Writing at the end of what has been written. -/
theorem putRange_garbage (a cells : List UInt8) (k : Nat) (garbage : UInt8) :
    putRange (a ++ List.replicate (cells.length + k) garbage) a.length cells
      = some (a ++ cells ++ List.replicate k garbage) := by
  rw [putRange_append _ _ _ (by simp), List.drop_replicate, Nat.add_sub_cancel_left,
    List.append_assoc]

/-- The new command is the old one with the options in the place of the variable. -/
theorem buildCommand_eq (host : Host) (options before after : CStr) :
    buildCommand host options (before ++ (cmdlineOpts ++ after) ++ [0]) before.length after.length
      (before.length + options.length + after.length) =
        .ok (before ++ (options ++ after) ++ [0]) := by
  have hbefore : getRange (before ++ (cmdlineOpts ++ after) ++ [0]) 0 before.length
      = some before := by
    have := getRange_append [] before (cmdlineOpts ++ after ++ [0])
    rwa [← List.append_assoc before] at this
  have hafter : getRange (before ++ (cmdlineOpts ++ after) ++ [0])
      (before.length + cmdlineOpts.length) after.length = some after := by
    have := getRange_append (before ++ cmdlineOpts) after [0]
    rwa [List.length_append, ← List.append_assoc, List.append_assoc before] at this
  have hsize : before.length + options.length + after.length + 1
      = before.length + (options.length + (after.length + 1)) := by omega
  have hone : putRange (List.replicate (before.length + (options.length + (after.length + 1)))
      host.garbage) 0 before = _ :=
    putRange_garbage [] before (options.length + (after.length + 1)) host.garbage
  have htwo := putRange_garbage before options (after.length + 1) host.garbage
  have hthree := putRange_garbage (before ++ options) after 1 host.garbage
  have hfour : putRange (before ++ options ++ after ++ List.replicate 1 host.garbage) _ [0] = _ :=
    putRange_garbage (before ++ options ++ after) [0] 0 host.garbage
  rw [List.length_append] at hthree
  rw [List.length_append, List.length_append] at hfour
  unfold buildCommand
  simp only [hbefore, hafter, hsize, hone, htwo, hthree, hfour, inBlock_some, ok_bind,
    List.nil_append]
  simp

theorem cmdlineOpts_eq : cmdlineOpts = 36 :: cstr "CMDLINE_OPTS" := by decide

/-- `$` only begins the variable, so two of them do not overlap. -/
theorem dollar_notMem : (36 : UInt8) ∉ cstr "CMDLINE_OPTS" := by decide

theorem expandCommand_of_absent (host : Host) (options : CStr) {text : CStr} (h0 : 0 ∉ text)
    (h : ¬ cmdlineOpts <:+: text) (fuel n : Nat) :
    expandCommand host options (fuel + 1) n (text ++ [0]) text.length
      = .ok (some (text ++ [0])) := by
  have hnone : strstr (text ++ [0]) cmdlineOpts = none := by
    rw [strstr, front_concat h0, findWord_eq_none.2 h]
  rw [expandCommand, hnone]

/-- A round replaces the first variable. -/
theorem expandCommand_append (host : Host) (options : CStr) {before after : CStr}
    (h0 : 0 ∉ before ++ (cmdlineOpts ++ after)) (h : ¬ cmdlineOpts <:+: before) (fuel n : Nat) :
    expandCommand host options (fuel + 1) n (before ++ (cmdlineOpts ++ after) ++ [0])
        (before ++ (cmdlineOpts ++ after)).length
      = if !host.malloc n (before.length + options.length + after.length + 1) then .ok none
        else expandCommand host options fuel (n + 1) (before ++ (options ++ after) ++ [0])
          (before ++ (options ++ after)).length := by
  have hfirst : strstr (before ++ (cmdlineOpts ++ after) ++ [0]) cmdlineOpts
      = some before.length := by
    rw [strstr, front_concat h0]
    rw [cmdlineOpts_eq] at h ⊢
    exact findWord_append dollar_notMem h after
  have hlen : (before ++ (cmdlineOpts ++ after)).length
      = before.length + cmdlineOpts.length + after.length := by
    rw [List.length_append, List.length_append, Nat.add_assoc]
  have hsuffix : before.length + cmdlineOpts.length + after.length - before.length
      - cmdlineOpts.length = after.length := by omega
  have hslen : before.length + cmdlineOpts.length + after.length - cmdlineOpts.length
      + options.length = before.length + options.length + after.length := by omega
  have hnew : (before ++ (options ++ after)).length
      = before.length + options.length + after.length := by
    rw [List.length_append, List.length_append, Nat.add_assoc]
  rw [expandCommand, hfirst, hlen]
  simp only [hsuffix, hslen, buildCommand_eq, ok_bind, hnew]

/-! ## The loop -/

/-- What the loop makes of the texts of the rounds. -/
def loopResult : Option CStr → Except Fault (Option (List UInt8))
  | none => .error .outOfFuel
  | some text => .ok (some (text ++ [0]))

/-- **The loop rescans**, unless an allocation fails. -/
theorem expandCommand_rescan (host : Host) {options : CStr} (hoptions : 0 ∉ options) (fuel : Nat) :
    ∀ (n : Nat) (text : CStr), 0 ∉ text →
      (expandCommand host options fuel n (text ++ [0]) text.length = .ok none ∧
          ∃ k size, host.malloc k size = false) ∨
        expandCommand host options fuel n (text ++ [0]) text.length
          = loopResult (rescan cmdlineOpts options fuel text) := by
  induction fuel with
  | zero =>
    intro n text _
    exact .inr rfl
  | succ fuel ih =>
    intro n text h0
    cases hfind : findWord cmdlineOpts text with
    | none =>
      have hin := findWord_eq_none.1 hfind
      rw [expandCommand_of_absent host options h0 hin, rescan_of_absent hin]
      exact .inr rfl
    | some i =>
      obtain ⟨before, after, rfl, -, hbefore⟩ := eq_of_findWord (by decide) hfind
      rw [expandCommand_append host options h0 hbefore]
      cases halloc : host.malloc n (before.length + options.length + after.length + 1) with
      | false => exact .inl ⟨rfl, _, _, halloc⟩
      | true =>
        have hnext : rescan cmdlineOpts options (fuel + 1) (before ++ (cmdlineOpts ++ after))
            = rescan cmdlineOpts options fuel (before ++ (options ++ after)) := by
          rw [cmdlineOpts_eq] at hbefore ⊢
          exact rescan_append dollar_notMem hbefore after fuel
        have hnul : 0 ∉ before ++ (options ++ after) := by
          simp only [List.mem_append, not_or] at h0 ⊢
          exact ⟨h0.1, hoptions, h0.2.2⟩
        rw [hnext]
        exact ih (n + 1) _ hnul

/-- A result does not change with more rounds. -/
theorem expandCommand_mono (host : Host) (options : CStr) (fuel : Nat) :
    ∀ (n : Nat) (cmd : List UInt8) (cmdlen : Nat) {res : Option (List UInt8)},
      expandCommand host options fuel n cmd cmdlen = .ok res →
      ∀ fuel' ≥ fuel, expandCommand host options fuel' n cmd cmdlen = .ok res := by
  induction fuel with
  | zero =>
    intro n cmd cmdlen res h
    cases h
  | succ fuel ih =>
    intro n cmd cmdlen res h fuel' hfuel
    obtain ⟨fuel', rfl⟩ : ∃ m, fuel' = m + 1 := ⟨fuel' - 1, by omega⟩
    unfold expandCommand at h ⊢
    split at h
    · exact h
    · simp only at h ⊢
      split at h
      · next hfail => rwa [if_pos hfail]
      · next hfail =>
        obtain ⟨s, hs, hrest⟩ := ok_of_bind h
        rw [if_neg hfail, hs, ok_bind]
        exact ih _ _ _ hrest fuel' (by omega)

/-- The command that the functions have after their loop. -/
def madeCommand (host : Host) (fuel : Nat) (command options : CStr) : Except Fault (Option CStr) :=
  if !host.malloc 0 (command.length + 1) then .ok none
  else (expandCommand host options fuel 1 (command ++ [0]) command.length).map (Option.map front)

theorem madeCommand_mono {host : Host} {command options : CStr} {fuel : Nat} {made : Option CStr}
    (h : madeCommand host fuel command options = .ok made) {fuel' : Nat} (hfuel : fuel' ≥ fuel) :
    madeCommand host fuel' command options = .ok made := by
  unfold madeCommand at h ⊢
  split at h
  · next hfail => rwa [if_pos hfail]
  · next hfail =>
    rw [if_neg hfail]
    cases hres : expandCommand host options fuel 1 (command ++ [0]) command.length with
    | error e =>
      rw [hres] at h
      cases h
    | ok res =>
      rw [hres] at h
      rw [expandCommand_mono host options fuel _ _ _ hres fuel' hfuel]
      exact h

/-- The command is what rescanning gives, unless an allocation fails. -/
theorem madeCommand_rescan (host : Host) {command options : CStr} (hcommand : 0 ∉ command)
    (hoptions : 0 ∉ options) (fuel : Nat) :
    (madeCommand host fuel command options = .ok none ∧ ∃ k size, host.malloc k size = false) ∨
      madeCommand host fuel command options
        = (rescan cmdlineOpts options fuel command).elim (.error .outOfFuel)
            (fun s => .ok (some s)) := by
  unfold madeCommand
  cases halloc : host.malloc 0 (command.length + 1) with
  | false => exact .inl ⟨rfl, _, _, halloc⟩
  | true =>
    rcases expandCommand_rescan host hoptions fuel 1 command hcommand with ⟨h, hfail⟩ | h
    · refine .inl ⟨?_, hfail⟩
      rw [h]
      rfl
    · refine .inr ?_
      rw [h]
      cases hres : rescan cmdlineOpts options fuel command with
      | none => rfl
      | some text =>
        have h0 : 0 ∉ text := by
          intro hmem
          rcases mem_of_rescan hres hmem with hmem | hmem
          · exact hcommand hmem
          · exact hoptions hmem
        show Except.ok (some (front (text ++ [0]))) = _
        rw [front_concat h0]
        rfl

/-! ## The two functions -/

/-- `module_do_install_commands` after its loop. -/
def installOutcome (host : Host) (runInstall : Option (CStr → Int)) (modname : CStr) :
    Option CStr → Outcome
  | none => .noMemory
  | some cmd =>
    ⟨some cmd, some cmd, runInstall.elim (libkmodCommandDo host modname cmd) (fun run => run cmd)⟩

/-- `command_do` of modprobe after its loop. -/
def commandOutcome (host : Host) (dryRun : Bool) (modname : CStr) : Option CStr → Outcome
  | none => .noMemory
  | some cmd =>
    let ret := host.system modname cmd
    ⟨some cmd, if dryRun then none else some cmd,
      if dryRun then 0 else if ret ≠ -1 ∧ WEXITSTATUS ret ≠ 0 then -WEXITSTATUS ret else ret⟩

theorem moduleDoInstallCommands_eq (host : Host) (runInstall : Option (CStr → Int)) (fuel : Nat)
    (modname command : CStr) (options : Option CStr) :
    moduleDoInstallCommands host runInstall fuel modname command options
      = (madeCommand host fuel command (options.getD [])).map
          (installOutcome host runInstall modname) := by
  unfold moduleDoInstallCommands madeCommand
  simp only
  split
  · rfl
  · cases expandCommand host (options.getD []) fuel 1 (command ++ [0]) command.length with
    | error e => rfl
    | ok cmd =>
      cases cmd with
      | none => rfl
      | some cmd => cases runInstall <;> rfl

theorem commandDo_eq (host : Host) (dryRun : Bool) (fuel : Nat) (modname command : CStr)
    (options : Option CStr) :
    commandDo host dryRun fuel modname command options
      = (madeCommand host fuel command (options.getD [])).map
          (commandOutcome host dryRun modname) := by
  unfold commandDo madeCommand
  simp only
  split
  · rfl
  · cases expandCommand host (options.getD []) fuel 1 (command ++ [0]) command.length with
    | error e => rfl
    | ok cmd =>
      cases cmd with
      | none => rfl
      | some cmd => cases dryRun <;> rfl

@[simp] theorem installOutcome_made (host : Host) (runInstall : Option (CStr → Int))
    (modname : CStr) (made : Option CStr) :
    (installOutcome host runInstall modname made).made = made := by
  cases made <;> rfl

@[simp] theorem installOutcome_ran (host : Host) (runInstall : Option (CStr → Int))
    (modname : CStr) (made : Option CStr) :
    (installOutcome host runInstall modname made).ran = made := by
  cases made <;> rfl

@[simp] theorem commandOutcome_made (host : Host) (dryRun : Bool) (modname : CStr)
    (made : Option CStr) : (commandOutcome host dryRun modname made).made = made := by
  cases made <;> rfl

@[simp] theorem commandOutcome_ran (host : Host) (dryRun : Bool) (modname : CStr)
    (made : Option CStr) :
    (commandOutcome host dryRun modname made).ran = if dryRun then none else made := by
  cases made <;> cases dryRun <;> rfl

/--
Both functions come to an end with the same command, and this is the one from the
configuration with each `$CMDLINE_OPTS` replaced once, or an allocation fails and there is
none. It is also what they run, apart from a dry run.
-/
def ExpandsOnce (command : CStr) (options : Option CStr) : Prop :=
  ∀ (host : Host) (runInstall : Option (CStr → Int)) (dryRun : Bool) (modname : CStr),
    ∃ (bound : Nat) (installed removed : Outcome),
      (∀ fuel ≥ bound,
        moduleDoInstallCommands host runInstall fuel modname command options = .ok installed ∧
          commandDo host dryRun fuel modname command options = .ok removed) ∧
      installed.made = removed.made ∧
      installed.ran = installed.made ∧
      removed.ran = (if dryRun then none else removed.made) ∧
      (installed.made = some (expandedOnce command options) ∨
        installed.made = none ∧ ∃ k size, host.malloc k size = false)

/-- A host with as much memory as is asked for, where no command fails. -/
def ampleHost : Host := ⟨fun _ _ => true, 0, fun _ _ => 0⟩

theorem madeCommand_ample {command options : CStr} (hcommand : 0 ∉ command) (hoptions : 0 ∉ options)
    (fuel : Nat) :
    madeCommand ampleHost fuel command options
      = (rescan cmdlineOpts options fuel command).elim (.error .outOfFuel)
        (fun s => .ok (some s)) := by
  rcases madeCommand_rescan ampleHost hcommand hoptions fuel with ⟨-, k, size, hfail⟩ | h
  · cases hfail
  · exact h

/--
**When `$CMDLINE_OPTS` is replaced once.** For every command and all options, the loops of
`module_do_install_commands` and `command_do` end with each `$CMDLINE_OPTS` of the
command replaced once if and only if the options put in the place of each of them do
not make another one appear.
-/
theorem installCommand_once_iff (command : CStr) (options : Option CStr) (hcommand : 0 ∉ command)
    (hoptions : 0 ∉ options.getD []) :
    ExpandsOnce command options ↔ ¬ cmdlineOpts <:+: expandedOnce command options := by
  constructor
  · intro h
    obtain ⟨bound, installed, removed, hrun, -, -, -, hmade⟩ := h ampleHost none false []
    have hres := (hrun bound (Nat.le_refl _)).1
    rw [moduleDoInstallCommands_eq, madeCommand_ample hcommand hoptions] at hres
    cases hscan : rescan cmdlineOpts (options.getD []) bound command with
    | none =>
      rw [hscan] at hres
      cases hres
    | some text =>
      rw [hscan] at hres
      cases hres
      rcases hmade with hmade | ⟨hmade, -⟩
      · rw [installOutcome_made] at hmade
        exact Option.some.inj hmade ▸ absent_of_rescan hscan
      · rw [installOutcome_made] at hmade
        cases hmade
  · intro h host runInstall dryRun modname
    have hscan : ∃ bound, ∀ fuel ≥ bound, rescan cmdlineOpts (options.getD []) fuel command
        = some (expandedOnce command options) := by
      unfold expandedOnce at h ⊢
      rw [cmdlineOpts_eq] at h ⊢
      exact (rescan_eq_iff dollar_notMem command).2 h
    obtain ⟨bound, hscan⟩ := hscan
    obtain ⟨made, hmade, hcases⟩ : ∃ made,
        madeCommand host bound command (options.getD []) = .ok made ∧
          (made = some (expandedOnce command options) ∨
            made = none ∧ ∃ k size, host.malloc k size = false) := by
      rcases madeCommand_rescan host hcommand hoptions bound with ⟨hnone, hfail⟩ | hsome
      · exact ⟨none, hnone, .inr ⟨rfl, hfail⟩⟩
      · rw [hscan bound (Nat.le_refl _)] at hsome
        exact ⟨_, hsome, .inl rfl⟩
    refine ⟨bound, installOutcome host runInstall modname made,
      commandOutcome host dryRun modname made,
      fun fuel hfuel => ?_, ?_, ?_, ?_, ?_⟩
    · rw [moduleDoInstallCommands_eq, commandDo_eq, madeCommand_mono hmade hfuel]
      exact ⟨rfl, rfl⟩
    · rw [installOutcome_made, commandOutcome_made]
    · rw [installOutcome_ran, installOutcome_made]
    · rw [commandOutcome_ran, commandOutcome_made]
    · rwa [installOutcome_made]

theorem installCommand_once_fred :
    ExpandsOnce (cstr "/sbin/modprobe --ignore-install fred $CMDLINE_OPTS") (some (cstr "opt=1")) :=
  (installCommand_once_iff _ _ (by decide) (by decide)).2 (by decide +kernel)

/-- If command and options have the variable, then the loop never ends. -/
theorem madeCommand_endless {command options : CStr} (hcommand : 0 ∉ command)
    (hoptions : 0 ∉ options)
    (hin : cmdlineOpts <:+: command) (hnew : cmdlineOpts <:+: options) :
    Endless .outOfFuel (fun fuel => madeCommand ampleHost fuel command options) := by
  intro fuel
  show madeCommand ampleHost fuel command options = _
  rw [madeCommand_ample hcommand hoptions, rescan_endless hnew fuel command hin]
  rfl

/-- With `$CMDLINE_OPTS` as an option, both loops go on for ever. -/
theorem installCommand_once_endless :
    ¬ ExpandsOnce (cstr "/sbin/modprobe -i fred $CMDLINE_OPTS") (some (cstr "$CMDLINE_OPTS")) ∧
      Endless .outOfFuel (fun fuel => moduleDoInstallCommands ampleHost none fuel (cstr "fred")
        (cstr "/sbin/modprobe -i fred $CMDLINE_OPTS") (some (cstr "$CMDLINE_OPTS"))) ∧
      Endless .outOfFuel (fun fuel => commandDo ampleHost false fuel (cstr "fred")
        (cstr "/sbin/modprobe -i fred $CMDLINE_OPTS") (some (cstr "$CMDLINE_OPTS"))) := by
  have hmade : ∀ fuel, madeCommand ampleHost fuel (cstr "/sbin/modprobe -i fred $CMDLINE_OPTS")
      (cstr "$CMDLINE_OPTS") = .error .outOfFuel :=
    madeCommand_endless (by decide) (by decide) (by decide) (by decide)
  have hinstall : Endless .outOfFuel (fun fuel => moduleDoInstallCommands ampleHost none fuel
      (cstr "fred") (cstr "/sbin/modprobe -i fred $CMDLINE_OPTS")
      (some (cstr "$CMDLINE_OPTS"))) := by
    intro fuel
    show moduleDoInstallCommands _ _ _ _ _ _ = _
    rw [moduleDoInstallCommands_eq, Option.getD_some, hmade]
    rfl
  refine ⟨fun h => ?_, hinstall, fun fuel => ?_⟩
  · obtain ⟨bound, installed, removed, hrun, -⟩ := h ampleHost none false (cstr "fred")
    have hres := (hrun bound (Nat.le_refl _)).1.symm.trans (hinstall bound)
    cases hres
  · show commandDo _ _ _ _ _ _ = _
    rw [commandDo_eq, Option.getD_some, hmade]
    rfl

end Kmod.CmdlineOpts
