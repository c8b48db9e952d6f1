import Kmod.Index.Served
import Kmod.Libkmod.StoredConfig
import Kmod.Shared.ReadLine

/-!
# Showing the configuration

`modprobe -c` prints what libkmod has read: the seven lists of the configuration, each entry as a
line that a configuration file could have, and the indexes of aliases and symbols. People keep
the output as a configuration file.

What is printed is read again by the parser of such files (`showConfig_reparse`). All that has
been stored is in a form that the parser leaves alone, since it has been through it once
(`Stored`); so every line gives its entry back. The exceptions are the dependencies: nothing is
printed for one without words, and the two lists of a softdep run into each other.
-/

namespace Kmod.ShowConfig

open Kmod Kmod.Bytes Kmod.Memory Index StoredConfig

/-! ## The model -/

/-- `weakdep_to_char`: the buffer it returns, unless it cannot be allocated. -/
def weakdepToChar (junk : Nat → UInt8) (dep : WeakdepBlock) :
    Except Fault (Option (List UInt8)) := do
  let szWeak ← listSize dep.text dep.weak
  let sz := (1 + szWeak) % (SIZE_MAX + 1)
  if sz > PTRDIFF_MAX then .ok none
  else do
    let s := (List.range sz).map junk
    if szWeak = 0 then do
      let s ← inBlock (putRange s 0 [0])
      .ok (some s)
    else do
      let start ← inBlock dep.weak.head?
      let words ← inBlock (getRange dep.text start szWeak)
      let s ← inBlock (putRange s 0 words)
      let s ← inBlock (mapRange (fun c => if c = 0 then 32 else c) s 0 szWeak)
      let s ← inBlock (putRange s szWeak [0])
      .ok (some s)

/-- `enum config_type` -/
inductive ConfigType where
  | blacklist
  | install
  | remove
  | alias_
  | option
  | softdep
  | weakdep
  deriving DecidableEq, Repr

/-- What an iterator comes by, as `kmod_config_iter_get_key` and `kmod_config_iter_get_value` give
it; `junk` is what is in a buffer at first. -/
def kmodConfigIter (junk : Nat → UInt8) (config : KmodConfig) :
    ConfigType → Except Fault (List (CStr × Option CStr))
  | .blacklist => .ok (config.blacklists.map (fun modname => (modname, none)))
  | .install => .ok (config.installCommands.map (fun c => (c.1, some c.2)))
  | .remove => .ok (config.removeCommands.map (fun c => (c.1, some c.2)))
  | .alias_ => .ok (config.aliases.map (fun a => (a.1, some a.2)))
  | .option => .ok (config.options.map (fun o => (o.1, some o.2)))
  | .softdep => config.softdeps.mapM (fun dep => do
      let s ← softdepToChar junk dep
      .ok (cstrAt dep.text 0, s.map (fun s => cstrAt s 0)))
  | .weakdep => config.weakdeps.mapM (fun dep => do
      let s ← weakdepToChar junk dep
      .ok (cstrAt dep.text 0, s.map (fun s => cstrAt s 0)))

/-- The array `ci` of `show_config`. -/
def configIterators : List (CStr × ConfigType) :=
  [(cstr "blacklist", .blacklist), (cstr "install", .install), (cstr "remove", .remove),
    (cstr "alias", .alias_), (cstr "options", .option), (cstr "softdep", .softdep),
    (cstr "weakdep", .weakdep)]

/-- One entry, without the newline. -/
def showEntry (name : CStr) (entry : CStr × Option CStr) : CStr :=
  name ++ cstr " " ++ entry.1 ++
    match entry.2 with
    | some val => cstr " " ++ val
    | none => []

/-- `show_config`: what is printed. -/
def showConfig (fuel : Nat) (junk : Nat → UInt8) (config : KmodConfig) (ctx : KmodCtx) :
    Except Fault CStr := do
  let sections ← configIterators.mapM (fun ci => do
    let entries ← kmodConfigIter junk config ci.2
    .ok (entries.flatMap (fun entry => showEntry ci.1 entry ++ cstr "\n")))
  let aliases ← kmodDumpIndex fuel ctx .modulesAlias
  let symbols ← kmodDumpIndex fuel ctx .modulesSymbol
  .ok (sections.flatten ++ cstr "\n# End of configuration files. Dumping indexes now:\n\n" ++
    aliases.2 ++ symbols.2)

/-- The lines of a file, as `freadline_wrapped` returns them. -/
def wrappedLines (content : CStr) : List CStr := (logicalLines content).map lineText

/-! ## The texts of dependencies -/

/-- Words with a space between them. -/
def joined : List CStr → CStr
  | [] => []
  | [w] => w
  | w :: ws => w ++ 32 :: joined ws

theorem joined_concat (ws : List CStr) (w : CStr) :
    joined (ws ++ [w]) = textOf (items ws) ++ w := by
  induction ws with
  | nil => rfl
  | cons v ws ih =>
    have hcons : joined (v :: (ws ++ [w])) = v ++ 32 :: joined (ws ++ [w]) := by
      cases ws with
      | nil => rfl
      | cons _ _ => rfl
    rw [List.cons_append, hcons, ih]
    simp [textOf, items]

/-- The words of a text with one space between the words. -/
theorem scanWords_joined {ws : List CStr} (hne : ws ≠ []) (h : ScannedWords ws) :
    scanWords (joined ws) [] false = ws := by
  cases ws with
  | nil => exact absurd rfl hne
  | cons w ws =>
    obtain ⟨⟨lead, v, rfl, hv, hlen, hlead⟩, hws⟩ := h
    have hspaced : ∀ {v : CStr} {ws : List CStr}, IsWord v → (∀ w ∈ ws, IsWord w) →
        ∃ gap items, WellSpaced ((v, gap) :: items) ∧
          textOf ((v, gap) :: items) = joined (v :: ws) ∧ wordsOf items = ws := by
      intro v ws
      induction ws generalizing v with
      | nil =>
        exact fun hv _ =>
          ⟨[], [], ⟨hv, by simp, by simp, trivial⟩, by simp [textOf, joined], rfl⟩
      | cons w ws ih =>
        intro hv hws
        obtain ⟨gap, items, hspaced, htext, hwords⟩ := ih (hws w (List.mem_cons_self ..))
          (fun x hx => hws x (List.mem_cons_of_mem _ hx))
        refine ⟨[32], (w, gap) :: items, ⟨hv, by decide, by simp, hspaced⟩, ?_, ?_⟩
        · show v ++ [32] ++ textOf ((w, gap) :: items) = v ++ 32 :: joined (w :: ws)
          rw [htext, List.append_assoc]
          rfl
        · show w :: wordsOf items = _
          rw [hwords]
    obtain ⟨gap, items, hspaced, htext, hwords⟩ := hspaced hv hws
    have hglue : joined ((lead ++ v) :: ws) = lead ++ joined (v :: ws) := by
      cases ws with
      | nil => rfl
      | cons w ws => exact List.append_assoc ..
    rw [hglue, ← htext, scanWords_lead hlead hspaced, hwords]
    rcases Nat.le_one_iff_eq_zero_or_eq_one.mp hlen with hzero | hone
    · rw [if_neg (by omega), List.eq_nil_of_length_eq_zero hzero, List.nil_append]
    · rw [if_pos hone]

/-- The NULs between the words become spaces. -/
theorem spaces_joined {ws : List CStr} {w : CStr} (hws : ∀ v ∈ ws, 0 ∉ v) (hw : 0 ∉ w) :
    (packed (weakWords ws) ++ w).map (fun c => if c = 0 then 32 else c) = joined (ws ++ [w]) := by
  have hword : ∀ {w : CStr}, 0 ∉ w → w.map (fun c => if c = 0 then 32 else c) = w := by
    intro w hw
    refine (List.map_congr_left (g := id) (fun c hc => ?_)).trans (List.map_id w)
    have hne : c ≠ 0 := fun h0 => hw (h0 ▸ hc)
    exact if_neg hne
  rw [joined_concat, List.map_append, hword hw]
  congr 1
  induction ws with
  | nil => rfl
  | cons v ws ih =>
    rw [weakWords_cons, packed_cons, List.map_append, List.map_append,
      hword (hws v (List.mem_cons_self ..)), ih (fun x hx => hws x (List.mem_cons_of_mem _ hx))]
    rfl

/-- **The text of a weakdep**: its words, with spaces between them. -/
theorem weakdepToChar_joined (junk : Nat → UInt8) {modname : CStr} {ws : List CStr}
    (hws : ∀ w ∈ ws, 0 ∉ w ∧ w ≠ []) (hfits : WeakdepFits modname ws) :
    weakdepToChar junk (weakBlock modname ws) = .ok (some (joined ws ++ [0])) := by
  have hsize := hfits.2
  unfold SIZEOF_WEAKDEP PTRDIFF_MAX at hsize
  rcases List.eq_nil_or_concat ws with rfl | ⟨inner, last, rfl⟩
  · rfl
  · rw [List.concat_eq_append] at *
    have hlast := hws last (by simp)
    have hinner : ∀ v ∈ inner, 0 ∉ v := fun v hv => (hws v (List.mem_append_left _ hv)).1
    have hpos : 0 < last.length := List.length_pos_iff.mpr hlast.2
    have hweak : weakWords (inner ++ [last]) = weakWords inner ++ [((), last)] := by
      simp [weakWords]
    have htext : (weakBlock modname (inner ++ [last])).text
        = (modname ++ [0]) ++ (packed (weakWords inner) ++ last ++ [0]) := by
      show modname ++ [0] ++ packed (weakWords (inner ++ [last])) = _
      rw [hweak, packed_append]
      simp
    have hptrs : (weakBlock modname (inner ++ [last])).weak
        = pointers () (modname.length + 1) (weakWords inner) ++
          [modname.length + 1 + (packed (weakWords inner)).length] := by
      show pointers () (modname.length + 1) (weakWords (inner ++ [last])) = _
      rw [hweak, pointers_append]
      rfl
    have hhead : (weakBlock modname (inner ++ [last])).weak.head? = some (modname.length + 1) := by
      rw [hptrs]
      cases inner with
      | nil => rfl
      | cons v inner => rfl
    have hlen : modname.length + 1 = (modname ++ [0]).length := by simp
    -- from the first word to the end of the last one
    have hlist : listSize (weakBlock modname (inner ++ [last])).text
        (weakBlock modname (inner ++ [last])).weak
        = .ok ((packed (weakWords inner)).length + last.length) := by
      unfold listSize strlenAt
      rw [hhead, hptrs, List.getLast?_concat, htext]
      dsimp only
      have hdrop : ((modname ++ [0]) ++ (packed (weakWords inner) ++ last ++ [0])).drop
          (modname.length + 1 + (packed (weakWords inner)).length) = last ++ 0 :: [] := by
        rw [hlen, ← List.length_append, List.append_assoc (packed _), ← List.append_assoc,
          List.drop_left]
      rw [hdrop, takeCstr_append hlast.1]
      show Except.ok (modname.length + 1 + (packed (weakWords inner)).length + last.length -
        (modname.length + 1)) = _
      congr 1
      omega
    rw [hweak, packed_append] at hsize
    simp only [packed_cons, packed_nil, List.length_append, List.length_cons, List.length_nil]
      at hsize
    have hmod : (1 + ((packed (weakWords inner)).length + last.length)) % (SIZE_MAX + 1)
        = 1 + ((packed (weakWords inner)).length + last.length) := by
      refine Nat.mod_eq_of_lt ?_
      unfold SIZE_MAX
      omega
    unfold weakdepToChar
    rw [hlist, ok_bind]
    dsimp only
    rw [hmod, if_neg (by unfold PTRDIFF_MAX; omega), if_neg (by omega), hhead]
    simp only [inBlock_some, ok_bind]
    obtain ⟨x, rest, hjunk, hrest⟩ : ∃ x rest, (List.range (1 + ((packed (weakWords inner)).length +
        last.length))).map junk = rest ++ [x] ∧
        rest.length = (packed (weakWords inner)).length + last.length := by
      refine ⟨junk ((packed (weakWords inner)).length + last.length),
        (List.range ((packed (weakWords inner)).length + last.length)).map junk, ?_, by simp⟩
      rw [Nat.add_comm 1, List.range_succ, List.map_append]
      rfl
    have hget : getRange (weakBlock modname (inner ++ [last])).text (modname.length + 1)
        ((packed (weakWords inner)).length + last.length)
        = some (packed (weakWords inner) ++ last) := by
      rw [htext, hlen, ← List.length_append]
      exact getRange_append _ _ _
    have hput : putRange (rest ++ [x]) 0 (packed (weakWords inner) ++ last)
        = some (packed (weakWords inner) ++ last ++ [x]) := by
      have := putRange_append [] (rest ++ [x]) (packed (weakWords inner) ++ last)
        (by simp [hrest])
      rw [List.nil_append, List.length_nil, List.nil_append] at this
      rw [this, List.length_append, ← hrest, List.drop_left]
    have hmap := mapRange_append (fun c => if c = (0 : UInt8) then 32 else c)
      (packed (weakWords inner) ++ last) [] [x]
    rw [List.nil_append, List.nil_append, List.length_nil, List.length_append,
      spaces_joined hinner hlast.1] at hmap
    have hjoined : (joined (inner ++ [last])).length
        = (packed (weakWords inner)).length + last.length := by
      rw [← spaces_joined hinner hlast.1, List.length_map, List.length_append]
    have hend : putRange (joined (inner ++ [last]) ++ [x])
        ((packed (weakWords inner)).length + last.length) [0]
        = some (joined (inner ++ [last]) ++ [0]) := by
      have := putRange_append (joined (inner ++ [last])) [x] [0] (Nat.le_refl _)
      rw [hjoined] at this
      simpa using this
    rw [hjunk, hget, inBlock_some, ok_bind, hput, inBlock_some, ok_bind, hmap, inBlock_some,
      ok_bind, hend, inBlock_some]
    rfl

/-! ## A line read again -/

section Again

variable (config : KmodConfig) {name : CStr} (hname : Name name)
include hname

theorem underscores_name : underscores (some name) = some name := hname.kept

/-- A name and a text behind a command. -/
theorem withModname_entry {text : CStr} (htext : text ≠ [])
    (add : CStr → CStr → Except Fault KmodConfig) :
    withModname config (name ++ cstr " " ++ text) add = add name text := by
  have hgap : ([32] : CStr) ≠ [] ∧ ∀ c ∈ ([32] : CStr), isBlank c = true := ⟨by simp, by decide⟩
  have hline := withModname_line config hgap ⟨hname.ne, hname.blank⟩
    (show isBlank 32 = true from rfl) htext add
  rw [underscores_name hname] at hline
  rw [List.append_assoc]
  exact hline

/-- A name with a blank behind it, or with nothing, is not enough. -/
theorem withModname_bare {rest : CStr} (hrest : rest = [] ∨ rest = cstr " ")
    (add : CStr → CStr → Except Fault KmodConfig) :
    withModname config (name ++ rest) add = .ok config := by
  have htok : strtokR isBlank (name ++ rest) = (some name, []) := by
    rcases hrest with rfl | rfl
    · rw [List.append_nil]
      exact strtokR_whole hname.ne hname.blank
    · exact strtokR_word [] [] (by simp) hname.ne hname.blank (by decide)
  unfold withModname
  rw [htok]
  dsimp only [strtokR, List.dropWhile_nil]
  rw [underscores_name hname]

omit hname

/-- The line of an entry begins with its command. -/
theorem showEntry_command (cmd : CStr) (hcmd : ∀ c ∈ cmd, isBlank c = false) (hne : cmd ≠ [])
    (entry : CStr × Option CStr) :
    strtokR isBlank (showEntry cmd entry)
      = (some cmd, entry.1 ++ match entry.2 with
        | some val => cstr " " ++ val
        | none => []) := by
  unfold showEntry
  rw [List.append_assoc, List.append_assoc]
  exact strtokR_word [] _ (by simp) hne hcmd (by decide)

/-- The line of a list that has a name and a text in each entry. -/
theorem parse_entry (cmd : CStr) (add : CStr → CStr → Except Fault KmodConfig)
    (hcmd : (∀ c ∈ cmd, isBlank c = false) ∧ cmd ≠ [] ∧ cmd.head? ≠ some 35)
    (hparse : ∀ line rest, line ≠ [] → line.head? ≠ some 35 →
      strtokR isBlank line = (some cmd, rest) →
        kmodConfigParseLine config line = withModname config rest add)
    (hname : Name name) :
    (∀ text ≠ [], kmodConfigParseLine config (showEntry cmd (name, some text)) = add name text) ∧
      kmodConfigParseLine config (showEntry cmd (name, none)) = .ok config ∧
      kmodConfigParseLine config (showEntry cmd (name, some [])) = .ok config := by
  obtain ⟨hblank, hne, hhash⟩ := hcmd
  have hstart : ∀ entry, showEntry cmd entry ≠ [] ∧ (showEntry cmd entry).head? ≠ some 35 := by
    intro entry
    cases cmd with
    | nil => exact absurd rfl hne
    | cons c cmd => exact ⟨by simp [showEntry], by simpa [showEntry] using hhash⟩
  have hentry := fun entry => hparse _ _ (hstart entry).1 (hstart entry).2
    (showEntry_command cmd hblank hne entry)
  refine ⟨fun text htext => ?_, ?_, ?_⟩
  · rw [hentry, ← List.append_assoc]
    exact withModname_entry config hname htext add
  · rw [hentry]
    exact withModname_bare config hname (.inl rfl) add
  · rw [hentry]
    exact withModname_bare config hname (.inr rfl) add

theorem parseLine_of_command {line cmd rest : CStr} (hne : line ≠ [])
    (hhash : line.head? ≠ some 35) (hcmd : strtokR isBlank line = (some cmd, rest)) :
    kmodConfigParseLine config line =
      if cmd = cstr "alias" then
        let (alias_, rest) := strtokR isBlank rest
        let (modname, _) := strtokR isBlank rest
        match underscores alias_, underscores modname with
        | some alias_, some modname => .ok (kmodConfigAddAlias config alias_ modname)
        | _, _ => .ok config
      else if cmd = cstr "blacklist" then
        match underscores (strtokR isBlank rest).1 with
        | some modname => .ok (kmodConfigAddBlacklist config modname)
        | none => .ok config
      else if cmd = cstr "options" then
        withModname config rest (fun modname options =>
          .ok (kmodConfigAddOptions config modname options))
      else if cmd = cstr "install" then
        withModname config rest (fun modname command =>
          .ok { config with installCommands := config.installCommands ++ [(modname, command)] })
      else if cmd = cstr "remove" then
        withModname config rest (fun modname command =>
          .ok { config with removeCommands := config.removeCommands ++ [(modname, command)] })
      else if cmd = cstr "softdep" then
        withModname config rest (fun modname softdeps =>
          (kmodConfigAddSoftdep config modname softdeps).map Prod.snd)
      else if cmd = cstr "weakdep" then
        withModname config rest (fun modname weakdeps =>
          (kmodConfigAddWeakdep config modname weakdeps).map Prod.snd)
      else .ok config := by
  unfold kmodConfigParseLine
  rw [hcmd]
  exact if_neg (by simp [hne, hhash])

theorem parse_blacklist (hname : Name name) :
    kmodConfigParseLine config (showEntry (cstr "blacklist") (name, none))
      = .ok (kmodConfigAddBlacklist config name) := by
  rw [parseLine_of_command config (by simp [showEntry, cstr]) (by simp [showEntry, cstr])
    (showEntry_command _ (by decide) (by decide) _), if_neg (by decide), if_pos rfl]
  dsimp only
  rw [List.append_nil, strtokR_whole hname.ne hname.blank, underscores_name hname]

theorem parse_alias {modname : CStr} (hname : Name name) (hmodname : Name modname) :
    kmodConfigParseLine config (showEntry (cstr "alias") (name, some modname))
      = .ok (kmodConfigAddAlias config name modname) := by
  rw [parseLine_of_command config (by simp [showEntry, cstr]) (by simp [showEntry, cstr])
    (showEntry_command _ (by decide) (by decide) _), if_pos rfl]
  have htok : strtokR isBlank (name ++ (cstr " " ++ modname)) = (some name, modname) :=
    strtokR_word [] modname (by simp) hname.ne hname.blank (by decide)
  dsimp only
  rw [htok]
  dsimp only
  rw [strtokR_whole hmodname.ne hmodname.blank, underscores_name hname, underscores_name hmodname]

theorem parse_options {options : CStr} (hname : Name name) (hne : options ≠ [])
    (htab : 9 ∉ options) :
    kmodConfigParseLine config (showEntry (cstr "options") (name, some options))
      = .ok { config with options := config.options ++ [(name, options)] } := by
  refine ((parse_entry config (cstr "options")
    (fun modname options => .ok (kmodConfigAddOptions config modname options)) (by decide)
    (fun line rest hne hhash hcmd => ?_) hname).1 options hne).trans ?_
  · rw [parseLine_of_command config hne hhash hcmd, if_neg (by decide), if_neg (by decide),
      if_pos rfl]
  · unfold kmodConfigAddOptions
    have hkeep : options.map (fun c => if c = 9 then 32 else c) = options := by
      refine (List.map_congr_left (g := id) (fun c hc => ?_)).trans (List.map_id options)
      have hne : c ≠ 9 := fun h => htab (h ▸ hc)
      exact if_neg hne
    rw [hkeep]

theorem parse_install {command : CStr} (hname : Name name) (hne : command ≠ []) :
    kmodConfigParseLine config (showEntry (cstr "install") (name, some command))
      = .ok { config with installCommands := config.installCommands ++ [(name, command)] } := by
  refine (parse_entry config (cstr "install") (fun modname command =>
    .ok { config with installCommands := config.installCommands ++ [(modname, command)] })
    (by decide) (fun line rest hne hhash hcmd => ?_) hname).1 command hne
  rw [parseLine_of_command config hne hhash hcmd, if_neg (by decide), if_neg (by decide),
    if_neg (by decide), if_pos rfl]

theorem parse_remove {command : CStr} (hname : Name name) (hne : command ≠ []) :
    kmodConfigParseLine config (showEntry (cstr "remove") (name, some command))
      = .ok { config with removeCommands := config.removeCommands ++ [(name, command)] } := by
  refine (parse_entry config (cstr "remove") (fun modname command =>
    .ok { config with removeCommands := config.removeCommands ++ [(modname, command)] })
    (by decide) (fun line rest hne hhash hcmd => ?_) hname).1 command hne
  rw [parseLine_of_command config hne hhash hcmd, if_neg (by decide), if_neg (by decide),
    if_neg (by decide), if_neg (by decide), if_pos rfl]

theorem parse_softdep (hname : Name name) :
    (∀ text ≠ [], kmodConfigParseLine config (showEntry (cstr "softdep") (name, some text))
      = (kmodConfigAddSoftdep config name text).map Prod.snd) ∧
    kmodConfigParseLine config (showEntry (cstr "softdep") (name, none)) = .ok config ∧
    kmodConfigParseLine config (showEntry (cstr "softdep") (name, some [])) = .ok config := by
  refine parse_entry config (cstr "softdep") (fun modname softdeps =>
    (kmodConfigAddSoftdep config modname softdeps).map Prod.snd) (by decide)
    (fun line rest hne hhash hcmd => ?_) hname
  rw [parseLine_of_command config hne hhash hcmd, if_neg (by decide), if_neg (by decide),
    if_neg (by decide), if_neg (by decide), if_neg (by decide), if_pos rfl]

theorem parse_weakdep (hname : Name name) :
    (∀ text ≠ [], kmodConfigParseLine config (showEntry (cstr "weakdep") (name, some text))
      = (kmodConfigAddWeakdep config name text).map Prod.snd) ∧
    kmodConfigParseLine config (showEntry (cstr "weakdep") (name, none)) = .ok config ∧
    kmodConfigParseLine config (showEntry (cstr "weakdep") (name, some [])) = .ok config := by
  refine parse_entry config (cstr "weakdep") (fun modname weakdeps =>
    (kmodConfigAddWeakdep config modname weakdeps).map Prod.snd) (by decide)
    (fun line rest hne hhash hcmd => ?_) hname
  rw [parseLine_of_command config hne hhash hcmd, if_neg (by decide), if_neg (by decide),
    if_neg (by decide), if_neg (by decide), if_neg (by decide), if_neg (by decide), if_pos rfl]

/-! ## A dependency read again -/

theorem isText_showEntry {cmd : CStr} {entry : CStr × Option CStr} (hcmd : IsText cmd)
    (hkey : IsText entry.1) (hval : ∀ val ∈ entry.2, IsText val) :
    IsText (showEntry cmd entry) := by
  have hspace : IsText (cstr " ") := by decide
  unfold showEntry
  refine ((hcmd.append hspace).append hkey).append ?_
  split
  · next val heq => exact hspace.append (hval val heq)
  · exact fun c hc => absurd hc List.not_mem_nil

/-- What is printed of a softdep consists of the keyword and the words. -/
theorem isText_of_printed {tag : SoftdepMode} {key t : CStr} {st : List (SoftdepMode × CStr)}
    (hst : ∀ e ∈ st, IsText e.2) (hkey : IsText key) (h : Printed tag key st t) : IsText t := by
  cases h with
  | none _ => exact fun c hc => absurd hc List.not_mem_nil
  | @some before inner after last hspan =>
    have hmem : ∀ e ∈ inner ++ [last], e ∈ st := by
      intro e he
      rw [hspan.eq]
      exact List.mem_append_right _ (List.mem_append_left _ he)
    refine hkey.append ?_
    unfold spanText
    intro c hc
    rcases List.mem_append.mp hc with hc | hc
    · obtain ⟨e, he, hc⟩ := List.mem_flatMap.mp hc
      rcases List.mem_append.mp hc with hc | hc
      · exact hst e (hmem e (List.mem_append_left _ he)) c hc
      · rw [List.mem_singleton.mp hc]
        decide
    · exact hst last (hmem last (by simp)) c hc

/-- What a line adds for a softdep. -/
theorem exists_addedSoftdep (name text : CStr) : ∃ added : Option SoftdepBlock,
    (∀ config, (kmodConfigAddSoftdep config name text).map Prod.snd
      = .ok { config with softdeps := config.softdeps ++ added.toList }) ∧
    ∀ dep, added = some dep ↔
      SoftdepFits name (softdepWords text) ∧ dep = blockOf name (softdepWords text) := by
  by_cases hfits : SoftdepFits name (softdepWords text)
  · refine ⟨some (blockOf name (softdepWords text)), fun config => ?_, fun dep => ?_⟩
    · rw [kmodConfigAddSoftdep_fits config hfits]
      rfl
    · simp [hfits, eq_comm]
  · refine ⟨none, fun config => ?_, fun dep => ?_⟩
    · obtain ⟨err, -, hrefused⟩ := kmodConfigAddSoftdep_refuses config hfits
      rw [hrefused]
      simp [Except.map]
    · simp [hfits]

/-- What a line adds for a weakdep. -/
theorem exists_addedWeakdep (name text : CStr) : ∃ added : Option WeakdepBlock,
    (∀ config, (kmodConfigAddWeakdep config name text).map Prod.snd
      = .ok { config with weakdeps := config.weakdeps ++ added.toList }) ∧
    ∀ dep, added = some dep ↔
      WeakdepFits name (scanWords text [] false) ∧
        dep = weakBlock name (scanWords text [] false) := by
  by_cases hfits : WeakdepFits name (scanWords text [] false)
  · refine ⟨some (weakBlock name (scanWords text [] false)), fun config => ?_, fun dep => ?_⟩
    · rw [kmodConfigAddWeakdep_block config hfits]
      rfl
    · simp [hfits, eq_comm]
  · refine ⟨none, fun config => ?_, fun dep => ?_⟩
    · obtain ⟨err, -, hrefused⟩ := kmodConfigAddWeakdep_refuses config hfits
      rw [hrefused]
      simp [Except.map]
    · simp [hfits]

theorem wordsIn_of_printed_nil {tag : SoftdepMode} {key : CStr} {st : List (SoftdepMode × CStr)}
    (hkey : key ≠ []) (h : Printed tag key st []) : wordsIn tag st = [] := by
  generalize ht : ([] : CStr) = t at h
  cases h with
  | none hnil => exact hnil
  | some _ => exact absurd (List.append_eq_nil_iff.mp ht.symm).1 hkey

/-- **A softdep that is printed and read again** is stored as something else, or not at all, unless
exactly one of its lists has words. -/
theorem softdep_again (junk : Nat → UInt8) {dep : SoftdepBlock} (hdep : StoredSoftdep dep) :
    ∃ (entry : CStr × Option CStr) (again : Option SoftdepBlock), (do
        let s ← softdepToChar junk dep
        Except.ok (cstrAt dep.text 0, s.map (fun s => cstrAt s 0))) = .ok entry ∧
      IsText (showEntry (cstr "softdep") entry) ∧
      (∀ config, kmodConfigParseLine config (showEntry (cstr "softdep") entry)
        = .ok { config with softdeps := config.softdeps ++ again.toList }) ∧
      (again = some dep ↔ (dep.softdep.pre = [] ↔ dep.softdep.post ≠ [])) := by
  obtain ⟨name, st, rfl, hname, hfits, hst⟩ := hdep
  have hstore : ∀ e ∈ st, Storable e := fun e he => (hst e he).1
  have hnul : ∀ e ∈ st, 0 ∉ e.2 := fun e he => (hst e he).2.nul
  obtain ⟨pre, htpre⟩ := exists_printed .pre (cstr "pre: ") st
  obtain ⟨post, htpost⟩ := exists_printed .post (cstr "post: ") st
  have hwords : ∀ e ∈ st, 0 ∉ e.2 ∧ e.2 ≠ [] := fun e he => ⟨hnul e he, (hstore e he).isWord.1⟩
  have htext : IsText (pre ++ post) :=
    (isText_of_printed (fun e he => (hst e he).2) (by decide) htpre).append
      (isText_of_printed (fun e he => (hst e he).2) (by decide) htpost)
  have hread : cstrAt (pre ++ post ++ [0]) 0 = pre ++ post := by
    have := cstrAt_append [] [] htext.nul
    simpa using this
  have hown : cstrAt (blockOf name st).text 0 = name :=
    congrArg KmodSoftdep.name (blockOf_softdep hname.text.nul hnul)
  rw [softdepToChar_printed junk hwords hfits.2 htpre htpost, ok_bind, hown,
    blockOf_softdep hname.text.nul hnul]
  have hlines := fun config => parse_softdep config hname
  by_cases hbig : 1 + pre.length + post.length > PTRDIFF_MAX
  · -- nothing is printed but the name
    rw [if_pos hbig]
    refine ⟨(name, none), none, rfl, isText_showEntry (by decide) hname.text (by simp),
      fun config => ?_, ?_⟩
    · rw [(hlines config).2.1]
      simp
    · have hboth : wordsIn .pre st ≠ [] ∧ wordsIn .post st ≠ [] := by
        have h1 := length_printed_le htpre hwords
        have h2 := length_printed_le htpost hwords
        have h3 : (cstr "pre: ").length = 5 := rfl
        have h4 : (cstr "post: ").length = 6 := rfl
        have hsize := hfits.2
        unfold softdepSize SIZEOF_SOFTDEP at hsize
        refine ⟨fun h => ?_, fun h => ?_⟩
        · rw [printed_nil h htpre, List.length_nil] at hbig
          omega
        · rw [printed_nil h htpost, List.length_nil] at hbig
          omega
      simp [hboth]
  · rw [if_neg hbig]
    have hentry : (Except.ok (name, (some (pre ++ post ++ [0])).map (fun s => cstrAt s 0)) :
        Except Fault (CStr × Option CStr)) = .ok (name, some (pre ++ post)) := by
      rw [Option.map_some, hread]
    rw [hentry]
    have hshown : IsText (showEntry (cstr "softdep") (name, some (pre ++ post))) :=
      isText_showEntry (by decide) hname.text (by simpa using htext)
    by_cases hempty : pre ++ post = []
    · refine ⟨_, none, rfl, hshown, fun config => ?_, ?_⟩
      · rw [hempty]
        rw [(hlines config).2.2]
        simp
      · obtain ⟨hpre, hpost⟩ := List.append_eq_nil_iff.mp hempty
        subst hpre hpost
        simp [wordsIn_of_printed_nil (by decide) htpre, wordsIn_of_printed_nil (by decide) htpost]
    · obtain ⟨again, hagain, hblock⟩ := exists_addedSoftdep name (pre ++ post)
      refine ⟨_, again, rfl, hshown, fun config => ?_, ?_⟩
      · rw [(hlines config).1 _ hempty, hagain]
      · rw [hblock]
        refine ⟨?_, fun hone => ?_⟩
        · rintro ⟨_, hsame⟩
          have hlists := congrArg SoftdepBlock.softdep hsame
          rw [blockOf_softdep hname.text.nul hnul,
            blockOf_softdep hname.text.nul (nul_of_softdepWords htext.nul)] at hlists
          obtain ⟨-, hpre, hpost⟩ := KmodSoftdep.mk.inj hlists
          refine ⟨fun hnil hnil' => ?_, fun hne => ?_⟩
          · refine hempty ?_
            rw [printed_nil hnil htpre, printed_nil hnil' htpost]
            rfl
          · by_contra hne'
            exact hne (hpost.trans (softdepWords_both hstore hne' hne htpre htpost))
        · have hsame : softdepWords (pre ++ post) = st := by
            refine softdepWords_printed hstore htpre htpost ?_
            by_cases hnil : wordsIn .pre st = []
            · exact .inl hnil
            · exact .inr (not_not.mp (fun hne => hnil (hone.mpr hne)))
          rw [hsame]
          exact ⟨hfits, rfl⟩

theorem isText_joined {ws : List CStr} (h : ∀ w ∈ ws, IsText w) : IsText (joined ws) := by
  rcases List.eq_nil_or_concat ws with rfl | ⟨ws, w, rfl⟩
  · exact fun c hc => absurd hc List.not_mem_nil
  · rw [List.concat_eq_append] at *
    rw [joined_concat]
    intro c hc
    rcases List.mem_append.mp hc with hc | hc
    · obtain ⟨item, hitem, hc⟩ := List.mem_flatMap.mp hc
      obtain ⟨v, hv, rfl⟩ := List.mem_map.mp hitem
      rcases List.mem_append.mp hc with hc | hc
      · exact h v (List.mem_append_left _ hv) c hc
      · rw [List.mem_singleton.mp hc]
        decide
    · exact h w (by simp) c hc

/-- The words of the block for a weakdep. -/
theorem weakBlock_words (name : CStr) {ws : List CStr} (hws : ∀ w ∈ ws, 0 ∉ w) :
    (weakBlock name ws).words = ws := by
  have hst : ∀ e ∈ weakWords ws, 0 ∉ e.2 := by
    intro e he
    obtain ⟨w, hw, rfl⟩ := List.mem_map.mp he
    exact hws w hw
  have hread := pointers_words () (weakWords ws) (name ++ [0]) [] hst
  rw [wordsIn_weakWords, List.append_nil, List.length_append] at hread
  exact hread

/-- **A weakdep that is printed and read again** is the same, if it has words. -/
theorem weakdep_again (junk : Nat → UInt8) {dep : WeakdepBlock} (hdep : StoredWeakdep dep) :
    ∃ (entry : CStr × Option CStr) (again : Option WeakdepBlock), (do
        let s ← weakdepToChar junk dep
        Except.ok (cstrAt dep.text 0, s.map (fun s => cstrAt s 0))) = .ok entry ∧
      IsText (showEntry (cstr "weakdep") entry) ∧
      (∀ config, kmodConfigParseLine config (showEntry (cstr "weakdep") entry)
        = .ok { config with weakdeps := config.weakdeps ++ again.toList }) ∧
      (again = some dep ↔ dep.words ≠ []) := by
  obtain ⟨name, ws, rfl, hname, hfits, hscanned, hws⟩ := hdep
  have hne : ∀ w ∈ ws, w ≠ [] := by
    cases ws with
    | nil => exact fun w hw => absurd hw List.not_mem_nil
    | cons w ws =>
      obtain ⟨⟨lead, v, rfl, hv, -, -⟩, htail⟩ := hscanned
      intro x hx
      rcases List.mem_cons.mp hx with rfl | hx
      · simp [hv.1]
      · exact (htail x hx).1
  have htext := isText_joined hws
  have hread : cstrAt (joined ws ++ [0]) 0 = joined ws := by
    have := cstrAt_append [] [] htext.nul
    simpa using this
  have hown : cstrAt (weakBlock name ws).text 0 = name := by
    have := cstrAt_append [] (packed (weakWords ws)) hname.text.nul
    show cstrAt (name ++ [0] ++ packed (weakWords ws)) 0 = name
    simpa using this
  rw [weakdepToChar_joined junk (fun w hw => ⟨(hws w hw).nul, hne w hw⟩) hfits, ok_bind, hown,
    weakBlock_words name (fun w hw => (hws w hw).nul)]
  have hentry : (Except.ok (name, (some (joined ws ++ [0])).map (fun s => cstrAt s 0)) :
      Except Fault (CStr × Option CStr)) = .ok (name, some (joined ws)) := by
    rw [Option.map_some, hread]
  rw [hentry]
  have hshown : IsText (showEntry (cstr "weakdep") (name, some (joined ws))) :=
    isText_showEntry (by decide) hname.text (by simpa using htext)
  by_cases hempty : ws = []
  · subst hempty
    refine ⟨_, none, rfl, hshown, fun config => ?_, by simp⟩
    rw [show joined [] = [] from rfl, (parse_weakdep config hname).2.2]
    simp
  · obtain ⟨again, hagain, hblock⟩ := exists_addedWeakdep name (joined ws)
    have hlong : joined ws ≠ [] := by
      intro hnil
      have hscan := scanWords_joined hempty hscanned
      rw [hnil] at hscan
      have hword : [] ∈ ws := hscan ▸ List.mem_singleton.mpr rfl
      exact hne [] hword rfl
    refine ⟨_, again, rfl, hshown, fun config => ?_, iff_of_true ?_ hempty⟩
    · rw [(parse_weakdep config hname).1 _ hlong, hagain]
    · rw [hblock, scanWords_joined hempty hscanned]
      exact ⟨hfits, rfl⟩

end Again

/-! ## The output is a list of lines -/

theorem linesOf_cons {line : List Mark} (hline : .newline ∉ line) (more : List Mark) :
    linesOf (line ++ .newline :: more) = line :: linesOf more := by
  have hsplit : (line ++ .newline :: more).splitOn Mark.newline = line :: more.splitOn .newline :=
    List.splitOn_append_cons_self_of_not_mem hline more
  have hne : more.splitOn Mark.newline ≠ [] := List.splitOn_ne_nil _ _
  unfold linesOf
  rw [hsplit, List.dropLast_cons_of_ne_nil hne, List.getLast?_cons_of_ne_nil hne]
  rfl

theorem marks_line {line : CStr} (hline : IsText line) (rest : List UInt8) :
    marks (line ++ 10 :: rest) = line.map Mark.char ++ .newline :: marks rest := by
  induction line with
  | nil =>
    rw [List.nil_append, marks.eq_def]
    exact if_pos rfl
  | cons c line ih =>
    obtain ⟨-, hnewline, hescape⟩ := hline c (List.mem_cons_self ..)
    rw [List.cons_append, marks.eq_def]
    dsimp only
    rw [if_neg hnewline, if_neg hescape, ih (fun d hd => hline d (List.mem_cons_of_mem _ hd))]
    rfl

/-- **What has been written line by line** is read line by line. -/
theorem wrappedLines_flatMap {lines : List CStr} (h : ∀ line ∈ lines, IsText line) :
    wrappedLines (lines.flatMap (fun line => line ++ cstr "\n")) = lines := by
  induction lines with
  | nil => rfl
  | cons line lines ih =>
    have htext : lineText (line.map Mark.char) = line := by
      unfold lineText
      rw [List.filterMap_map]
      exact List.filterMap_some
    have hmarks : .newline ∉ line.map Mark.char := by simp
    rw [List.flatMap_cons, List.append_assoc]
    show (linesOf (marks (line ++ 10 :: lines.flatMap (fun line => line ++ cstr "\n")))).map lineText
      = _
    rw [marks_line (h line (List.mem_cons_self ..)), linesOf_cons hmarks, List.map_cons, htext]
    exact congrArg _ (ih (fun l hl => h l (List.mem_cons_of_mem _ hl)))

/-! ## A section read again -/

/-- The lines of a list, if each adds to the same list of the configuration. -/
theorem parse_section {α β : Type} {xs : List α} {line : α → CStr} {add : α → List β}
    (put : KmodConfig → List β → KmodConfig) (hnil : ∀ config, put config [] = config)
    (happend : ∀ config l l', put (put config l) l' = put config (l ++ l'))
    (hline : ∀ x ∈ xs, ∀ config, kmodConfigParseLine config (line x) = .ok (put config (add x))) :
    ∀ config, kmodConfigParse config (xs.map line) = .ok (put config (xs.flatMap add)) := by
  induction xs with
  | nil => exact fun config => congrArg _ (hnil config).symm
  | cons x xs ih =>
    intro config
    show (kmodConfigParseLine config (line x) >>= fun config =>
      kmodConfigParse config (xs.map line)) = _
    rw [hline x (List.mem_cons_self ..), ok_bind,
      ih (fun y hy => hline y (List.mem_cons_of_mem _ hy)), happend, List.flatMap_cons]

theorem parse_append {config config' : KmodConfig} {lines : List CStr}
    (h : kmodConfigParse config lines = .ok config') (more : List CStr) :
    kmodConfigParse config (lines ++ more) = kmodConfigParse config' more := by
  unfold kmodConfigParse at *
  rw [List.foldlM_append, h, ok_bind]

/-- All lines of the output, given the entries of the dependencies and of the indexes. -/
def shownLines (config : KmodConfig) (softdeps weakdeps : List (CStr × Option CStr))
    (dumped : List (CStr × CStr)) : List CStr :=
  config.blacklists.map (fun n => showEntry (cstr "blacklist") (n, none)) ++
  config.installCommands.map (fun c => showEntry (cstr "install") (c.1, some c.2)) ++
  config.removeCommands.map (fun c => showEntry (cstr "remove") (c.1, some c.2)) ++
  config.aliases.map (fun a => showEntry (cstr "alias") (a.1, some a.2)) ++
  config.options.map (fun o => showEntry (cstr "options") (o.1, some o.2)) ++
  softdeps.map (showEntry (cstr "softdep")) ++
  weakdeps.map (showEntry (cstr "weakdep")) ++
  [[], cstr "# End of configuration files. Dumping indexes now:", []] ++
  dumped.map (shownLine true)

theorem shownLine_true (e : CStr × CStr) :
    shownLine true e = showEntry (cstr "alias") (e.1, some e.2) := by
  unfold shownLine showEntry
  rw [if_pos rfl, List.append_assoc]
  rfl

section Output

variable {config : KmodConfig} {softdeps weakdeps : List (CStr × Option CStr)}
  {aliases symbols : List (CStr × CStr)}

/-- **The output** consists of these lines. -/
theorem showConfig_lines {fuel : Nat} {junk : Nat → UInt8} {ctx : KmodCtx} {ret ret' : Int}
    (hsoftdeps : kmodConfigIter junk config .softdep = .ok softdeps)
    (hweakdeps : kmodConfigIter junk config .weakdep = .ok weakdeps)
    (haliases : kmodDumpIndex fuel ctx .modulesAlias
      = .ok (ret, aliases.flatMap (fun e => shownLine true e ++ cstr "\n")))
    (hsymbols : kmodDumpIndex fuel ctx .modulesSymbol
      = .ok (ret', symbols.flatMap (fun e => shownLine true e ++ cstr "\n"))) :
    showConfig fuel junk config ctx = .ok ((shownLines config softdeps weakdeps
      (aliases ++ symbols)).flatMap (fun line => line ++ cstr "\n")) := by
  simp only [kmodConfigIter] at hsoftdeps hweakdeps
  unfold showConfig configIterators
  simp only [List.mapM_cons, List.mapM_nil, kmodConfigIter, hsoftdeps, hweakdeps, haliases,
    hsymbols, ok_bind]
  refine congrArg Except.ok ?_
  unfold shownLines
  simp only [List.flatMap_append, List.flatMap_map, List.flatten_cons, List.flatten_nil,
    List.append_nil, List.append_assoc, List.flatMap_cons, List.flatMap_nil]
  rfl

variable (hstored : Stored config) {dumped : List (CStr × CStr)}
  (hdumped : ∀ e ∈ dumped, Name e.1 ∧ Name e.2)
include hstored hdumped

theorem isText_shownLines (hsoftdeps : ∀ e ∈ softdeps, IsText (showEntry (cstr "softdep") e))
    (hweakdeps : ∀ e ∈ weakdeps, IsText (showEntry (cstr "weakdep") e)) :
    ∀ line ∈ shownLines config softdeps weakdeps dumped, IsText line := by
  intro line hline
  simp only [shownLines, List.mem_append, List.mem_map] at hline
  rcases hline with (((((((⟨n, hn, rfl⟩ | ⟨c, hc, rfl⟩) | ⟨c, hc, rfl⟩) | ⟨a, ha, rfl⟩) |
    ⟨o, ho, rfl⟩) | ⟨e, he, rfl⟩) | ⟨e, he, rfl⟩) | hconst) | ⟨e, he, rfl⟩
  · exact isText_showEntry (by decide) (hstored.blacklists n hn).text (by simp)
  · obtain ⟨hname, htext⟩ := hstored.install c hc
    exact isText_showEntry (by decide) hname.text (by simpa using htext.2)
  · obtain ⟨hname, htext⟩ := hstored.remove c hc
    exact isText_showEntry (by decide) hname.text (by simpa using htext.2)
  · obtain ⟨hname, hmodname⟩ := hstored.aliases a ha
    exact isText_showEntry (by decide) hname.text (by simpa using hmodname.text)
  · obtain ⟨hname, htext, -⟩ := hstored.options o ho
    exact isText_showEntry (by decide) hname.text (by simpa using htext.2)
  · exact hsoftdeps e he
  · exact hweakdeps e he
  · revert line
    decide
  · obtain ⟨hkey, hval⟩ := hdumped e he
    rw [shownLine_true]
    exact isText_showEntry (by decide) hkey.text (by simpa using hval.text)

/-- **The lines read again**, given what the lines of the dependencies add. -/
theorem parse_shownLines {softdep : SoftdepBlock → CStr × Option CStr}
    {weakdep : WeakdepBlock → CStr × Option CStr} {again : SoftdepBlock → Option SoftdepBlock}
    {again' : WeakdepBlock → Option WeakdepBlock}
    (hsoftdep : ∀ dep ∈ config.softdeps, ∀ c,
      kmodConfigParseLine c (showEntry (cstr "softdep") (softdep dep))
        = .ok { c with softdeps := c.softdeps ++ (again dep).toList })
    (hweakdep : ∀ dep ∈ config.weakdeps, ∀ c,
      kmodConfigParseLine c (showEntry (cstr "weakdep") (weakdep dep))
        = .ok { c with weakdeps := c.weakdeps ++ (again' dep).toList }) :
    kmodConfigParse emptyConfig (shownLines config (config.softdeps.map softdep)
        (config.weakdeps.map weakdep) dumped)
      = .ok { config with
          aliases := config.aliases ++ dumped
          softdeps := config.softdeps.filterMap again
          weakdeps := config.weakdeps.filterMap again' } := by
  have hblacklists := parse_section
    (fun c l => { c with blacklists := c.blacklists ++ l }) (by simp) (by simp)
    (fun n hn c => parse_blacklist c (hstored.blacklists n hn))
  have hinstall := parse_section
    (fun c l => { c with installCommands := c.installCommands ++ l }) (by simp) (by simp)
    (fun x hx c => parse_install c (hstored.install x hx).1 (hstored.install x hx).2.1)
  have hremove := parse_section
    (fun c l => { c with removeCommands := c.removeCommands ++ l }) (by simp) (by simp)
    (fun x hx c => parse_remove c (hstored.remove x hx).1 (hstored.remove x hx).2.1)
  have haliases := parse_section
    (fun c l => { c with aliases := c.aliases ++ l }) (by simp) (by simp)
    (fun x hx c => parse_alias c (hstored.aliases x hx).1 (hstored.aliases x hx).2)
  have hoptions := parse_section
    (fun c l => { c with options := c.options ++ l }) (by simp) (by simp)
    (fun x hx c => parse_options c (hstored.options x hx).1 (hstored.options x hx).2.1.1
      (hstored.options x hx).2.2)
  have hsoftdeps := parse_section
    (fun c l => { c with softdeps := c.softdeps ++ l }) (by simp) (by simp) hsoftdep
  have hweakdeps := parse_section
    (fun c l => { c with weakdeps := c.weakdeps ++ l }) (by simp) (by simp) hweakdep
  have hindexes := parse_section
    (fun c l => { c with aliases := c.aliases ++ l }) (by simp) (by simp)
    (fun x hx c => (congrArg _ (shownLine_true x)).trans
      (parse_alias c (hdumped x hx).1 (hdumped x hx).2))
  have hconst : ∀ c, kmodConfigParse c
      [[], cstr "# End of configuration files. Dumping indexes now:", []] = .ok c := fun _ => rfl
  unfold shownLines
  simp only [List.append_assoc, List.map_map, Function.comp_def]
  rw [parse_append (hblacklists _), parse_append (hinstall _), parse_append (hremove _),
    parse_append (haliases _), parse_append (hoptions _), parse_append (hsoftdeps _),
    parse_append (hweakdeps _), parse_append (hconst _), hindexes]
  simp [emptyConfig, List.filterMap_eq_flatMap_toList]

end Output

/-- A list is kept if each of its entries is. -/
theorem filterMap_eq_self_iff {α : Type} {f : α → Option α} {xs : List α} :
    xs.filterMap f = xs ↔ ∀ x ∈ xs, f x = some x := by
  induction xs with
  | nil => simp
  | cons x xs ih =>
    cases hx : f x with
    | none =>
      rw [List.filterMap_cons_none hx]
      refine ⟨fun h => ?_, fun h => ?_⟩
      · have hlen := congrArg List.length h
        have hle := List.length_filterMap_le f xs
        rw [List.length_cons] at hlen
        omega
      · rw [h x (List.mem_cons_self ..)] at hx
        exact absurd hx (by simp)
    | some y =>
      rw [List.filterMap_cons_some hx, List.cons.injEq, ih]
      simp [hx]

/--
**What is printed is read again**, from a configuration of lines without a backslash and indexes
whose aliases and values are words without one: the aliases of the indexes come behind the others,
and the dependencies come back if and only if each softdep has words in exactly one of its lists
and each weakdep has words. A backslash is not printed in a way that could be read, and neither is
an alias of an index with a blank.
-/
theorem showConfig_reparse {lines : List CStr} (hlines : ∀ line ∈ lines, IsText line)
    {config : KmodConfig} (hparse : kmodConfigParse emptyConfig lines = .ok config) {ctx : KmodCtx}
    {aliases symbols : Option (List Entry)} (haliases : Serves ctx .modulesAlias aliases)
    (hsymbols : Serves ctx .modulesSymbol symbols)
    (hnames : ∀ e ∈ aliases.getD [] ++ symbols.getD [], Name e.key ∧ Name e.value)
    (junk : Nat → UInt8) :
    ∃ bound out dumped again, (∀ fuel ≥ bound, showConfig fuel junk config ctx = .ok out) ∧
      kmodConfigParse emptyConfig (wrappedLines out) = .ok again ∧
      dumped.Perm ((aliases.getD [] ++ symbols.getD []).map (fun e => (e.key, e.value))) ∧
      again = { config with
        aliases := config.aliases ++ dumped
        softdeps := again.softdeps
        weakdeps := again.weakdeps } ∧
      (again.softdeps = config.softdeps ↔ ∀ dep ∈ config.softdeps,
        (dep.softdep.pre = [] ↔ dep.softdep.post ≠ [])) ∧
      (again.weakdeps = config.weakdeps ↔ ∀ dep ∈ config.weakdeps, dep.words ≠ []) := by
  have hstored := stored_of_parse hlines stored_empty hparse
  obtain ⟨fromAliases, bound, ret, hperm, hdump⟩ := haliases.dump
  obtain ⟨fromSymbols, bound', ret', hperm', hdump'⟩ := hsymbols.dump
  choose! softdep again hsoftdep using fun dep hdep =>
    softdep_again junk (hstored.softdeps dep hdep)
  choose! weakdep again' hweakdep using fun dep hdep =>
    weakdep_again junk (hstored.weakdeps dep hdep)
  have hboth : (fromAliases ++ fromSymbols).Perm
      ((aliases.getD [] ++ symbols.getD []).map (fun e => (e.key, e.value))) := by
    rw [List.map_append]
    exact hperm.append hperm'
  have hdumped : ∀ e ∈ fromAliases ++ fromSymbols, Name e.1 ∧ Name e.2 := by
    intro e he
    obtain ⟨entry, hentry, rfl⟩ := List.mem_map.mp (hboth.mem_iff.mp he)
    exact hnames entry hentry
  have htext : ∀ line ∈ shownLines config (config.softdeps.map softdep)
      (config.weakdeps.map weakdep) (fromAliases ++ fromSymbols), IsText line :=
    isText_shownLines hstored hdumped (by simpa using fun dep hdep => (hsoftdep dep hdep).2.1)
      (by simpa using fun dep hdep => (hweakdep dep hdep).2.1)
  have hagain := parse_shownLines hstored hdumped (fun dep hdep => (hsoftdep dep hdep).2.2.1)
    (fun dep hdep => (hweakdep dep hdep).2.2.1)
  rw [← wrappedLines_flatMap htext] at hagain
  refine ⟨max bound bound', _, fromAliases ++ fromSymbols, _, fun fuel hfuel =>
    showConfig_lines (mapM_ok (fun dep hdep => (hsoftdep dep hdep).1))
      (mapM_ok (fun dep hdep => (hweakdep dep hdep).1))
      (hdump fuel (le_of_max_le_left hfuel)) (hdump' fuel (le_of_max_le_right hfuel)), hagain,
    hboth, rfl, ?_, ?_⟩
  · rw [filterMap_eq_self_iff]
    exact forall₂_congr (fun dep hdep => (hsoftdep dep hdep).2.2.2)
  · rw [filterMap_eq_self_iff]
    exact forall₂_congr (fun dep hdep => (hweakdep dep hdep).2.2.2)

/-- A configuration of five lines. -/
def fiveLines : List CStr :=
  [cstr "alias foo-a bar", cstr "blacklist  baz", cstr "options foo\ta=1",
    cstr "softdep foo post: b  c", cstr "weakdep foo w"]

/-- What they are stored as. -/
def fiveConfig : KmodConfig where
  aliases := [(cstr "foo_a", cstr "bar")]
  blacklists := [cstr "baz"]
  options := [(cstr "foo", cstr "a=1")]
  installCommands := []
  removeCommands := []
  softdeps := [blockOf (cstr "foo") [(.post, cstr "b"), (.post, cstr "c")]]
  weakdeps := [weakBlock (cstr "foo") [cstr "w"]]

/-- Only the index of aliases is there. -/
def aliasCtx (file : List UInt8) : KmodCtx where
  host := littleHost
  indexes := fun _ => none
  file := fun type => if type = .modulesAlias then .ok file else .error (-ENOENT)
  file_err := by
    intro type err h
    split at h
    · exact absurd h (by simp)
    · rw [← Except.error.inj h]
      decide

/-- It comes back, with an alias from the index behind its own. -/
theorem showConfig_reparse_five : ∃ root bound out,
    insertEntries indexCreate [⟨cstr "pci:v1", cstr "foo", 0⟩] = .ok root ∧
    (∀ fuel ≥ bound,
      showConfig fuel (fun _ => 7) fiveConfig (aliasCtx (indexWrite root)) = .ok out) ∧
    kmodConfigParse emptyConfig (wrappedLines out) = .ok { fiveConfig with
      aliases := [(cstr "foo_a", cstr "bar"), (cstr "pci:v1", cstr "foo")] } := by
  have hparse : kmodConfigParse emptyConfig fiveLines = .ok fiveConfig := by decide +kernel
  have hclean : ∀ e ∈ [(⟨cstr "pci:v1", cstr "foo", 0⟩ : Entry)], e.Clean := by decide
  obtain ⟨root, hrun, -⟩ := insertEntries_contains hclean
  have hsize : (indexWrite root).length < 2 ^ 28 := by
    have hrun' : (insertEntries indexCreate [⟨cstr "pci:v1", cstr "foo", 0⟩]).map
        (fun root => (indexWrite root).length) = .ok 36 := by decide +kernel
    rw [hrun] at hrun'
    rw [show (indexWrite root).length = 36 from Except.ok.inj hrun']
    decide
  have haliases : Serves (aliasCtx (indexWrite root)) .modulesAlias _ :=
    serves_of_written hclean hrun hsize rfl (fun _ _ h => absurd h (by simp [aliasCtx]))
  have hsymbols : Serves (aliasCtx (indexWrite root)) .modulesSymbol none :=
    .absent rfl (show _ = Except.error (-ENOENT) from rfl)
  obtain ⟨bound, out, dumped, again, hshow, hagain, hdumped, hsame, hsoftdeps, hweakdeps⟩ :=
    showConfig_reparse (show ∀ line ∈ fiveLines, IsText line by decide +kernel) hparse haliases
      hsymbols (by decide +kernel) (fun _ => 7)
  refine ⟨root, bound, out, hrun, hshow, hagain.trans (congrArg _ ?_)⟩
  rw [hsame, hsoftdeps.mpr (by decide +kernel), hweakdeps.mpr (by decide +kernel),
    List.perm_singleton.mp hdumped]
  rfl

end Kmod.ShowConfig
