import Kmod.Depmod.Symbols
import Kmod.Libkmod.Loaded

/-!
# The symbols of the kernel

With `-E` or `-F` depmod reads which symbols the kernel exports, from a `Module.symvers` or a
`System.map`. The dependencies do not need them, as the kernel has no owner. They are for the
warnings: a module that needs a symbol nobody exports cannot be loaded, and one that was built for
another version of the symbol cannot either.

A symbol counts as exported by whoever was entered last. So what is warned about can be said in
terms of the files and the modules alone, without the table (`symbolWarnings_exact`).
-/

namespace Kmod.KernelSymbols

open Kmod.Numbers Kmod.Symbols ModulesOrder

variable {μ : Type}

/-! ## The model -/

/-- The buffers of both functions. -/
def LINE_SIZE : Nat := 10240

/-- The lines that `fgets` reads into such a buffer, up to a NUL. -/
def readLines : Nat → CStr → List CStr
  | 0, _ => []
  | fuel + 1, rest =>
    match fgets LINE_SIZE rest with
    | none => []
    | some (line, rest) => line.takeWhile (· ≠ 0) :: readLines fuel rest

/-- A line of `Module.symvers`: the symbol that is added, if any. -/
def symversLine (line : CStr) : Option KernelSymbol :=
  let ver := strtokR isBlank line
  let sym := strtokR isBlank ver.2
  let place := strtokR isBlank sym.2
  match ver.1, sym.1, place.1 with
  | some ver, some sym, some place =>
    if place ≠ cstr "vmlinux" then none
    else
      let crc := strtoul 16 ver
      if crc.endptr ≠ [] ∨ crc.range then none else some ⟨sym, false, crc.value.toNat⟩
  | _, _, _ => none

/-- What follows the first `c`. -/
def afterChar (c : UInt8) (s : CStr) : Option CStr :=
  if c ∈ s then some ((s.dropWhile (· ≠ c)).drop 1) else none

/-- A line of `System.map`: the symbol that is added, if any. -/
def systemMapLine (cfg : Symbols.Cfg) (line : CStr) : Except Fault (Option KernelSymbol) :=
  match (afterChar 32 line).bind (afterChar 32) with
  | none => .ok none
  | some p => do
    let p ← skipChar cfg.symPrefix p
    if (cstr "__ksymtab_").isPrefixOf p then
      .ok (some ⟨(p.takeWhile (· ≠ 10)).drop (cstr "__ksymtab_").length, true, 0⟩)
    else .ok none

/-- `depmod_add_fake_syms` -/
def depmodAddFakeSyms (cfg : Symbols.Cfg) (malloc : Nat → Bool) (t : Tables μ) :
    Except Fault (Tables μ) := do
  let t ← addKernelSymbols cfg malloc
    [⟨cstr "__this_module", true, 0⟩, ⟨cstr "_GLOBAL_OFFSET_TABLE_", true, 0⟩] t
  match ← depmodSymbolFind cfg t.symbols (cstr "TOC.") with
  | none => addKernelSymbols cfg malloc [⟨cstr "TOC.", true, 0⟩] t
  | some _ => .ok t

/-- `depmod_load_symvers` -/
def depmodLoadSymvers (cfg : Symbols.Cfg) (malloc : Nat → Bool) (content : CStr) (t : Tables μ) :
    Except Fault (Tables μ) := do
  let t ← addKernelSymbols cfg malloc
    ((readLines content.length content).filterMap symversLine) t
  depmodAddFakeSyms cfg malloc t

/-- `depmod_load_system_map` -/
def depmodLoadSystemMap (cfg : Symbols.Cfg) (malloc : Nat → Bool) (content : CStr) (t : Tables μ) :
    Except Fault (Tables μ) := do
  let syms ← (readLines content.length content).mapM (systemMapLine cfg)
  let t ← addKernelSymbols cfg malloc (syms.filterMap id) t
  depmodAddFakeSyms cfg malloc t

/-- The files that `-E` and `-F` name, as far as they can be opened. -/
structure SymbolFiles where
  moduleSymvers : Option (Except Int CStr)
  systemMap : Option (Except Int CStr)

/-- What `do_depmod` does with them: `none` if it gives up. Without a file there are no warnings. -/
def readSymbolFiles (cfg : Symbols.Cfg) (malloc : Nat → Bool) (files : SymbolFiles) (t : Tables μ) :
    Except Fault (Option (Symbols.Cfg × Tables μ)) :=
  match files.moduleSymvers with
  | some (.error _) => .ok none
  | some (.ok content) => (depmodLoadSymvers cfg malloc content t).map (fun t => some (cfg, t))
  | none =>
    match files.systemMap with
    | some (.error _) => .ok none
    | some (.ok content) => (depmodLoadSystemMap cfg malloc content t).map (fun t => some (cfg, t))
    | none => .ok (some ({ cfg with printUnknown := false }, t))

/-- The symbols and dependencies of a run of depmod, with the warnings. -/
def checkSymbols [DecidableEq μ] (cfg : Symbols.Cfg) (malloc : Nat → Bool) (files : SymbolFiles)
    (file : μ → ModuleFile) (modules : List μ) : Except Fault (Option (Tables μ)) := do
  match ← readSymbolFiles cfg malloc files .init with
  | none => .ok none
  | some (cfg, t) =>
    let t ← depmodLoadModules cfg malloc file modules t
    let t ← depmodLoadDependencies cfg malloc modules t
    .ok (some t)

/-! ## The files -/

/-- What stands between blanks. -/
structure Token (s : CStr) : Prop where
  ne_nil : s ≠ []
  chars : ∀ c ∈ s, c ≠ 0 ∧ c ≠ 9 ∧ c ≠ 10 ∧ c ≠ 32

/-- A line that `fgets` reads at once. -/
structure Line (s : CStr) : Prop where
  chars : ∀ c ∈ s, c ≠ 0 ∧ c ≠ 10
  fits : s.length + 1 < LINE_SIZE

/-- A symbol in `Module.symvers`. -/
structure VersionedSymbol where
  crc : Nat
  name : CStr
  place : CStr
  exportType : CStr

/-- `"0x%08x\t%s\t%s\t%s"` -/
def VersionedSymbol.line (s : VersionedSymbol) : CStr :=
  printHex 8 s.crc ++ 9 :: (s.name ++ 9 :: (s.place ++ 9 :: s.exportType))

structure VersionedSymbol.Ok (s : VersionedSymbol) : Prop where
  crc : s.crc ≤ ULONG_MAX
  name : Token s.name
  place : Token s.place
  line : Line s.line

/-- A symbol in `System.map`. -/
structure MappedSymbol where
  address : CStr
  type : CStr
  name : CStr

/-- `"%s %s %s"` -/
def MappedSymbol.line (s : MappedSymbol) : CStr := s.address ++ 32 :: (s.type ++ 32 :: s.name)

structure MappedSymbol.Ok (s : MappedSymbol) : Prop where
  address : Token s.address
  type : Token s.type
  name : s.name ≠ []
  line : Line s.line

/-- The lines of a file. -/
def textOf (lines : List CStr) : CStr := lines.flatMap (· ++ [10])

/-- The symbols of `vmlinux`. -/
def versioned (l : List VersionedSymbol) : List KernelSymbol :=
  (l.filter (·.place = cstr "vmlinux")).map (fun s => ⟨s.name, false, s.crc⟩)

/-- The symbol that an entry of `__ksymtab` is for. -/
def ksymtab (name : CStr) : Option KernelSymbol :=
  if (cstr "__ksymtab_").isPrefixOf name then
    some ⟨name.drop (cstr "__ksymtab_").length, true, 0⟩
  else none

/-- The symbols with an entry in `__ksymtab`. -/
def mapped (cfg : Symbols.Cfg) (l : List MappedSymbol) : List KernelSymbol :=
  l.filterMap (fun s => ksymtab (strip cfg.symPrefix s.name))

/-- The files that are given say which symbols the kernel has. -/
inductive Gives (cfg : Symbols.Cfg) : SymbolFiles → List KernelSymbol → Prop
  | symvers {l : List VersionedSymbol} (h : ∀ s ∈ l, s.Ok) (map : Option (Except Int CStr)) :
      Gives cfg ⟨some (.ok (textOf (l.map VersionedSymbol.line))), map⟩ (versioned l)
  | systemMap {l : List MappedSymbol} (h : ∀ s ∈ l, s.Ok) :
      Gives cfg ⟨none, some (.ok (textOf (l.map MappedSymbol.line)))⟩ (mapped cfg l)

/-! ## What a symbol means -/

/-- A key with what it leads to. -/
abbrev Entry (μ : Type) := CStr × Symbol μ

/-- The symbol that was entered last. -/
def lastEntry (entries : List (Entry μ)) (key : CStr) : Option (Symbol μ) :=
  (entries.reverse.find? (·.1 = key)).map Prod.snd

/-- What is entered for the kernel's symbols. -/
def kernelEntry (cfg : Symbols.Cfg) (sym : KernelSymbol) : Entry μ :=
  (if sym.prefixSkipped then sym.name else kadd cfg sym.name, ⟨none, sym.crc⟩)

/-- What is entered for a module. -/
def moduleEntries (cfg : Symbols.Cfg) (file : μ → ModuleFile) (mod : μ) : List (Entry μ) :=
  match (file mod).symbols with
  | .error _ => []
  | .ok list => list.map (fun sym => (kadd cfg sym.name, ⟨some mod, sym.crc⟩))

/-- The entries for the symbols that are faked. -/
def fakeEntries (cfg : Symbols.Cfg) (entries : List (Entry μ)) : List (Entry μ) :=
  let entries' := [(cstr "__this_module", ⟨none, 0⟩), (cstr "_GLOBAL_OFFSET_TABLE_", ⟨none, 0⟩)]
  match lastEntry (entries ++ entries') (kfind cfg (cstr "TOC.")) with
  | none => entries' ++ [(cstr "TOC.", ⟨none, 0⟩)]
  | some _ => entries'

/-- What is entered before the modules. -/
def kernelEntries (cfg : Symbols.Cfg) (kernel : List KernelSymbol) : List (Entry μ) :=
  kernel.map (kernelEntry cfg) ++ fakeEntries cfg (kernel.map (kernelEntry cfg))

/-- **What a needed symbol is warned about**: nobody exports it, or with another checksum. -/
def warningOf (cfg : Symbols.Cfg) (entries : List (Entry μ)) (mod : μ) (need : Symbols.Needed) :
    Option (Warning μ) :=
  if need.isWeak || !cfg.printUnknown then none
  else
    match lastEntry entries (kfind cfg need.name) with
    | none => some (.unknownSymbol mod need.name)
    | some sym =>
      if cfg.checkSymvers && sym.crc != need.crc then some (.versionMismatch mod need.name)
      else none

/-! ## Lines -/

theorem readLines_textOf {lines : List CStr} : ∀ {fuel : Nat}, (∀ line ∈ lines, Line line) →
    lines.length ≤ fuel → readLines fuel (textOf lines) = lines.map (· ++ [10]) := by
  induction lines with
  | nil =>
    intro fuel _ _
    cases fuel <;> rfl
  | cons line lines ih =>
    intro fuel hlines hfuel
    cases fuel with
    | zero => exact absurd hfuel (Nat.not_succ_le_zero _)
    | succ fuel =>
      have hline : Line line := hlines line (List.mem_cons_self ..)
      have hfgets : fgets LINE_SIZE (textOf (line :: lines))
          = some (line ++ [10], textOf lines) := by
        unfold textOf
        rw [List.flatMap_cons, List.append_assoc, List.singleton_append]
        exact Loaded.fgets_whole (fun hmem => (hline.chars 10 hmem).2 rfl) hline.fits _
      have hnul := Loaded.takeWhile_line hline.chars
      rw [readLines, hfgets]
      dsimp only
      rw [hnul, ih (fun l hl => hlines l (List.mem_cons_of_mem _ hl))
        (Nat.le_of_succ_le_succ hfuel), List.map_cons]

theorem length_le_textOf (lines : List CStr) : lines.length ≤ (textOf lines).length := by
  induction lines with
  | nil => exact Nat.le_refl 0
  | cons line lines ih =>
    have htext : textOf (line :: lines) = line ++ [10] ++ textOf lines := List.flatMap_cons ..
    rw [htext, List.length_append, List.length_append, List.length_cons, List.length_singleton]
    omega

/-- The lines are read as they were written. -/
theorem lines_read {lines : List CStr} (h : ∀ line ∈ lines, Line line) :
    readLines (textOf lines).length (textOf lines) = lines.map (· ++ [10]) :=
  readLines_textOf h (length_le_textOf lines)

theorem Token.notBlank {s : CStr} (h : Token s) : ∀ c ∈ s, isBlank c = false := by
  intro c hc
  obtain ⟨-, htab, -, hspace⟩ := h.chars c hc
  simp [isBlank, htab, hspace]

theorem token_printHex (width n : Nat) : Token (printHex width n) where
  ne_nil := List.append_ne_nil_of_left_ne_nil (by decide) _
  chars := by
    intro c hc
    rcases List.mem_append.mp hc with hc | hc
    · have hprefix : ∀ c ∈ cstr "0x", c ≠ 0 ∧ c ≠ 9 ∧ c ≠ 10 ∧ c ≠ 32 := by decide
      exact hprefix c hc
    · have hdigit := mem_hexPadded c hc
      refine ⟨?_, ?_, ?_, ?_⟩ <;> · rintro rfl; exact absurd hdigit (by decide)

/-- The symbol of a line of `Module.symvers` is added if it is one of `vmlinux`. -/
theorem VersionedSymbol.Ok.symversLine {s : VersionedSymbol} (h : s.Ok) :
    symversLine (s.line ++ [10])
      = if s.place = cstr "vmlinux" then some ⟨s.name, false, s.crc⟩ else none := by
  have htoken : ∀ {w : CStr} (rest : CStr), Token w →
      strtokR isBlank (w ++ 9 :: rest) = (some w, rest) := fun rest hw =>
    strtokR_word [] rest (List.forall_mem_nil _) hw.ne_nil hw.notBlank rfl
  have hcrc : strtoul 16 (printHex 8 s.crc) = ⟨s.crc, [], false⟩ := by
    have hhex : strtoul 16 (printHex 8 s.crc ++ []) = ⟨s.crc, [], false⟩ :=
      strtoul_printHex h.crc (stops_nil 16)
    rwa [List.append_nil] at hhex
  have hline : s.line ++ [10] = printHex 8 s.crc ++ 9 ::
      (s.name ++ 9 :: (s.place ++ 9 :: (s.exportType ++ [10]))) := by
    simp [VersionedSymbol.line]
  unfold KernelSymbols.symversLine
  rw [hline, htoken _ (token_printHex 8 s.crc)]
  dsimp only
  rw [htoken _ h.name]
  dsimp only
  rw [htoken _ h.place]
  dsimp only
  rw [hcrc]
  by_cases hplace : s.place = cstr "vmlinux"
  · rw [if_pos hplace, if_neg (not_not_intro hplace)]
    exact if_neg (by simp)
  · rw [if_neg hplace, if_pos hplace]

theorem afterChar_append {c : UInt8} {s : CStr} (h : c ∉ s) (rest : CStr) :
    afterChar c (s ++ c :: rest) = some rest := by
  have hne : ∀ x ∈ s, decide (x ≠ c) = true :=
    fun x hx => decide_eq_true (fun hxc => h (hxc ▸ hx))
  unfold afterChar
  rw [if_pos (List.mem_append_right s (List.mem_cons_self ..)),
    List.dropWhile_append_of_pos hne, List.dropWhile_cons_of_neg (by simp)]
  rfl

theorem strip_concat {name : CStr} (h : name ≠ []) (c d : UInt8) :
    strip c (name ++ [d]) = strip c name ++ [d] := by
  cases name with
  | nil => exact absurd rfl h
  | cons a name =>
    unfold strip
    rw [List.cons_append, List.head?_cons, List.head?_cons]
    split <;> rfl

/-- The symbol of a line of `System.map`, without the newline. -/
theorem MappedSymbol.Ok.systemMapLine {s : MappedSymbol} (h : s.Ok) (cfg : Symbols.Cfg) :
    systemMapLine cfg (s.line ++ [10]) = .ok (ksymtab (strip cfg.symPrefix s.name)) := by
  have hspace : ∀ {w : CStr}, Token w → 32 ∉ w := fun hw hmem => (hw.chars 32 hmem).2.2.2 rfl
  have hline : s.line ++ [10] = s.address ++ 32 :: (s.type ++ 32 :: (s.name ++ [10])) := by
    simp [MappedSymbol.line]
  have hnewline : ∀ c ∈ strip cfg.symPrefix s.name, decide (c ≠ 10) = true := by
    intro c hc
    have hname : c ∈ s.name := by
      unfold strip at hc
      split at hc
      · exact List.mem_of_mem_tail hc
      · exact hc
    refine decide_eq_true (h.line.chars c ?_).2
    simp [MappedSymbol.line, hname]
  have hprefix : (cstr "__ksymtab_").isPrefixOf (strip cfg.symPrefix s.name ++ [10])
      = (cstr "__ksymtab_").isPrefixOf (strip cfg.symPrefix s.name) := by
    rw [Bool.eq_iff_iff, List.isPrefixOf_iff_prefix, List.isPrefixOf_iff_prefix,
      List.prefix_concat_iff]
    refine or_iff_right (fun heq => ?_)
    have hmem : (10 : UInt8) ∈ cstr "__ksymtab_" := heq ▸ List.mem_append_right _ (by simp)
    exact absurd hmem (by decide)
  unfold KernelSymbols.systemMapLine
  rw [hline, afterChar_append (hspace h.address), Option.bind_some,
    afterChar_append (hspace h.type)]
  dsimp only
  rw [skipChar_eq (by simp), ok_bind, strip_concat h.name, hprefix,
    List.takeWhile_append_of_pos hnewline, List.takeWhile_cons_of_neg (by simp), List.append_nil]
  unfold ksymtab
  split <;> rfl

/-- A `Module.symvers` gives the symbols of `vmlinux`. -/
theorem symvers_read {l : List VersionedSymbol} (hl : ∀ s ∈ l, s.Ok) :
    (readLines (textOf (l.map VersionedSymbol.line)).length
      (textOf (l.map VersionedSymbol.line))).filterMap symversLine = versioned l := by
  rw [lines_read (List.forall_mem_map.mpr (fun s hs => (hl s hs).line)), List.map_map,
    List.filterMap_map, versioned, ← List.filterMap_eq_map, ← List.filterMap_eq_filter,
    List.filterMap_filterMap]
  refine List.filterMap_congr (fun s hs => ?_)
  rw [Function.comp_apply, Function.comp_apply, (hl s hs).symversLine]
  by_cases hplace : s.place = cstr "vmlinux"
  · simp [hplace]
  · simp [hplace, Option.guard]

/-- Every line of a `System.map` can be read. -/
theorem systemMap_read {l : List MappedSymbol} (hl : ∀ s ∈ l, s.Ok) (cfg : Symbols.Cfg) :
    (readLines (textOf (l.map MappedSymbol.line)).length
      (textOf (l.map MappedSymbol.line))).mapM (systemMapLine cfg)
        = .ok (l.map (fun s => ksymtab (strip cfg.symPrefix s.name))) := by
  rw [lines_read (List.forall_mem_map.mpr (fun s hs => (hl s hs).line)), List.map_map,
    List.mapM_map]
  exact mapM_ok (fun s hs => (hl s hs).systemMapLine cfg)

theorem filterMap_ksymtab (cfg : Symbols.Cfg) (l : List MappedSymbol) :
    (l.map (fun s => ksymtab (strip cfg.symPrefix s.name))).filterMap id = mapped cfg l := by
  rw [List.filterMap_map]
  rfl

/-- A symbol whose prefix may have to be skipped has a name. -/
theorem Gives.named {cfg : Symbols.Cfg} {files : SymbolFiles} {kernel : List KernelSymbol}
    (h : Gives cfg files kernel) : ∀ sym ∈ kernel, sym.prefixSkipped = false → sym.name ≠ [] := by
  intro sym hsym hskipped
  cases h with
  | symvers hl map =>
    obtain ⟨s, hs, rfl⟩ := List.mem_map.mp hsym
    exact (hl s (List.mem_filter.mp hs).1).name.ne_nil
  | systemMap hl =>
    obtain ⟨s, -, hs⟩ := List.mem_filterMap.mp hsym
    unfold ksymtab at hs
    split at hs
    · obtain rfl := Option.some.inj hs
      cases hskipped
    · cases hs

/-! ## The table -/

/-- The table leads every key to the symbol that was entered last for it. -/
def Holds (t : Tables μ) (entries : List (Entry μ)) : Prop :=
  ∀ key, t.symbols.lookup key = lastEntry entries key

theorem lastEntry_concat (entries : List (Entry μ)) (e : Entry μ) (key : CStr) :
    lastEntry (entries ++ [e]) key = if key = e.1 then some e.2 else lastEntry entries key := by
  unfold lastEntry
  rw [List.reverse_append, List.reverse_singleton, List.singleton_append]
  by_cases hkey : key = e.1
  · rw [List.find?_cons_of_pos (by simp [hkey]), if_pos hkey]
    rfl
  · rw [List.find?_cons_of_neg (by simpa [eq_comm] using hkey), if_neg hkey]

theorem holds_insert {t : Tables μ} {entries : List (Entry μ)} (h : Holds t entries) (e : Entry μ)
    (allocs : Nat) : Holds { t with symbols := t.symbols.insert e.1 e.2, allocs := allocs }
      (entries ++ [e]) := by
  intro key
  rw [lastEntry_concat, ← h key]
  exact StrMap.lookup_insert ..

/-- What the passes over the symbols leave alone. -/
structure Kept (t t' : Tables μ) : Prop where
  warnings : t'.warnings = t.warnings
  depSymList : t'.depSymList = t.depSymList

theorem Kept.trans {t t' t'' : Tables μ} (h : Kept t t') (h' : Kept t' t'') : Kept t t'' :=
  ⟨h'.warnings.trans h.warnings, h'.depSymList.trans h.depSymList⟩

section Memory

variable {malloc : Nat → Bool} (hmem : ∀ n, malloc n = true)

include hmem

/-- A symbol of the kernel is entered; one whose prefix has been skipped may be empty. -/
theorem kernelSymbolAdd_eq (cfg : Symbols.Cfg) {sym : KernelSymbol}
    (h : sym.prefixSkipped = false → sym.name ≠ []) (t : Tables μ) :
    depmodSymbolAdd cfg malloc sym.name sym.prefixSkipped sym.crc none t = .ok (0, { t with
      symbols := t.symbols.insert (kernelEntry (μ := μ) cfg sym).1 (kernelEntry cfg sym).2
      allocs := t.allocs + 2 }) := by
  cases hskipped : sym.prefixSkipped with
  | false =>
    rw [depmodSymbolAdd_eq hmem cfg (h hskipped), kernelEntry, hskipped]
  | true =>
    unfold depmodSymbolAdd kernelEntry
    rw [hmem, hmem, hskipped]
    rfl

theorem addKernelSymbols_holds (cfg : Symbols.Cfg) (kernel : List KernelSymbol) :
    ∀ {t : Tables μ} {entries : List (Entry μ)},
      (∀ sym ∈ kernel, sym.prefixSkipped = false → sym.name ≠ []) → Holds t entries →
      ∃ t', addKernelSymbols cfg malloc kernel t = .ok t' ∧
        Holds t' (entries ++ kernel.map (kernelEntry cfg)) ∧ Kept t t' := by
  induction kernel with
  | nil =>
    intro t entries _ h
    exact ⟨t, rfl, by rwa [List.map_nil, List.append_nil], rfl, rfl⟩
  | cons sym kernel ih =>
    intro t entries hnames h
    rw [addKernelSymbols, kernelSymbolAdd_eq hmem cfg (hnames sym (List.mem_cons_self ..)), ok_bind]
    obtain ⟨t', hrun, hholds, hkept⟩ := ih (fun s hs => hnames s (List.mem_cons_of_mem _ hs))
      (holds_insert h (kernelEntry cfg sym) (t.allocs + 2))
    refine ⟨t', hrun, ?_, hkept.warnings, hkept.depSymList⟩
    rwa [List.map_cons, List.append_cons]

/-- `TOC.` is faked only if the kernel has no such symbol. -/
theorem depmodAddFakeSyms_holds (cfg : Symbols.Cfg) {t : Tables μ} {entries : List (Entry μ)}
    (h : Holds t entries) : ∃ t', depmodAddFakeSyms cfg malloc t = .ok t' ∧
      Holds t' (entries ++ fakeEntries cfg entries) ∧ Kept t t' := by
  obtain ⟨t₁, hrun₁, hholds₁, hkept₁⟩ : ∃ t₁, addKernelSymbols cfg malloc
      [⟨cstr "__this_module", true, 0⟩, ⟨cstr "_GLOBAL_OFFSET_TABLE_", true, 0⟩] t = .ok t₁ ∧
      Holds t₁ (entries ++ [(cstr "__this_module", ⟨none, 0⟩),
        (cstr "_GLOBAL_OFFSET_TABLE_", ⟨none, 0⟩)]) ∧ Kept t t₁ :=
    addKernelSymbols_holds hmem cfg _ (by simp) h
  unfold depmodAddFakeSyms
  rw [hrun₁, ok_bind, depmodSymbolFind_eq cfg t₁.symbols (by decide) (by decide), ok_bind,
    hholds₁ (kfind cfg (cstr "TOC."))]
  unfold fakeEntries
  dsimp only
  cases lastEntry (entries ++ [(cstr "__this_module", ⟨none, 0⟩),
    (cstr "_GLOBAL_OFFSET_TABLE_", ⟨none, 0⟩)]) (kfind cfg (cstr "TOC.")) with
  | some sym => exact ⟨t₁, rfl, hholds₁, hkept₁⟩
  | none =>
    obtain ⟨t₂, hrun₂, hholds₂, hkept₂⟩ := addKernelSymbols_holds hmem cfg
      [⟨cstr "TOC.", true, 0⟩] (by simp) hholds₁
    rw [List.append_assoc] at hholds₂
    exact ⟨t₂, hrun₂, hholds₂, hkept₁.trans hkept₂⟩

theorem addModuleSymbols_holds (cfg : Symbols.Cfg) (mod : μ) (list : List Exported) :
    ∀ {t : Tables μ} {entries : List (Entry μ)}, (∀ sym ∈ list, sym.name ≠ []) →
      Holds t entries → ∃ t', addModuleSymbols cfg malloc mod list t = .ok t' ∧
        Holds t' (entries ++ list.map (fun sym => (kadd cfg sym.name, ⟨some mod, sym.crc⟩))) ∧
        Kept t t' := by
  induction list with
  | nil =>
    intro t entries _ h
    exact ⟨t, rfl, by rwa [List.map_nil, List.append_nil], rfl, rfl⟩
  | cons sym list ih =>
    intro t entries hnames h
    rw [addModuleSymbols, depmodSymbolAdd_eq hmem cfg (hnames sym (List.mem_cons_self ..)), ok_bind]
    obtain ⟨t', hrun, hholds, hkept⟩ := ih (fun s hs => hnames s (List.mem_cons_of_mem _ hs))
      (holds_insert h (kadd cfg sym.name, ⟨some mod, sym.crc⟩) (t.allocs + 2))
    refine ⟨t', hrun, ?_, hkept.warnings, hkept.depSymList⟩
    rwa [List.map_cons, List.append_cons]

/-- The symbols of a module's file; there are none if libkmod has failed. -/
theorem addFileSymbols_holds (cfg : Symbols.Cfg) (file : μ → ModuleFile) (mod : μ)
    (hnames : ∀ e ∈ (file mod).exportedNames, e ≠ []) {t : Tables μ} {entries : List (Entry μ)}
    (h : Holds t entries) : ∃ t', addFileSymbols cfg malloc mod (file mod) t = .ok t' ∧
      Holds t' (entries ++ moduleEntries cfg file mod) ∧ Kept t t' := by
  unfold addFileSymbols moduleEntries
  unfold ModuleFile.exportedNames at hnames
  cases hsyms : (file mod).symbols with
  | error e => exact ⟨t, rfl, by rwa [List.append_nil], rfl, rfl⟩
  | ok list =>
    rw [hsyms] at hnames
    exact addModuleSymbols_holds hmem cfg mod list
      (fun sym hsym => hnames sym.name (List.mem_map_of_mem hsym)) h

/-- The module information goes to the arrays of the module. -/
theorem loadInfo_eq [DecidableEq μ] (mod : μ) (info : List (CStr × CStr)) : ∀ t : Tables μ,
    ∃ values allocs, loadInfo malloc mod info t
      = (true, { t with values := values, allocs := allocs }) := by
  induction info with
  | nil => exact fun t => ⟨t.values, t.allocs, rfl⟩
  | cons entry info ih =>
    intro t
    obtain ⟨key, value⟩ := entry
    rw [loadInfo]
    split
    · exact ih t
    · rw [hmem, Bool.not_true, if_neg Bool.false_ne_true]
      exact ih _

/-- `depmod_load_modules`: the symbols of the modules come after those of the kernel. -/
theorem depmodLoadModules_holds [DecidableEq μ] (cfg : Symbols.Cfg) (file : μ → ModuleFile)
    (mods : List μ) : ∀ {t : Tables μ} {entries : List (Entry μ)},
      (∀ mod ∈ mods, ∀ e ∈ (file mod).exportedNames, e ≠ []) → Holds t entries →
      ∃ t', depmodLoadModules cfg malloc file mods t = .ok t' ∧
        Holds t' (entries ++ mods.flatMap (moduleEntries cfg file)) ∧ t'.warnings = t.warnings ∧
        (∀ mod ∈ mods, t'.depSymList mod = (file mod).dependencySymbols) ∧
        ∀ mod, mod ∉ mods → t'.depSymList mod = t.depSymList mod := by
  induction mods with
  | nil =>
    intro t entries _ h
    exact ⟨t, rfl, by rwa [List.flatMap_nil, List.append_nil], rfl,
      fun _ hmod => absurd hmod (List.not_mem_nil), fun _ _ => rfl⟩
  | cons mod mods ih =>
    intro t entries hnames h
    obtain ⟨t₁, hadd, hholds₁, hkept₁⟩ :=
      addFileSymbols_holds hmem cfg file mod (hnames mod (List.mem_cons_self ..)) h
    obtain ⟨values, allocs, hinfo⟩ := loadInfo_eq hmem mod (file mod).info t₁
    rw [depmodLoadModules, hadd, ok_bind]
    simp only [hinfo, Bool.not_true, Bool.false_eq_true, if_false]
    obtain ⟨t', hrun, hholds, hwarnings, hneeds, hothers⟩ :=
      ih (t := { t₁ with
          values := values
          allocs := allocs
          depSymList := Function.update t₁.depSymList mod (file mod).dependencySymbols })
        (fun m hm => hnames m (List.mem_cons_of_mem _ hm)) hholds₁
    refine ⟨t', hrun, ?_, hwarnings.trans hkept₁.warnings, fun m hm => ?_, fun m hm => ?_⟩
    · rwa [List.flatMap_cons, ← List.append_assoc]
    · by_cases hin : m ∈ mods
      · exact hneeds m hin
      · obtain rfl : m = mod := (List.mem_cons.mp hm).resolve_right hin
        rw [hothers m hin]
        exact Function.update_self ..
    · rw [List.mem_cons, not_or] at hm
      rw [hothers m hm.2, ← hkept₁.depSymList]
      exact Function.update_of_ne hm.1 ..

/-! ## The warnings -/

/-- A dependency is no warning. -/
theorem modAddDependency_kept [DecidableEq μ] (mod : μ) (sym : Symbol μ) (t : Tables μ) :
    ∃ t', modAddDependency malloc mod sym t = .ok t' ∧ t'.symbols = t.symbols ∧ Kept t t' := by
  unfold modAddDependency
  cases sym.owner with
  | none => exact ⟨t, rfl, rfl, rfl, rfl⟩
  | some owner =>
    dsimp only
    split
    · exact ⟨t, rfl, rfl, rfl, rfl⟩
    · rw [hmem, Bool.not_true, if_neg Bool.false_ne_true]
      exact ⟨_, rfl, rfl, rfl, rfl⟩

omit hmem in
theorem warn_warnings (t : Tables μ) (when : Bool) (w : Warning μ) :
    (warn t when w).warnings = t.warnings ++ (if when then [w] else []) := by
  unfold warn
  cases when with
  | false => exact (List.append_nil _).symm
  | true => rfl

/-- One symbol that a module needs. -/
theorem depmodLoadModuleDependencies_warns_cons [DecidableEq μ] (cfg : Symbols.Cfg) (mod : μ)
    {need : Symbols.Needed} (hname : need.name ≠ [] ∧ need.name ≠ [46])
    (needs : List Symbols.Needed) {t : Tables μ} {entries : List (Entry μ)} (h : Holds t entries) :
    ∃ t', depmodLoadModuleDependencies cfg malloc mod (need :: needs) t
        = depmodLoadModuleDependencies cfg malloc mod needs t' ∧
      Holds t' entries ∧ t'.depSymList = t.depSymList ∧
      t'.warnings = t.warnings ++ (warningOf cfg entries mod need).toList := by
  rw [depmodLoadModuleDependencies, depmodSymbolFind_eq cfg t.symbols hname.1 hname.2, ok_bind,
    h (kfind cfg need.name)]
  unfold warningOf
  cases lastEntry entries (kfind cfg need.name) with
  | none =>
    obtain ⟨hsymbols, -, -, hneeds⟩ :=
      warn_fields t (cfg.printUnknown && !need.isWeak) (.unknownSymbol mod need.name)
    refine ⟨_, rfl, fun key => ?_, hneeds, ?_⟩
    · rw [hsymbols]
      exact h key
    · rw [warn_warnings]
      cases need.isWeak <;> cases cfg.printUnknown <;> rfl
  | some sym =>
    have hfields := warn_fields t
      (cfg.checkSymvers && sym.crc != need.crc && !need.isWeak && cfg.printUnknown)
      (.versionMismatch mod need.name)
    obtain ⟨hsymbols, -, -, hneeds⟩ := hfields
    obtain ⟨t', hadd, hsymbols', hkept⟩ := modAddDependency_kept hmem mod sym
      (warn t (cfg.checkSymvers && sym.crc != need.crc && !need.isWeak && cfg.printUnknown)
        (.versionMismatch mod need.name))
    refine ⟨t', ?_, fun key => ?_, hkept.depSymList.trans hneeds, ?_⟩
    · dsimp only
      rw [hadd, ok_bind]
    · rw [hsymbols', hsymbols]
      exact h key
    · rw [hkept.warnings, warn_warnings]
      dsimp only
      cases need.isWeak <;> cases cfg.printUnknown <;> cases cfg.checkSymvers <;>
        cases sym.crc != need.crc <;> rfl

/-- `depmod_load_module_dependencies` warns about each symbol in turn. -/
theorem depmodLoadModuleDependencies_warns [DecidableEq μ] (cfg : Symbols.Cfg) (mod : μ)
    (needs : List Symbols.Needed) : ∀ {t : Tables μ} {entries : List (Entry μ)},
      (∀ need ∈ needs, need.name ≠ [] ∧ need.name ≠ [46]) → Holds t entries →
      ∃ t', depmodLoadModuleDependencies cfg malloc mod needs t = .ok t' ∧ Holds t' entries ∧
        t'.depSymList = t.depSymList ∧
        t'.warnings = t.warnings ++ needs.filterMap (warningOf cfg entries mod) := by
  induction needs with
  | nil =>
    intro t entries _ h
    exact ⟨t, rfl, h, rfl, (List.append_nil _).symm⟩
  | cons need needs ih =>
    intro t entries hnames h
    obtain ⟨t₁, hstep, hholds₁, hneeds₁, hwarnings₁⟩ :=
      depmodLoadModuleDependencies_warns_cons hmem cfg mod (hnames need (List.mem_cons_self ..))
        needs h
    obtain ⟨t', hrun, hholds, hneeds, hwarnings⟩ :=
      ih (fun n hn => hnames n (List.mem_cons_of_mem _ hn)) hholds₁
    refine ⟨t', hstep.trans hrun, hholds, hneeds.trans hneeds₁, ?_⟩
    rw [hwarnings, hwarnings₁, List.append_assoc, List.filterMap_cons]
    cases warningOf cfg entries mod need <;> rfl

/-- `depmod_load_dependencies` warns about one module after the other. -/
theorem depmodLoadDependencies_warns [DecidableEq μ] (cfg : Symbols.Cfg) (mods : List μ) :
    ∀ {t : Tables μ} {entries : List (Entry μ)},
      (∀ mod ∈ mods, ∀ need ∈ t.depSymList mod, need.name ≠ [] ∧ need.name ≠ [46]) →
      Holds t entries → ∃ t', depmodLoadDependencies cfg malloc mods t = .ok t' ∧
        t'.warnings = t.warnings ++
          mods.flatMap (fun mod => (t.depSymList mod).filterMap (warningOf cfg entries mod)) := by
  induction mods with
  | nil =>
    intro t entries _ _
    exact ⟨t, rfl, (List.append_nil _).symm⟩
  | cons mod mods ih =>
    intro t entries hnames h
    obtain ⟨t₁, hone, hholds₁, hneeds₁, hwarnings₁⟩ := depmodLoadModuleDependencies_warns hmem cfg
      mod (t.depSymList mod) (hnames mod (List.mem_cons_self ..)) h
    obtain ⟨t', hrun, hwarnings⟩ := ih (t := t₁) (fun m hm => by
      rw [hneeds₁]
      exact hnames m (List.mem_cons_of_mem _ hm)) hholds₁
    refine ⟨t', ?_, ?_⟩
    · rw [depmodLoadDependencies, hone, ok_bind, hrun]
    · rw [hwarnings, hwarnings₁, hneeds₁, List.append_assoc, List.flatMap_cons]

/-- The modules, after the symbols of the kernel have been read. -/
theorem loadModules_warns [DecidableEq μ] (cfg : Symbols.Cfg) (file : μ → ModuleFile)
    (modules : List μ) (hexported : ∀ mod ∈ modules, ∀ e ∈ (file mod).exportedNames, e ≠ [])
    (hneeded : ∀ mod ∈ modules, ∀ n ∈ (file mod).neededNames, n ≠ [] ∧ n ≠ cstr ".")
    {t : Tables μ} {entries : List (Entry μ)} (h : Holds t entries) :
    ∃ t', (depmodLoadModules cfg malloc file modules t >>=
        depmodLoadDependencies cfg malloc modules) = .ok t' ∧
      t'.warnings = t.warnings ++ modules.flatMap (fun mod =>
        (file mod).dependencySymbols.filterMap
          (warningOf cfg (entries ++ modules.flatMap (moduleEntries cfg file)) mod)) := by
  obtain ⟨t₁, hload, hholds₁, hwarnings₁, hneeds, -⟩ :=
    depmodLoadModules_holds hmem cfg file modules hexported h
  obtain ⟨t', hrun, hwarnings⟩ := depmodLoadDependencies_warns hmem cfg modules (t := t₁)
    (fun mod hmod need hneed => by
      rw [hneeds mod hmod] at hneed
      exact hneeded mod hmod need.name (List.mem_map_of_mem hneed)) hholds₁
  refine ⟨t', by rw [hload, ok_bind, hrun], ?_⟩
  rw [hwarnings, hwarnings₁]
  congr 1
  refine List.flatMap_congr (fun mod hmod => ?_)
  rw [hneeds mod hmod]

/-! ## The files and the modules together -/

omit hmem in
theorem holds_init : Holds (Tables.init : Tables μ) [] := fun _ => Finmap.lookup_empty _

/-- What the kernel exports, entered. -/
theorem loadKernel_holds (cfg : Symbols.Cfg) {kernel : List KernelSymbol}
    (hnames : ∀ sym ∈ kernel, sym.prefixSkipped = false → sym.name ≠ []) :
    ∃ t : Tables μ, (addKernelSymbols cfg malloc kernel .init >>= depmodAddFakeSyms cfg malloc)
        = .ok t ∧ Holds t (kernelEntries cfg kernel) ∧ t.warnings = [] := by
  obtain ⟨t₁, hadd, hholds₁, hkept₁⟩ := addKernelSymbols_holds hmem cfg kernel hnames holds_init
  obtain ⟨t, hfake, hholds, hkept⟩ := depmodAddFakeSyms_holds hmem cfg hholds₁
  refine ⟨t, by rw [hadd, ok_bind, hfake], hholds, ?_⟩
  rw [hkept.warnings, hkept₁.warnings]
  rfl

/-- The files are read. -/
theorem Gives.readSymbolFiles {cfg : Symbols.Cfg} {files : SymbolFiles} {kernel : List KernelSymbol}
    (h : Gives cfg files kernel) :
    ∃ t : Tables μ, readSymbolFiles cfg malloc files .init = .ok (some (cfg, t)) ∧
      Holds t (kernelEntries cfg kernel) ∧ t.warnings = [] := by
  obtain ⟨t, hrun, hholds, hwarnings⟩ := loadKernel_holds (μ := μ) hmem cfg h.named
  refine ⟨t, ?_, hholds, hwarnings⟩
  cases h with
  | symvers hl map =>
    unfold KernelSymbols.readSymbolFiles depmodLoadSymvers
    dsimp only
    rw [symvers_read hl, hrun]
    rfl
  | systemMap hl =>
    unfold KernelSymbols.readSymbolFiles depmodLoadSystemMap
    dsimp only
    rw [systemMap_read hl cfg, ok_bind, filterMap_ksymtab, hrun]
    rfl

/-- What depmod warns about, when the files have been read. -/
theorem checkSymbols_warns [DecidableEq μ] {cfg cfg' : Symbols.Cfg} {files : SymbolFiles}
    (file : μ → ModuleFile) (modules : List μ)
    (hexported : ∀ mod ∈ modules, ∀ e ∈ (file mod).exportedNames, e ≠ [])
    (hneeded : ∀ mod ∈ modules, ∀ n ∈ (file mod).neededNames, n ≠ [] ∧ n ≠ cstr ".")
    {t : Tables μ} (hread : readSymbolFiles cfg malloc files .init = .ok (some (cfg', t)))
    {entries : List (Entry μ)} (h : Holds t entries) (hnone : t.warnings = []) :
    ∃ t', checkSymbols cfg malloc files file modules = .ok (some t') ∧
      t'.warnings = modules.flatMap (fun mod => (file mod).dependencySymbols.filterMap
        (warningOf cfg' (entries ++ modules.flatMap (moduleEntries cfg' file)) mod)) := by
  obtain ⟨t', hrun, hwarnings⟩ := loadModules_warns hmem cfg' file modules hexported hneeded h
  obtain ⟨t₁, hload, hdeps⟩ := ok_of_bind hrun
  refine ⟨t', ?_, ?_⟩
  · unfold checkSymbols
    rw [hread, ok_bind]
    dsimp only
    rw [hload, ok_bind, hdeps]
    rfl
  · rw [hwarnings, hnone, List.nil_append]

/-- **Without a file**, nobody knows what the kernel exports, and there are no warnings. -/
theorem symbolWarnings_without [DecidableEq μ] (cfg : Symbols.Cfg) (file : μ → ModuleFile)
    (modules : List μ) (hexported : ∀ mod ∈ modules, ∀ e ∈ (file mod).exportedNames, e ≠ [])
    (hneeded : ∀ mod ∈ modules, ∀ n ∈ (file mod).neededNames, n ≠ [] ∧ n ≠ cstr ".") :
    ∃ t, checkSymbols cfg malloc ⟨none, none⟩ file modules = .ok (some t) ∧ t.warnings = [] := by
  have hread : readSymbolFiles cfg malloc ⟨none, none⟩ (.init : Tables μ)
      = .ok (some ({ cfg with printUnknown := false }, .init)) := rfl
  obtain ⟨t, hrun, hwarnings⟩ :=
    checkSymbols_warns hmem file modules hexported hneeded hread holds_init rfl
  refine ⟨t, hrun, ?_⟩
  rw [hwarnings, List.flatMap_eq_nil_iff]
  intro mod _
  rw [List.filterMap_eq_nil_iff]
  intro need _
  exact if_pos (Bool.or_true _)

end Memory

/--
**What is warned about**: the needed symbols that nobody exports, and those that were exported
last with another checksum, one module after the other. The kernel exports what the file says, and
what depmod fakes. A weak symbol is never warned about.
-/
theorem symbolWarnings_exact [DecidableEq μ] (cfg : Symbols.Cfg) {malloc : Nat → Bool}
    (hmem : ∀ n, malloc n = true) {files : SymbolFiles} {kernel : List KernelSymbol}
    (hfiles : Gives cfg files kernel) (file : μ → ModuleFile) (modules : List μ)
    (hexported : ∀ mod ∈ modules, ∀ e ∈ (file mod).exportedNames, e ≠ [])
    (hneeded : ∀ mod ∈ modules, ∀ n ∈ (file mod).neededNames, n ≠ [] ∧ n ≠ cstr ".") :
    ∃ t, checkSymbols cfg malloc files file modules = .ok (some t) ∧
      t.warnings = modules.flatMap (fun mod => (file mod).dependencySymbols.filterMap
        (warningOf cfg (kernelEntries cfg kernel ++ modules.flatMap (moduleEntries cfg file))
          mod)) := by
  obtain ⟨t, hread, hholds, hnone⟩ := hfiles.readSymbolFiles (μ := μ) hmem
  exact checkSymbols_warns hmem file modules hexported hneeded hread hholds hnone

/-- A kernel with `foo` and `_bar`, and a line for a module. -/
def fooBar : List VersionedSymbol :=
  [⟨7, cstr "foo", cstr "vmlinux", cstr "EXPORT_SYMBOL"⟩,
    ⟨0xb352177e, cstr "_bar", cstr "vmlinux", cstr "EXPORT_SYMBOL_GPL"⟩,
    ⟨9, cstr "baz", cstr "drivers/baz", cstr "EXPORT_SYMBOL"⟩]

theorem fooBar_ok : ∀ s ∈ fooBar, s.Ok := by
  have htokens : ∀ s ∈ fooBar, s.crc ≤ ULONG_MAX ∧ (s.name ≠ [] ∧ ∀ c ∈ s.name,
      c ≠ 0 ∧ c ≠ 9 ∧ c ≠ 10 ∧ c ≠ 32) ∧ (s.place ≠ [] ∧ ∀ c ∈ s.place,
        c ≠ 0 ∧ c ≠ 9 ∧ c ≠ 10 ∧ c ≠ 32) ∧ (∀ c ∈ s.line, c ≠ 0 ∧ c ≠ 10) ∧
      s.line.length + 1 < LINE_SIZE := by
    decide
  intro s hs
  obtain ⟨hcrc, hname, hplace, hline⟩ := htokens s hs
  exact ⟨hcrc, ⟨hname.1, hname.2⟩, ⟨hplace.1, hplace.2⟩, ⟨hline.1, hline.2⟩⟩

/-- One module has its own `foo`, and another one was built for a kernel with that. -/
def needy : Bool → ModuleFile := fun own =>
  { symbols := .ok (bif own then [⟨cstr "foo", 8⟩] else [])
    info := []
    dependencySymbols := [⟨cstr "foo", 7, false⟩, ⟨cstr ".bar", 0xb352177e, false⟩,
      ⟨cstr "baz", 9, false⟩, ⟨cstr "quux", 0, true⟩] }

theorem symbolWarnings_exact_needy :
    ∃ t, checkSymbols ⟨95, true, true⟩ (fun _ => true)
        ⟨some (.ok (textOf (fooBar.map VersionedSymbol.line))), none⟩ needy [true, false] =
          .ok (some t) ∧
      t.warnings = [true, false].flatMap (fun mod => (needy mod).dependencySymbols.filterMap
        (warningOf ⟨95, true, true⟩ (kernelEntries ⟨95, true, true⟩ (versioned fooBar) ++
          [true, false].flatMap (moduleEntries ⟨95, true, true⟩ needy)) mod)) :=
  symbolWarnings_exact ⟨95, true, true⟩ (fun _ => rfl) (.symvers fooBar_ok none) needy
    [true, false] (by decide) (by decide)

end Kmod.KernelSymbols
