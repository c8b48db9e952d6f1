import Kmod.Depmod.Symbols
import Kmod.Libkmod.ElfAccessors

/-!
# The prefix of symbol names

`depmod_symbol_add` and `depmod_symbol_find` drop a character of a name if it is the prefix,
and the prefix is NUL unless one is given. A name that is not empty does not begin with NUL, so
then nothing is dropped; but the NUL of an empty name is, and what is stored is whatever comes
behind the name. The second function drops a dot before it looks for the prefix, so that a lone
dot is as bad.

The names come from the file, and whether it has such names is seen from its strings: from
`.symtab` an exported name is what follows `__crc_`, which can be nothing; and a version entry
that no symbol visits is returned without a look at its name.
-/

namespace Kmod.Symbols

open Kmod.ByteScan

/-! ## Names -/

/-- The string that `depmod_symbol_add` stores is an end of the name. -/
def AddInside (μ : Type) (cfg : Cfg) (name : CStr) : Prop :=
  ∃ key, key <:+ name ∧ ∀ malloc crc (owner : Option μ) t, ∃ r t',
    depmodSymbolAdd cfg malloc name false crc owner t = .ok (r, t') ∧
      (r = 0 → t'.symbols = t.symbols.insert key ⟨owner, crc⟩)

/-- The string that `depmod_symbol_find` looks up is an end of the name. -/
def FindInside (μ : Type) (cfg : Cfg) (name : CStr) : Prop :=
  ∃ key, key <:+ name ∧ ∀ symbols : StrMap (Symbol μ),
    depmodSymbolFind cfg symbols name = .ok (symbols.lookup key)

/-- The names that the accessors of a file yield, whichever of their allocations succeed. -/
structure NamesInside (μ : Type) (cfg : Cfg) (elf : KmodElf) : Prop where
  exported : ∀ malloc a, kmodElfGetSymbols malloc elf = .ok (.ok a) →
    ∀ m ∈ a, ∀ name, stringAt elf.memory m.symbol = .ok name → AddInside μ cfg name
  needed : ∀ malloc a, kmodElfGetDependencySymbols malloc elf = .ok (.ok a) →
    ∀ m ∈ a, ∀ name, stringAt elf.memory m.symbol = .ok name → FindInside μ cfg name

section Prefix

variable {μ : Type} {cfg : Cfg} {name : CStr}

theorem strip_suffix (c : UInt8) (name : CStr) : strip c name <:+ name := by
  unfold strip
  split
  · exact List.tail_suffix name
  · exact List.suffix_refl name

/-- The pointer passes the NUL just if the prefix is NUL and the name is empty. -/
theorem skipChar_of_not (c : UInt8) (h : ¬ (c = 0 ∧ name = [])) :
    skipChar c name = .ok (strip c name) := by
  by_cases hname : name = []
  · subst hname
    rw [skipChar, if_neg (fun hc => h ⟨hc, rfl⟩)]
    rfl
  · exact skipChar_eq hname c

theorem addInside_iff : AddInside μ cfg name ↔ ¬ (cfg.symPrefix = 0 ∧ name = []) := by
  refine ⟨?_, fun h => ⟨kadd cfg name, strip_suffix _ _, fun malloc crc owner t => ?_⟩⟩
  · rintro ⟨key, _, hadd⟩ ⟨hzero, rfl⟩
    obtain ⟨r, t', hr, _⟩ := hadd (fun _ => true) 0 none .init
    rw [depmodSymbolAdd, Bool.not_false, if_pos rfl, skipChar, if_pos hzero] at hr
    cases hr
  · unfold depmodSymbolAdd
    rw [Bool.not_false, if_pos rfl, skipChar_of_not _ h, ok_bind]
    split
    · exact ⟨_, _, rfl, fun h => absurd h (by decide)⟩
    · split
      · exact ⟨_, _, rfl, fun h => absurd h (by decide)⟩
      · exact ⟨_, _, rfl, fun _ => rfl⟩

theorem strip_dot_eq_nil : strip 46 name = [] ↔ name = [] ∨ name = cstr "." := by
  cases name with
  | nil => exact iff_of_true rfl (.inl rfl)
  | cons a name =>
    rw [show cstr "." = [46] from rfl, List.cons.injEq]
    rw [strip, List.head?_cons]
    by_cases ha : a = 46
    · rw [if_pos (congrArg some ha), List.tail_cons]
      simp [ha]
    · rw [if_neg (fun h => ha (Option.some.inj h))]
      simp [ha]

theorem findInside_iff :
    FindInside μ cfg name ↔ ¬ (cfg.symPrefix = 0 ∧ (name = [] ∨ name = cstr ".")) := by
  have hdot : skipChar 46 name = .ok (strip 46 name) := skipChar_of_not 46 (fun h => by
    have := h.1
    contradiction)
  rw [← strip_dot_eq_nil]
  refine ⟨?_, fun h => ⟨kfind cfg name, ?_, fun symbols => ?_⟩⟩
  · rintro ⟨key, _, hfind⟩ ⟨hzero, hnil⟩
    have hr := hfind ∅
    rw [depmodSymbolFind, hdot, ok_bind, hnil, skipChar, if_pos hzero] at hr
    cases hr
  · exact (strip_suffix _ _).trans (strip_suffix _ _)
  · rw [depmodSymbolFind, hdot, ok_bind, skipChar_of_not _ h]
    rfl

end Prefix

/-! ## Strings of the file -/

theorem stringAt_eq_ok_iff {memory : List UInt8} {p : Nat} {name : CStr} :
    stringAt memory p = .ok name ↔ 0 ∉ name ∧ name ++ [0] <+: memory.drop p := by
  refine ⟨fun h => ?_, fun ⟨hname, rest, hrest⟩ => ?_⟩
  · by_cases hnul : 0 ∈ memory.drop p
    · obtain ⟨rest, hrest⟩ := front_append hnul
      rw [stringAt, hrest, Bytes.takeCstr_append (nul_not_mem_front _)] at h
      obtain rfl : front (memory.drop p) = name := Except.ok.inj h
      exact ⟨nul_not_mem_front _, rest, by rw [List.append_assoc]; exact hrest.symm⟩
    · rw [stringAt, Bytes.takeCstr_of_notMem hnul] at h
      cases h
  · rw [List.append_assoc] at hrest
    rw [stringAt, ← hrest, List.singleton_append, Bytes.takeCstr_append hname]
    rfl

/-- A string that does not begin with its NUL is not empty. -/
theorem ne_nil_of_stringAt {memory : List UInt8} {p : Nat} {name : CStr}
    (h : stringAt memory p = .ok name) (hp : memory[p]? ≠ some 0) : name ≠ [] := by
  rintro rfl
  obtain ⟨rest, hrest⟩ := (stringAt_eq_ok_iff.mp h).2
  refine hp ?_
  rw [← List.head?_drop, ← hrest]
  rfl

/-! ## Exported names -/

/-- Nothing stops the search of the symbol table for CRCs. -/
structure CrcsRead (elf : KmodElf) : Prop where
  symtab : hasSymtab elf = true
  named : ∀ i ∈ symIndexes elf, symNamed elf i = true
  uncut : ∀ i ∈ symIndexes elf, crcCut elf i = false
  resolved : ∀ i ∈ symIndexes elf, isCrc elf i = true → crcResolves elf i = true

/-- Where the names behind `__crc_` are. -/
def crcNames (elf : KmodElf) : List Nat :=
  ((symIndexes elf).filter (isCrc elf)).map (fun i =>
    (elf.sections .strtab).offset + symField elf i stName + crcStr.length)

/-- A symbol that is just called `__crc_`, and the symbols are taken from the symbol table. -/
def BareCrc (elf : KmodElf) : Prop :=
  CrcsRead elf ∧ ∃ i ∈ symIndexes elf, crcStr ++ [0] <+: symTail elf i

/-- The strings that are found begin with a character. -/
theorem eachString_starts {σ : Type} (memory : List UInt8) (strings : Nat) (found : σ → Nat → σ)
    (Inv : σ → Prop) (hstep : ∀ s p, Inv s → memory[p]? ≠ some 0 → Inv (found s p)) (k : Nat) :
    ∀ i last s s', (∀ p, last ≤ p → p < i → memory[strings + p]? ≠ some 0) → last ≤ i → Inv s →
      eachString memory strings found (List.range' i k) last s = .ok s' → Inv s' := by
  induction k with
  | zero =>
    intro i last s s' _ _ hs h
    cases h
    exact hs
  | succ k ih =>
    intro i last s s' hchars hlast hs h
    rw [List.range'_succ, eachString] at h
    cases hc : memory[strings + i]? with
    | none => rw [hc] at h; cases h
    | some c =>
      rw [hc, inBlock_some, ok_bind] at h
      split at h
      · refine ih (i + 1) (i + 1) _ s' (by omega) (Nat.le_refl _) ?_ h
        split
        · exact hs
        · exact hstep s _ hs (hchars last (Nat.le_refl _) (by omega))
      · next hne =>
        refine ih (i + 1) last s s' (fun p hp hlt => ?_) (by omega) hs h
        rcases Nat.lt_succ_iff_lt_or_eq.mp hlt with hlt | rfl
        · exact hchars p hp hlt
        · rw [hc]
          exact fun heq => hne (Option.some.inj heq)

/-- The fallback yields no empty names. -/
theorem kmodElfGetSymbolsSymtab_starts {elf : KmodElf} {malloc : Nat → Bool}
    {a : List KmodModversion} (h : kmodElfGetSymbolsSymtab malloc elf = .ok (.ok a)) :
    ∀ m ∈ a, elf.memory[m.symbol]? ≠ some 0 := by
  unfold kmodElfGetSymbolsSymtab at h
  dsimp only at h
  split at h
  · cases h
  · obtain ⟨r, _, h⟩ := ok_of_bind h
    split at h
    · cases h
      simp
    · obtain ⟨last, _, h⟩ := ok_of_bind h
      split at h
      · cases h
      · obtain ⟨count, _, h⟩ := ok_of_bind h
        split at h
        · cases h
        · split at h
          · cases h
          · obtain ⟨a', ha, h⟩ := ok_of_bind h
            cases h
            rw [List.range_eq_range'] at ha
            refine eachString_starts elf.memory _ _
              (fun a => ∀ m ∈ a, elf.memory[m.symbol]? ≠ some 0) ?_ _ 0 0 [] a
              (fun p _ hp => absurd hp (Nat.not_lt_zero p)) (Nat.le_refl _) (by simp) ha
            intro a p ha hp m hm
            rcases List.mem_append.mp hm with hm | hm
            · exact ha m hm
            · rw [List.mem_singleton.mp hm]
              exact hp

section Exported

variable {elf : KmodElf} (hv : elf.Valid)

include hv

/-- The names come from the fallback, or there are none, or they are those behind `__crc_`. -/
theorem kmodElfGetSymbols_cases (malloc : Nat → Bool) :
    kmodElfGetSymbols malloc elf = kmodElfGetSymbolsSymtab malloc elf ∨
      (∀ a, kmodElfGetSymbols malloc elf ≠ .ok (.ok a)) ∨
      CrcsRead elf ∧ ∃ a, kmodElfGetSymbols malloc elf = .ok (.ok a) ∧
        a.map KmodModversion.symbol = crcNames elf := by
  unfold kmodElfGetSymbols
  cases htab : hasSymtab elf with
  | false => exact .inl (if_pos rfl)
  | true =>
    rw [if_neg (by simp)]
    by_cases huncut : ∀ i ∈ (symIndexes elf).takeWhile (symNamed elf), crcCut elf i = false
    · rw [countCrcs_ok hv _ (fun _ hi => hi) huncut, ok_bind]
      by_cases hall : ∀ i ∈ symIndexes elf, symNamed elf i = true
      · have hread := forall_of_takeWhile hall huncut
        rw [if_pos hall]
        dsimp only
        split
        · exact .inl rfl
        · split
          · exact .inr (.inl (fun a h => by cases h))
          · by_cases hres : ∀ i ∈ symIndexes elf, isCrc elf i = true → crcResolves elf i = true
            · obtain ⟨a, ha, hnames⟩ := storeCrcs_ok hv _ (fun _ hi => hi) hread hres []
              rw [ha, ok_bind]
              exact .inr (.inr ⟨⟨htab, hall, fun i hi => (hread i hi).2, hres⟩, a, rfl, hnames⟩)
            · push Not at hres
              obtain ⟨i, hi, hc, hr⟩ := hres
              obtain ⟨f, hf⟩ := storeCrcs_fault hv _ (fun _ hi => hi) hread
                ⟨i, hi, hc, Bool.not_eq_true _ ▸ hr⟩ []
              rw [hf, error_bind]
              exact .inr (.inl (fun a h => by cases h))
      · rw [if_neg hall]
        exact .inl rfl
    · push Not at huncut
      obtain ⟨i, hi, hcut⟩ := huncut
      obtain ⟨f, hf⟩ := countCrcs_fault hv _ (fun _ hi => hi) ⟨i, hi, by simpa using hcut⟩ 0
      rw [hf, error_bind]
      exact .inr (.inl (fun a h => by cases h))

/-- If there is a CRC, and memory, the names are those behind `__crc_`. -/
theorem kmodElfGetSymbols_crcs (h : CrcsRead elf)
    (hcrc : ∃ i ∈ symIndexes elf, isCrc elf i = true) :
    ∃ a, kmodElfGetSymbols (fun _ => true) elf = .ok (.ok a) ∧
      a.map KmodModversion.symbol = crcNames elf := by
  obtain ⟨i, hi, hc⟩ := hcrc
  have hcount : 0 + ((symIndexes elf).filter (isCrc elf)).length ≠ 0 := by
    rw [Nat.zero_add, Ne, List.length_eq_zero_iff]
    exact List.ne_nil_of_mem (List.mem_filter.mpr ⟨hi, hc⟩)
  obtain ⟨a, ha, hnames⟩ := storeCrcs_ok hv _ (fun _ hi => hi)
    (fun i hi => ⟨h.named i hi, h.uncut i hi⟩) h.resolved []
  refine ⟨a, ?_, hnames⟩
  unfold kmodElfGetSymbols
  rw [if_neg (by simp [h.symtab]), countCrcs_ok hv _ (fun _ hi => hi)
    (fun i hi => h.uncut i ((List.takeWhile_sublist _).subset hi)), ok_bind, if_pos h.named]
  dsimp only
  rw [if_neg hcount, if_neg (by simp), ha, ok_bind]
  rfl

omit hv in
theorem bareCrc_iff {i : Nat} : crcStr ++ [0] <+: symTail elf i ↔ isCrc elf i = true ∧
    stringAt elf.memory ((elf.sections .strtab).offset + symField elf i stName + crcStr.length) =
      .ok [] := by
  unfold isCrc
  rw [decide_eq_true_eq, stringAt_eq_ok_iff, ← List.drop_drop]
  change _ ↔ crcStr <+: symTail elf i ∧ 0 ∉ [] ∧ [0] <+: (symTail elf i).drop crcStr.length
  refine ⟨fun h => ?_, fun ⟨hcrc, _, hnul⟩ => ?_⟩
  · obtain ⟨rest, hrest⟩ := h
    rw [← hrest, List.append_assoc, List.drop_left]
    exact ⟨List.prefix_append _ _, List.not_mem_nil, List.prefix_append _ _⟩
  · obtain ⟨t, ht⟩ := hcrc
    rw [← ht, List.drop_left] at hnul
    rw [← ht]
    exact (List.prefix_append_right_inj crcStr).mpr hnul

/-- An exported name is empty just if it is all that follows a `__crc_`. -/
theorem exported_ne_nil_iff : (∀ malloc a, kmodElfGetSymbols malloc elf = .ok (.ok a) →
      ∀ m ∈ a, ∀ name, stringAt elf.memory m.symbol = .ok name → name ≠ []) ↔ ¬ BareCrc elf := by
  refine ⟨fun h => ?_, fun h malloc a ha m hm name hname => ?_⟩
  · rintro ⟨hread, i, hi, hbare⟩
    obtain ⟨hc, hnil⟩ := bareCrc_iff.mp hbare
    have hmem : (elf.sections .strtab).offset + symField elf i stName + crcStr.length ∈
        crcNames elf := List.mem_map_of_mem (List.mem_filter.mpr ⟨hi, hc⟩)
    obtain ⟨a, ha, hnames⟩ := kmodElfGetSymbols_crcs hv hread ⟨i, hi, hc⟩
    rw [← hnames] at hmem
    obtain ⟨m, hm, hsymbol⟩ := List.mem_map.mp hmem
    exact h _ a ha m hm [] (hsymbol ▸ hnil) rfl
  · rcases kmodElfGetSymbols_cases hv malloc with hcase | hno | ⟨hread, a', ha', hnames⟩
    · exact ne_nil_of_stringAt hname (kmodElfGetSymbolsSymtab_starts (hcase ▸ ha) m hm)
    · exact absurd ha (hno a)
    · rintro rfl
      obtain rfl : a = a' := Except.ok.inj (Except.ok.inj (ha.symm.trans ha'))
      have hm := List.mem_map_of_mem (f := KmodModversion.symbol) hm
      rw [hnames, crcNames, List.mem_map] at hm
      obtain ⟨i, hi, hsymbol⟩ := hm
      obtain ⟨hi, hc⟩ := List.mem_filter.mp hi
      exact h ⟨hread, i, hi, bareCrc_iff.mpr ⟨hc, hsymbol ▸ hname⟩⟩

end Exported

/-! ## Needed names -/

/-- Nothing stops the search for the needed symbols, and they are accepted. -/
structure NeededRead (elf : KmodElf) : Prop where
  symtab : hasSymtab elf = true
  uncut : ∀ i ∈ symIndexes elf, symNeeded elf i = true → symCut elf i = false
  accepted : DependenciesAccepted elf

/--
An undefined symbol is called `.`, or a version that none of the undefined symbols visits is
called that or has no name; and they are returned.
-/
def ShortNeeded (elf : KmodElf) : Prop :=
  NeededRead elf ∧
    ((∃ i ∈ symIndexes elf, symUndefined elf i = true ∧ cstr "." ++ [0] <+: symTail elf i) ∨
      ∃ j ∈ unvisitedVersions elf, [0] <+: versionTail elf (neededVersions elf) j ∨
        cstr "." ++ [0] <+: versionTail elf (neededVersions elf) j)

section Needed

variable {elf : KmodElf} (hv : elf.Valid)

include hv

/-- What is yielded is what was accepted. -/
theorem neededRead_of_ok {malloc : Nat → Bool} {a : List KmodModversion}
    (h : kmodElfGetDependencySymbols malloc elf = .ok (.ok a)) :
    NeededRead elf ∧ a = dependencySymbols elf := by
  have htab : hasSymtab elf = true := by
    by_contra htab
    rw [kmodElfGetDependencySymbols, if_pos (by simpa using htab)] at h
    cases h
  have huncut : ∀ i ∈ (symIndexes elf).takeWhile (symPassed elf),
      symNeeded elf i = true → symCut elf i = false := by
    intro i hi hneed
    by_contra hcut
    rw [Bool.not_eq_false] at hcut
    obtain ⟨f, hf⟩ := findNeeded_fault hv (symIndexes elf) (fun _ hi => hi) ⟨i, hi, hneed, hcut⟩
      ⟨0, [], []⟩
    unfold kmodElfGetDependencySymbols at h
    dsimp only at h
    rw [if_neg (by simp [htab])] at h
    split at h
    · cases h
    · split at h
      · cases h
      · rw [hf, error_bind] at h
        cases h
  rcases kmodElfGetDependencySymbols_eq hv htab huncut malloc with ⟨_, hr⟩ | ⟨_, hr⟩ |
    ⟨haccepted, hr⟩
  · cases hr.symm.trans h
  · cases hr.symm.trans h
  · refine ⟨⟨htab, fun i hi => huncut i ?_, haccepted⟩,
      (Except.ok.inj (Except.ok.inj (hr.symm.trans h))).symm⟩
    rw [List.takeWhile_eq_self_iff.mpr haccepted.passed]
    exact hi

theorem kmodElfGetDependencySymbols_read (h : NeededRead elf) :
    kmodElfGetDependencySymbols (fun _ => true) elf = .ok (.ok (dependencySymbols elf)) := by
  rcases kmodElfGetDependencySymbols_eq hv h.symtab
    (fun i hi => h.uncut i ((List.takeWhile_sublist _).subset hi)) (fun _ => true) with
    ⟨⟨k, hk⟩, _⟩ | ⟨hno, _⟩ | ⟨_, hr⟩
  · cases hk
  · exact absurd h.accepted hno
  · exact hr

/-- A needed name is empty or a lone dot just if the file has such a name. -/
theorem needed_ne_nil_iff : (∀ malloc a, kmodElfGetDependencySymbols malloc elf = .ok (.ok a) →
      ∀ m ∈ a, ∀ name, stringAt elf.memory m.symbol = .ok name → ¬ (name = [] ∨ name = cstr ".")) ↔
    ¬ ShortNeeded elf := by
  have hdot : 0 ∉ cstr "." := by decide
  refine ⟨fun h => ?_, fun h malloc a ha m hm name hname hshort => ?_⟩
  · rintro ⟨hread, ⟨i, hi, hundef, hname⟩ | ⟨j, hj, hname⟩⟩
    · have hneed : symNeeded elf i = true := by
        unfold symNeeded
        obtain ⟨rest, hrest⟩ := hname
        rw [hundef, ← hrest]
        rfl
      refine h _ _ (kmodElfGetDependencySymbols_read hv hread) (neededSymbol elf i) ?_ (cstr ".")
        (stringAt_eq_ok_iff.mpr ⟨hdot, hname⟩) (.inr rfl)
      exact List.mem_append_left _ (List.mem_map_of_mem (List.mem_filter.mpr ⟨hi, hneed⟩))
    · have hyield := h _ _ (kmodElfGetDependencySymbols_read hv hread) (versionSymbol elf j)
        (List.mem_append_right _ (List.mem_map_of_mem hj))
      rcases hname with hname | hname
      · exact hyield [] (stringAt_eq_ok_iff.mpr ⟨List.not_mem_nil, hname⟩) (.inl rfl)
      · exact hyield (cstr ".") (stringAt_eq_ok_iff.mpr ⟨hdot, hname⟩) (.inr rfl)
  · obtain ⟨hread, rfl⟩ := neededRead_of_ok hv ha
    have htail := (stringAt_eq_ok_iff.mp hname).2
    refine h ⟨hread, ?_⟩
    rcases List.mem_append.mp hm with hm | hm
    · obtain ⟨i, hi, rfl⟩ := List.mem_map.mp hm
      obtain ⟨hi, hneed⟩ := List.mem_filter.mp hi
      rw [symNeeded, Bool.and_eq_true, decide_eq_true_eq] at hneed
      rcases hshort with rfl | rfl
      · obtain ⟨rest, hrest⟩ := htail
        refine absurd ?_ hneed.2
        change _ = symTail elf i at hrest
        rw [← hrest]
        rfl
      · exact .inl ⟨i, hi, hneed.1, htail⟩
    · obtain ⟨j, hj, rfl⟩ := List.mem_map.mp hm
      rcases hshort with rfl | rfl
      · exact .inr ⟨j, hj, .inl htail⟩
      · exact .inr ⟨j, hj, .inr htail⟩

end Needed

/-! ## The main result -/

/--
**When names are not read past their end**: unless the prefix is NUL, always; and if it is,
just where no symbol is called `__crc_`, no undefined symbol `.`, and no version that none of
them visits `.` or nothing at all, among those that the accessors yield.
-/
theorem namesInside_iff (μ : Type) {allocated : Bool} {memory : List UInt8} {elf : KmodElf}
    (hnew : kmodElfNew allocated memory = .ok (.ok elf)) (cfg : Cfg) :
    NamesInside μ cfg elf ↔ cfg.symPrefix ≠ 0 ∨ ¬ BareCrc elf ∧ ¬ ShortNeeded elf := by
  obtain ⟨hv, _⟩ := valid_of_kmodElfNew hnew
  rw [← exported_ne_nil_iff hv, ← needed_ne_nil_iff hv]
  refine ⟨fun ⟨hexp, hneed⟩ => ?_, fun h => ⟨?_, ?_⟩⟩
  · refine or_iff_not_imp_left.mpr (fun hzero => ?_)
    rw [not_not] at hzero
    refine ⟨fun malloc a ha m hm name hname hnil => ?_,
      fun malloc a ha m hm name hname hshort => ?_⟩
    · exact addInside_iff.mp (hexp malloc a ha m hm name hname) ⟨hzero, hnil⟩
    · exact findInside_iff.mp (hneed malloc a ha m hm name hname) ⟨hzero, hshort⟩
  · intro malloc a ha m hm name hname
    refine addInside_iff.mpr (fun ⟨hzero, hnil⟩ => ?_)
    exact (h.resolve_left (not_not.mpr hzero)).1 malloc a ha m hm name hname hnil
  · intro malloc a ha m hm name hname
    refine findInside_iff.mpr (fun ⟨hzero, hshort⟩ => ?_)
    exact (h.resolve_left (not_not.mpr hzero)).2 malloc a ha m hm name hname hshort

/-- A file with a symbol `__crc_a` has no empty names. -/
theorem namesInside_crcElf : NamesInside Unit ⟨0, false, false⟩ (crcElf 0xf1) := by
  have hnew : kmodElfNew true (crcFile 0xf1) = .ok (.ok (crcElf 0xf1)) := by decide +kernel
  refine (namesInside_iff Unit hnew ⟨0, false, false⟩).mpr (.inr ⟨?_, ?_⟩)
  · rintro ⟨_, h⟩
    revert h
    decide +kernel
  · rintro ⟨_, h⟩
    revert h
    decide +kernel

/-- A file with a symbol `__crc_`. -/
def bareCrcFile : List UInt8 :=
  [0x7f, 0x45, 0x4c, 0x46, 1, 1] ++ List.replicate 26 0 ++ [52, 0, 0, 0] ++ List.replicate 10 0 ++
    [40, 0, 4, 0, 1, 0] ++
  List.replicate 40 0 ++ sectionHeader32 0 212 17 ++ sectionHeader32 1 229 8 ++
    sectionHeader32 9 237 32 ++
  (0 :: cstr ".strtab" ++ 0 :: cstr ".symtab" ++ [0]) ++ (0 :: cstr "__crc_" ++ [0]) ++
  List.replicate 16 0 ++ ([1, 0, 0, 0] ++ List.replicate 8 0 ++ [16, 0, 0xf1, 0xff])

/-- The same file, opened. -/
def bareCrcElf : KmodElf :=
  { memory := bareCrcFile, size := 269, x32 := true, msb := false, sectionOffset := 52,
    sectionCount := 4, sectionEntrySize := 40, stringsSection := 1, stringsSize := 17,
    stringsOffset := 212, machine := 0, found := [(.symtab, ⟨237, 32⟩), (.strtab, ⟨229, 8⟩)] }

/-- Its exported name is empty, and without a prefix the pointer passes the NUL. -/
theorem bareCrcElf_outside :
    kmodElfNew true bareCrcFile = .ok (.ok bareCrcElf) ∧
      kmodElfGetSymbols (fun _ => true) bareCrcElf = .ok (.ok [⟨0, .globalBind, 236⟩]) ∧
      stringAt bareCrcFile 236 = .ok [] ∧
      depmodSymbolAdd ⟨0, false, false⟩ (fun _ => true) [] false 0 (none : Option Unit) .init =
        .error .outOfBounds ∧
      ¬ NamesInside Unit ⟨0, false, false⟩ bareCrcElf := by
  have hsyms :
      kmodElfGetSymbols (fun _ => true) bareCrcElf = .ok (.ok [⟨0, .globalBind, 236⟩]) := by
    decide +kernel
  have hname : stringAt bareCrcFile 236 = .ok [] := by decide +kernel
  refine ⟨by decide +kernel, hsyms, hname, rfl, fun h => ?_⟩
  exact addInside_iff.mp (h.exported _ _ hsyms _ (List.mem_singleton_self _) [] hname) ⟨rfl, rfl⟩

end Kmod.Symbols
