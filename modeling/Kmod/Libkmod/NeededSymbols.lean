import Mathlib.Data.List.Find
import Kmod.Libkmod.Modinfo

/-!
# The symbols a module needs

`kmod_elf_get_dependency_symbols` goes over the symbol table twice. The first pass counts
the undefined symbols and looks up their CRCs, the second one stores them; what it needs to
know in between is kept in two tables, one by symbol and one by version entry. We say what
comes out in terms of the strings and numbers of the file alone: each undefined symbol with
the CRC of the first version of its name, then the versions that are the first of no such
symbol.
-/

namespace Kmod

open Kmod.ByteScan

/-! ## Symbols and versions of the file -/

/-- The name of a symbol. -/
def symString (elf : KmodElf) (i : Nat) : CStr := front (symTail elf i)

/-- The name of a version entry. -/
def versionString (elf : KmodElf) (j : Nat) : CStr :=
  front (versionTail elf (neededVersions elf) j)

/-- The first version entry with the name of a symbol. -/
def firstVersion (elf : KmodElf) (i : Nat) : Option Nat :=
  (verIndexes elf).find? (fun j => decide (versionString elf j = symString elf i))

/-- The symbols that are considered and have a name. -/
def namedUndefined (elf : KmodElf) : List Nat :=
  (symIndexes elf).filter (fun i => symUndefined elf i && decide (symString elf i ≠ []))

/-- Name, CRC and binding. -/
abbrev SymbolTriple := CStr × Nat × KmodSymbolBind

/-- The triple for a symbol. -/
def symTriple (elf : KmodElf) (i : Nat) : SymbolTriple :=
  (symString elf i, ((firstVersion elf i).map (versionCrc elf (neededVersions elf))).getD 0,
    if symField elf i stInfo / 16 = 2 then .weak else .undef)

/-- The triple for a version entry. -/
def versionTriple (elf : KmodElf) (j : Nat) : SymbolTriple :=
  (versionString elf j, versionCrc elf (neededVersions elf) j, .undef)

/-- The symbols, then the versions that are the first of none of them. -/
def dependencyTriples (elf : KmodElf) : List SymbolTriple :=
  (namedUndefined elf).map (symTriple elf) ++
    ((verIndexes elf).filter (fun j =>
      decide (∀ i ∈ namedUndefined elf, firstVersion elf i ≠ some j))).map (versionTriple elf)

/-- A name is not in `.strtab`, or does not end in its version entry. -/
def BadNames (elf : KmodElf) : Prop :=
  (∃ i ∈ symIndexes elf, symUndefined elf i = true ∧
    (elf.sections .strtab).size ≤ symField elf i stName) ∨
  ∃ j ∈ verIndexes elf, 0 ∉ (versionTail elf (neededVersions elf) j).take (namlen elf.x32)

/-- What an entry of the result says. -/
def KmodModversion.triple (elf : KmodElf) (m : KmodModversion) : SymbolTriple :=
  (front (elf.memory.drop m.symbol), m.crc, m.bind)

section
variable {elf : KmodElf}

/-- Names in a `.strtab` that ends with a NUL end. -/
theorem nul_mem_symTail (hv : elf.Valid) (hnul : (elf.sectionBytes .strtab).getLast? = some 0)
    {i : Nat} (hn : symNamed elf i = true) : 0 ∈ symTail elf i := by
  have hn := of_decide_eq_true hn
  have hlen := hv.length_sectionBytes .strtab
  rw [List.getLast?_eq_getElem?, hlen] at hnul
  unfold KmodElf.sectionBytes bytesAt at hnul
  rw [List.getElem?_take_of_lt (by omega), List.getElem?_drop] at hnul
  refine List.mem_of_getElem? (i := (elf.sections .strtab).size - 1 - symField elf i stName) ?_
  unfold symTail
  rw [List.getElem?_drop, ← hnul]
  congr 1
  omega

theorem front_eq_nil_iff {t : List UInt8} (ht : 0 ∈ t) : front t = [] ↔ t.head? = some 0 := by
  cases t with
  | nil => cases ht
  | cons b t => by_cases hb : b = 0 <;> simp [front, hb]

/-- A symbol with a name, where the names end. -/
theorem symNeeded_eq {i : Nat} (hterm : symUndefined elf i = true → 0 ∈ symTail elf i) :
    symNeeded elf i = (symUndefined elf i && decide (symString elf i ≠ [])) := by
  unfold symNeeded symString
  cases hu : symUndefined elf i with
  | false => rfl
  | true =>
    rw [Bool.true_and, Bool.true_and, decide_eq_decide]
    exact not_congr (front_eq_nil_iff (hterm hu)).symm

/-- The entry that is looked for has the name. -/
theorem versionMatches_eq {i j : Nat} (hi : 0 ∈ symTail elf i)
    (hj : versionTerminated elf (neededVersions elf) j = true) :
    versionMatches elf (neededVersions elf) (symTail elf i) j =
      decide (versionString elf j = symString elf i) := by
  obtain ⟨rest, hrest⟩ := front_append hi
  unfold versionMatches
  rw [hj, Bool.true_and]
  conv_lhs => rw [hrest]
  rw [streqTails_eq (nul_not_mem_front _) rest (nul_mem_of_versionTerminated hj), decide_eq_decide,
    Option.some_inj, decide_eq_true_eq]
  rfl

/-- The index of an entry fits an `int`. -/
theorem int32_of_lt {n : Nat} (h : n < 2147483648) : int32 n = n := by
  unfold int32
  rw [Nat.mod_eq_of_lt (by omega), if_pos h]

theorem symVersion_eq_iff (hver : (verIndexes elf).length < 2147483648) {i j : Nat} :
    symVersion elf i = j ↔
      (verIndexes elf).find? (versionMatches elf (neededVersions elf)
        (symTail elf i)) = some j := by
  unfold symVersion versionIndex
  cases hfind : (verIndexes elf).find? (versionMatches elf (neededVersions elf)
    (symTail elf i)) with
  | none =>
    rw [Option.map_none, Option.getD_none]
    exact iff_of_false (by omega) (by simp)
  | some k =>
    have hk := List.mem_range.mp (List.mem_of_find?_eq_some hfind)
    unfold verIndexes at hver
    rw [List.length_range] at hver
    rw [Option.map_some, Option.getD_some, int32_of_lt (by omega), Option.some_inj]
    omega

/-- A version that is visited has a name that ends. -/
theorem versionTerminated_of_visited (hver : (verIndexes elf).length < 2147483648) {j : Nat}
    (h : versionVisited elf (symIndexes elf) j = true) :
    versionTerminated elf (neededVersions elf) j = true := by
  unfold versionVisited at h
  obtain ⟨i, _, hi⟩ := List.any_eq_true.mp h
  rw [Bool.and_eq_true, decide_eq_true_eq, symVersion_eq_iff hver] at hi
  have hmatch := List.find?_some hi.2
  unfold versionMatches at hmatch
  exact (Bool.and_eq_true_iff.mp hmatch).1

/-- There is something to complain about just if a name is bad. -/
theorem dependenciesAccepted_iff
    (hfew : (symIndexes elf).length + (verIndexes elf).length < 2147483648) :
    DependenciesAccepted elf ↔ ¬ BadNames elf := by
  have hpassed : (∀ i ∈ symIndexes elf, symPassed elf i = true) ↔
      ¬ ∃ i ∈ symIndexes elf, symUndefined elf i = true ∧
        (elf.sections .strtab).size ≤ symField elf i stName := by
    unfold symPassed symNamed
    simp only [Bool.or_eq_true, Bool.not_eq_true', decide_eq_true_eq, not_exists, not_and,
      Nat.not_le]
    refine forall₂_congr fun i _ => ?_
    cases symUndefined elf i <;> simp
  have hversions : (∀ j ∈ unvisitedVersions elf, versionTerminated elf (neededVersions elf) j = true) ↔
      ¬ ∃ j ∈ verIndexes elf, 0 ∉ (versionTail elf (neededVersions elf) j).take (namlen elf.x32) := by
    unfold unvisitedVersions
    simp only [List.mem_filter, Bool.not_eq_true', and_imp, not_exists, not_and, not_not]
    refine forall₂_congr fun j _ => ?_
    refine ⟨?_, fun h _ => decide_eq_true h⟩
    intro h
    cases hvis : versionVisited elf (symIndexes elf) j with
    | false => exact of_decide_eq_true (h hvis)
    | true => exact of_decide_eq_true (versionTerminated_of_visited (by omega) hvis)
  have hcount : ((symIndexes elf).filter (symNeeded elf)).length + (unvisitedVersions elf).length ≤
      INT_MAX := by
    have h1 := List.length_filter_le (symNeeded elf) (symIndexes elf)
    have h2 : (unvisitedVersions elf).length ≤ (verIndexes elf).length := List.length_filter_le _ _
    unfold INT_MAX
    omega
  unfold BadNames
  rw [not_or, ← hpassed, ← hversions]
  exact ⟨fun h => ⟨h.passed, h.versions⟩, fun h => ⟨h.1, h.2, hcount⟩⟩

/-- Where all names are good. -/
structure GoodNames (elf : KmodElf) : Prop where
  symbols : ∀ i ∈ symIndexes elf, symUndefined elf i = true → 0 ∈ symTail elf i
  versions : ∀ j ∈ verIndexes elf, versionTerminated elf (neededVersions elf) j = true

theorem goodNames (hv : elf.Valid) (hnul : (elf.sectionBytes .strtab).getLast? = some 0)
    (hok : ¬ BadNames elf) : GoodNames elf := by
  unfold BadNames at hok
  push Not at hok
  refine ⟨?_, fun j hj => decide_eq_true (hok.2 j hj)⟩
  intro i hi hu
  exact nul_mem_symTail hv hnul (decide_eq_true (hok.1 i hi hu))

theorem GoodNames.filter_needed (h : GoodNames elf) :
    (symIndexes elf).filter (symNeeded elf) = namedUndefined elf :=
  List.filter_congr fun i hi => symNeeded_eq (h.symbols i hi)

/-- The version that is found is the first one with the name. -/
theorem GoodNames.find_version (h : GoodNames elf) {i : Nat} (hi : i ∈ namedUndefined elf) :
    (verIndexes elf).find? (versionMatches elf (neededVersions elf) (symTail elf i)) =
      firstVersion elf i := by
  obtain ⟨hi, hneed⟩ := List.mem_filter.mp hi
  have hterm := h.symbols i hi (Bool.and_eq_true_iff.mp hneed).1
  exact List.find?_congr fun j hj => versionMatches_eq hterm (h.versions j hj)

theorem GoodNames.triple_needed (h : GoodNames elf) {i : Nat} (hi : i ∈ namedUndefined elf) :
    (neededSymbol elf i).triple elf = symTriple elf i := by
  unfold neededSymbol symTriple symCrc versionFoundCrc
  rw [h.find_version hi]
  rfl

/-- The versions that are left are the first of no symbol. -/
theorem GoodNames.unvisited (h : GoodNames elf) (hver : (verIndexes elf).length < 2147483648) :
    unvisitedVersions elf = (verIndexes elf).filter (fun j =>
      decide (∀ i ∈ namedUndefined elf, firstVersion elf i ≠ some j)) := by
  unfold unvisitedVersions
  refine List.filter_congr fun j _ => ?_
  rw [← Bool.coe_iff_coe, decide_eq_true_eq, Bool.not_eq_true', ← Bool.not_eq_true]
  unfold versionVisited
  rw [List.any_eq_true, ← h.filter_needed]
  simp only [Bool.and_eq_true, decide_eq_true_eq, not_exists, not_and, List.mem_filter, and_imp]
  refine forall₃_congr fun i hi hneed => ?_
  rw [symVersion_eq_iff hver, h.find_version]
  rw [← h.filter_needed]
  exact List.mem_filter.mpr ⟨hi, hneed⟩

/-- What is returned, in terms of the file. -/
theorem GoodNames.triples (h : GoodNames elf) (hver : (verIndexes elf).length < 2147483648) :
    (dependencySymbols elf).map (KmodModversion.triple elf) = dependencyTriples elf := by
  unfold dependencySymbols dependencyTriples
  rw [List.map_append, List.map_map, List.map_map, h.filter_needed, h.unvisited hver]
  congr 1
  exact List.map_congr_left fun i hi => h.triple_needed hi

/-- The names of needed symbols end, so that comparing them keeps to the file. -/
theorem not_symCut (hv : elf.Valid) (hnul : (elf.sectionBytes .strtab).getLast? = some 0) {i : Nat}
    (hpass : symPassed elf i = true) (hneed : symNeeded elf i = true) : symCut elf i = false := by
  unfold symPassed at hpass
  unfold symNeeded at hneed
  rw [(Bool.and_eq_true_iff.mp hneed).1, Bool.not_true, Bool.false_or] at hpass
  have hmem := nul_mem_symTail hv hnul hpass
  unfold symCut
  rw [List.any_eq_false]
  intro j _ hcut
  unfold versionCut at hcut
  rw [Bool.and_eq_true, decide_eq_true_eq] at hcut
  exact nul_not_mem_front _ (hcut.2.mem hmem)

end

/--
**The symbols a module needs.** Unless an allocation fails, the result is `-EINVAL` just if
a name is bad, and otherwise the undefined symbols with their CRCs and the versions that are
the first of none of them.
-/
theorem kmodElfGetDependencySymbols_triples {allocated : Bool} {memory : List UInt8} {elf : KmodElf}
    (hnew : kmodElfNew allocated memory = .ok (.ok elf))
    (hstrtab : (elf.sections .strtab).offset ≠ 0)
    (hnul : (elf.sectionBytes .strtab).getLast? = some 0)
    (hsymtab : (elf.sections .symtab).offset ≠ 0)
    (hsize : (elf.sections .symtab).size % symSize elf.x32 = 0)
    (hfew : (elf.sections .symtab).size / symSize elf.x32 + (neededVersions elf).size / verlen <
      2147483648) (malloc : Nat → Bool) :
    ((∃ k, malloc k = false) ∧ kmodElfGetDependencySymbols malloc elf = .ok (.error (-ENOMEM))) ∨
    ((kmodElfGetDependencySymbols malloc elf = .ok (.error (-EINVAL)) ↔ BadNames elf) ∧
      (¬ BadNames elf → ∃ a, kmodElfGetDependencySymbols malloc elf = .ok (.ok a) ∧
        (∀ m ∈ a, 0 ∈ elf.memory.drop m.symbol) ∧
        a.map (KmodModversion.triple elf) = dependencyTriples elf)) := by
  obtain ⟨hv, _⟩ := valid_of_kmodElfNew hnew
  have htab : hasSymtab elf = true := decide_eq_true ⟨hstrtab, hsymtab, hsize⟩
  have hlen : (symIndexes elf).length + (verIndexes elf).length < 2147483648 := by
    unfold symIndexes verIndexes
    rw [List.length_range', List.length_range]
    exact (Nat.add_le_add_right (Nat.sub_le _ _) _).trans_lt hfew
  have hiff := dependenciesAccepted_iff hlen
  rcases kmodElfGetDependencySymbols_eq hv htab
    (fun i hi hneed => not_symCut hv hnul (List.mem_takeWhile_imp hi) hneed) malloc with
    hmem | ⟨hrefused, hr⟩ | ⟨haccepted, hr⟩
  · exact .inl hmem
  · have hbad : BadNames elf := by
      by_contra h
      exact hrefused (hiff.mpr h)
    exact .inr ⟨iff_of_true hr hbad, fun h => absurd hbad h⟩
  · have hgood := hiff.mp haccepted
    have hnames := goodNames hv hnul hgood
    refine .inr ⟨iff_of_false (by rw [hr]; simp) hgood, fun _ => ⟨_, hr, ?_, ?_⟩⟩
    · intro m hm
      rcases List.mem_append.mp hm with hm | hm
      · obtain ⟨i, hi, rfl⟩ := List.mem_map.mp hm
        obtain ⟨hi, hneed⟩ := List.mem_filter.mp hi
        exact hnames.symbols i hi (Bool.and_eq_true_iff.mp hneed).1
      · obtain ⟨j, hj, rfl⟩ := List.mem_map.mp hm
        exact nul_mem_of_versionTerminated (haccepted.versions j hj)
    · exact hnames.triples (by omega)

/-- A version entry of the 32-bit class, with a name of one character. -/
def versionEntry32 (crc name : UInt8) : List UInt8 :=
  [crc, 0, 0, 0, name] ++ List.replicate 59 0

/-- A file with a weak undefined symbol `f`, and versions of `f` and `m`. -/
def neededFile : List UInt8 :=
  [0x7f, 0x45, 0x4c, 0x46, 1, 1] ++ List.replicate 26 0 ++ [52, 0, 0, 0] ++ List.replicate 10 0 ++
    [40, 0, 4, 0, 1, 0] ++
  List.replicate 40 0 ++ sectionHeader32 1 212 30 ++ sectionHeader32 9 242 32 ++
    ([17, 0, 0, 0] ++ List.replicate 12 0 ++ [18, 1, 0, 0, 128, 0, 0, 0] ++ List.replicate 16 0) ++
  (0 :: cstr ".strtab" ++ 0 :: cstr ".symtab" ++ 0 :: cstr "__versions" ++ 0 :: cstr "f" ++ [0]) ++
  List.replicate 16 0 ++ ([28, 0, 0, 0] ++ List.replicate 8 0 ++ [0x20, 0, 0, 0]) ++
  versionEntry32 7 102 ++ versionEntry32 9 109

/-- The same file, opened. -/
def neededElf : KmodElf :=
  { memory := neededFile, size := 402, x32 := true, msb := false, sectionOffset := 52,
    sectionCount := 4, sectionEntrySize := 40, stringsSection := 1, stringsSize := 30,
    stringsOffset := 212, machine := 0,
    found := [(.versions, ⟨274, 128⟩), (.symtab, ⟨242, 32⟩), (.strtab, ⟨212, 30⟩)] }

theorem kmodElfGetDependencySymbols_neededFile :
    kmodElfNew true neededFile = .ok (.ok neededElf) ∧
    ∃ a, kmodElfGetDependencySymbols (fun _ => true) neededElf = .ok (.ok a) ∧
      a.map (KmodModversion.triple neededElf) = [(cstr "f", 7, .weak), (cstr "m", 9, .undef)] := by
  have hnew : kmodElfNew true neededFile = .ok (.ok neededElf) := by decide +kernel
  have hgood : ¬ BadNames neededElf := by
    unfold BadNames
    decide +kernel
  have htriples : dependencyTriples neededElf = [(cstr "f", 7, .weak), (cstr "m", 9, .undef)] := by
    decide +kernel
  refine ⟨hnew, ?_⟩
  rcases kmodElfGetDependencySymbols_triples hnew (by decide +kernel) (by decide +kernel)
    (by decide +kernel) (by decide +kernel) (by decide +kernel) (fun _ => true) with
    ⟨⟨_, h⟩, _⟩ | ⟨_, h⟩
  · cases h
  · obtain ⟨a, ha, _, hall⟩ := h hgood
    exact ⟨a, ha, hall.trans htriples⟩

end Kmod
