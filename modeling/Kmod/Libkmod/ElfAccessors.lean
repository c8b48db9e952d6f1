import Kmod.Libkmod.ElfSafety

/-!
# Needed symbols and the build id

`kmod_elf_get_dependency_symbols` looks for the name of each undefined symbol in the
`__versions` section. An entry whose name does not end in the entry is skipped, so a
comparison can leave the file only through the name of the symbol: when the file ends
with a part of the name of a version. A name without an end that is no such part gets
through, and is returned unless one of the later checks fails.

`accessors_safe_iff` collects the conditions of all accessors.
-/

namespace Kmod

open Kmod.Memory Kmod.ByteScan

/-! ## Looking for a version -/

/-- The rest of a file is the string of an entry. -/
def versionMatches (elf : KmodElf) (sec : SectionRange) (t : List UInt8) (i : Nat) : Bool :=
  versionTerminated elf sec i && decide (streqTails t (versionTail elf sec i) = some true)

/-- The file ends in the middle of the string of an entry. -/
def versionCut (elf : KmodElf) (sec : SectionRange) (t : List UInt8) (i : Nat) : Bool :=
  versionTerminated elf sec i && decide (t <+: front (versionTail elf sec i))

/-- `idx` as `kmod_elf_crc_find` gives it. -/
def versionIndex (elf : KmodElf) (sec : SectionRange) (t : List UInt8) (is : List Nat) : Int :=
  ((is.find? (versionMatches elf sec t)).map int32).getD (-1)

/-- The CRC as `kmod_elf_crc_find` gives it. -/
def versionFoundCrc (elf : KmodElf) (sec : SectionRange) (t : List UInt8) (is : List Nat) : Nat :=
  ((is.find? (versionMatches elf sec t)).map (versionCrc elf sec)).getD 0

section Versions

variable {elf : KmodElf} (hs : elf.Sized) {sec : SectionRange}
  (hsec : sec.offset + sec.size ≤ elf.size) (name : Nat)

include hs hsec

/-- One entry of the search. -/
theorem kmodElfCrcFind_cons {i : Nat} (hi : i < sec.size / verlen) (is : List Nat) :
    kmodElfCrcFind elf sec.offset name (i :: is) =
      if versionTerminated elf sec i = false then kmodElfCrcFind elf sec.offset name is
      else inBlock (streqTails (elf.memory.drop name) (versionTail elf sec i)) >>= fun eq =>
        if eq = false then kmodElfCrcFind elf sec.offset name is
        else .ok (int32 i, versionCrc elf sec i) := by
  obtain ⟨n, hn, hterm⟩ := version_strnlen hs hsec hi
  rw [kmodElfCrcFind, hn, ok_bind, version_crc hs hsec hi, (version_u64 hs hsec hi).2]
  by_cases hlen : n = namlen elf.x32
  · rw [if_pos hlen, if_pos (hterm.mp hlen)]
  · rw [if_neg hlen, if_neg (fun h => hlen (hterm.mpr h))]
    rfl

theorem kmodElfCrcFind_ok : ∀ is, (∀ i ∈ is, i < sec.size / verlen) →
    (∀ i ∈ is, versionCut elf sec (elf.memory.drop name) i = false) →
      kmodElfCrcFind elf sec.offset name is =
        .ok (versionIndex elf sec (elf.memory.drop name) is,
          versionFoundCrc elf sec (elf.memory.drop name) is) := by
  intro is
  induction is with
  | nil => intro _ _; rfl
  | cons i is ih =>
    intro his hcut
    obtain ⟨hlt, his⟩ := List.forall_mem_cons.mp his
    obtain ⟨hi, hcut⟩ := List.forall_mem_cons.mp hcut
    have hrest := ih his hcut
    rw [kmodElfCrcFind_cons hs hsec name hlt is]
    unfold versionCut at hi
    unfold versionIndex versionFoundCrc
    rw [List.find?_cons]
    unfold versionMatches
    cases hterm : versionTerminated elf sec i with
    | false =>
      rw [if_pos rfl]
      exact hrest
    | true =>
      rw [hterm, Bool.true_and] at hi
      rw [if_neg (by simp), Bool.true_and]
      cases heq : streqTails (elf.memory.drop name) (versionTail elf sec i) with
      | none =>
        rw [streqTails_front (nul_mem_of_versionTerminated hterm)] at heq
        exact absurd heq (of_decide_eq_false hi)
      | some eq =>
        rw [inBlock_some, ok_bind]
        cases eq with
        | false => exact hrest
        | true => rfl

/-- A string that is cut off is equal to none, so the search goes on to where it leaves the file. -/
theorem kmodElfCrcFind_fault : ∀ is, (∀ i ∈ is, i < sec.size / verlen) →
    (∃ i ∈ is, versionCut elf sec (elf.memory.drop name) i = true) →
      ∃ f, kmodElfCrcFind elf sec.offset name is = .error f := by
  intro is
  induction is with
  | nil => intro _ ⟨i, hi, _⟩; cases hi
  | cons i is ih =>
    intro his ⟨j, hj, hcut⟩
    obtain ⟨hlt, his⟩ := List.forall_mem_cons.mp his
    have hrest := ih his
    have hcut' := hcut
    unfold versionCut at hcut'
    rw [Bool.and_eq_true, decide_eq_true_eq] at hcut'
    have hnul : 0 ∉ elf.memory.drop name := fun h => nul_not_mem_front _ (hcut'.2.mem h)
    rw [kmodElfCrcFind_cons hs hsec name hlt is]
    cases hterm : versionTerminated elf sec i with
    | false =>
      rw [if_pos rfl]
      rcases List.mem_cons.mp hj with rfl | hj
      · rw [hterm] at hcut'
        cases hcut'.1
      · exact hrest ⟨j, hj, hcut⟩
    | true =>
      rw [if_neg (by simp)]
      cases heq : streqTails (elf.memory.drop name) (versionTail elf sec i) with
      | none => exact ⟨_, rfl⟩
      | some eq =>
        rw [inBlock_some, ok_bind]
        cases eq with
        | true => exact absurd (nul_mem_of_streqTails heq) hnul
        | false =>
          rcases List.mem_cons.mp hj with rfl | hj
          · rw [(streqTails_front (nul_mem_of_versionTerminated hterm)).mpr hcut'.2] at heq
            cases heq
          · exact hrest ⟨j, hj, hcut⟩

end Versions

/-! ## The undefined symbols -/

/-- The entries of the version section that are looked at. -/
def verIndexes (elf : KmodElf) : List Nat := List.range ((neededVersions elf).size / verlen)

def symUndefined (elf : KmodElf) (i : Nat) : Bool :=
  isUndefined elf (symField elf i stInfo) (symField elf i stShndx)

/-- The symbol is undefined, and its name is not empty. -/
def symNeeded (elf : KmodElf) (i : Nat) : Bool :=
  symUndefined elf i && decide ((symTail elf i).head? ≠ some 0)

/-- The symbol does not end the first loop. -/
def symPassed (elf : KmodElf) (i : Nat) : Bool := !symUndefined elf i || symNamed elf i

/-- The file ends in the middle of the string of some version. -/
def symCut (elf : KmodElf) (i : Nat) : Bool :=
  (verIndexes elf).any (versionCut elf (neededVersions elf) (symTail elf i))

/-- The version a symbol visits. -/
def symVersion (elf : KmodElf) (i : Nat) : Int :=
  versionIndex elf (neededVersions elf) (symTail elf i) (verIndexes elf)

/-- The CRC of a symbol. -/
def symCrc (elf : KmodElf) (i : Nat) : Nat :=
  versionFoundCrc elf (neededVersions elf) (symTail elf i) (verIndexes elf)

/-- What is returned for a symbol. -/
def neededSymbol (elf : KmodElf) (i : Nat) : KmodModversion :=
  ⟨symCrc elf i, if symField elf i stInfo / 16 = 2 then .weak else .undef,
    (elf.sections .strtab).offset + symField elf i stName⟩

/-- What is returned for a version that no symbol visits. -/
def versionSymbol (elf : KmodElf) (j : Nat) : KmodModversion :=
  ⟨versionCrc elf (neededVersions elf) j, .undef,
    (neededVersions elf).offset + j * verlen + crclen elf.x32⟩

/-- The version is that of one of the symbols. -/
def versionVisited (elf : KmodElf) (is : List Nat) (j : Nat) : Bool :=
  is.any (fun i => symNeeded elf i && decide (symVersion elf i = j))

theorem KmodElf.Valid.neededVersions_inFile {elf : KmodElf} (hv : elf.Valid) :
    (neededVersions elf).offset + (neededVersions elf).size ≤ elf.size := by
  unfold neededVersions
  dsimp only
  split
  · exact Nat.zero_le _
  · exact hv.sections_inFile .versions

section Needed

variable {elf : KmodElf} (hv : elf.Valid)

include hv

/-- The first character of a name, which is read in both loops. -/
theorem first_char {i : Nat} (hn : symNamed elf i = true) :
    ∃ c, elf.memory[symName elf (symField elf i stName)]? = some c ∧
      (c = 0 ↔ (symTail elf i).head? = some 0) := by
  obtain ⟨hname, hlt⟩ := symName_eq hv hn
  refine ⟨_, List.getElem?_eq_getElem hlt, ?_⟩
  unfold symTail
  rw [List.head?_drop, ← hname, List.getElem?_eq_getElem hlt, Option.some_inj]

/-- One symbol of the first loop. -/
theorem findNeeded_cons {i : Nat} (hi : i ∈ symIndexes elf) (is : List Nat) (s : Needed) :
    findNeeded elf (neededVersions elf).offset ((neededVersions elf).size / verlen) (i :: is) s =
      if symPassed elf i = false then .ok none
      else if symNeeded elf i = false then
        findNeeded elf (neededVersions elf).offset ((neededVersions elf).size / verlen) is s
      else kmodElfCrcFind elf (neededVersions elf).offset
          ((elf.sections .strtab).offset + symField elf i stName) (verIndexes elf) >>= fun p =>
        findNeeded elf (neededVersions elf).offset ((neededVersions elf).size / verlen) is
          ⟨s.count + 1, if p.1 ≥ 0 then p.1.toNat :: s.visited else s.visited,
            (i, p.2) :: s.symcrcs⟩ := by
  rw [findNeeded, readv_sym hv hi stName_within, ok_bind, readv_sym hv hi stShndx_within, ok_bind,
    readv_sym hv hi stInfo_within, ok_bind]
  change (if symUndefined elf i = false then _ else _) = _
  unfold symPassed symNeeded
  cases hu : symUndefined elf i with
  | false => simp
  | true =>
    rw [if_neg (by simp), Bool.not_true, Bool.false_or, Bool.true_and]
    cases hn : symNamed elf i with
    | false => rw [if_pos rfl, if_pos (Nat.le_of_not_lt (of_decide_eq_false hn))]
    | true =>
      obtain ⟨c, hc, hnul⟩ := first_char hv hn
      rw [if_neg (Nat.not_le.mpr (of_decide_eq_true hn)), if_neg (by simp), hc, inBlock_some,
        ok_bind]
      by_cases hc0 : c = 0
      · rw [if_pos hc0, if_pos (by simp [hnul.mp hc0])]
      · have hhead : (symTail elf i).head? ≠ some 0 := fun h => hc0 (hnul.mpr h)
        rw [if_neg hc0, if_neg (by simp [hhead]), (symName_eq hv hn).1]
        rfl

/-- The version of a symbol is found unless the name of the symbol is cut off. -/
theorem crcFind_ok {i : Nat} (hcut : symCut elf i = false) :
    kmodElfCrcFind elf (neededVersions elf).offset
      ((elf.sections .strtab).offset + symField elf i stName) (verIndexes elf) =
        .ok (symVersion elf i, symCrc elf i) := by
  unfold symCut at hcut
  rw [List.any_eq_false] at hcut
  exact kmodElfCrcFind_ok hv.toSized hv.neededVersions_inFile _ _
    (fun j hj => List.mem_range.mp hj) (fun j hj => Bool.eq_false_of_not_eq_true (hcut j hj))

theorem crcFind_fault {i : Nat} (hcut : symCut elf i = true) :
    ∃ f, kmodElfCrcFind elf (neededVersions elf).offset
      ((elf.sections .strtab).offset + symField elf i stName) (verIndexes elf) = .error f := by
  unfold symCut at hcut
  rw [List.any_eq_true] at hcut
  exact kmodElfCrcFind_fault hv.toSized hv.neededVersions_inFile _ _
    (fun j hj => List.mem_range.mp hj) hcut

/-- The first loop where all symbols are passed. -/
theorem findNeeded_ok : ∀ is, (∀ i ∈ is, i ∈ symIndexes elf) →
    (∀ i ∈ is, symPassed elf i = true ∧ (symNeeded elf i = true → symCut elf i = false)) → ∀ s,
      ∃ s', findNeeded elf (neededVersions elf).offset ((neededVersions elf).size / verlen) is s =
          .ok (some s') ∧
        s'.count = s.count + (is.filter (symNeeded elf)).length ∧
        (∀ j, j ∈ s'.visited ↔ j ∈ s.visited ∨ versionVisited elf is j = true) ∧
        s'.symcrcs = ((is.filter (symNeeded elf)).map fun i => (i, symCrc elf i)).reverse ++
          s.symcrcs := by
  intro is
  induction is with
  | nil => intro _ _ s; exact ⟨s, rfl, rfl, by simp [versionVisited], rfl⟩
  | cons i is ih =>
    intro his hread s
    obtain ⟨hi, his⟩ := List.forall_mem_cons.mp his
    obtain ⟨⟨hpass, hcut⟩, hread⟩ := List.forall_mem_cons.mp hread
    have hrest := ih his hread
    rw [findNeeded_cons hv hi, if_neg (by simp [hpass])]
    cases hneed : symNeeded elf i with
    | false =>
      obtain ⟨s', hs', hcount, hvis, hcrcs⟩ := hrest s
      rw [List.filter_cons_of_neg (by simp [hneed])]
      refine ⟨s', by rw [if_pos rfl, hs'], hcount, ?_, hcrcs⟩
      intro j
      rw [hvis j]
      simp [versionVisited, hneed]
    | true =>
      rw [if_neg (by simp), crcFind_ok hv (hcut hneed), ok_bind]
      obtain ⟨s', hs', hcount, hvis, hcrcs⟩ := hrest ⟨s.count + 1,
        if symVersion elf i ≥ 0 then (symVersion elf i).toNat :: s.visited else s.visited,
        (i, symCrc elf i) :: s.symcrcs⟩
      rw [List.filter_cons_of_pos hneed]
      refine ⟨s', hs', ?_, ?_, ?_⟩
      · rw [hcount, List.length_cons]
        dsimp only
        omega
      · intro j
        have hhead : j ∈ (if symVersion elf i ≥ 0 then (symVersion elf i).toNat :: s.visited
            else s.visited) ↔ j ∈ s.visited ∨ symVersion elf i = j := by
          split
          · next hidx =>
            have hnat : j = (symVersion elf i).toNat ↔ symVersion elf i = j := by omega
            rw [List.mem_cons, or_comm, hnat]
          · next hidx =>
            rw [eq_false (show ¬ symVersion elf i = j by omega), or_false]
        rw [hvis j]
        dsimp only
        rw [hhead]
        simp [versionVisited, hneed, or_assoc]
      · rw [hcrcs]
        simp

/-- The first loop ends at a name that is not in `.strtab`. -/
theorem findNeeded_none : ∀ is, (∀ i ∈ is, i ∈ symIndexes elf) →
    (∀ i ∈ is.takeWhile (symPassed elf), symNeeded elf i = true → symCut elf i = false) →
    (∃ i ∈ is, symPassed elf i = false) → ∀ s,
      findNeeded elf (neededVersions elf).offset ((neededVersions elf).size / verlen) is s =
        .ok none := by
  intro is
  induction is with
  | nil => intro _ _ ⟨i, hi, _⟩; cases hi
  | cons i is ih =>
    intro his hcut ⟨j, hj, hstop⟩ s
    obtain ⟨hi, his⟩ := List.forall_mem_cons.mp his
    rw [findNeeded_cons hv hi]
    cases hpass : symPassed elf i with
    | false => exact if_pos rfl
    | true =>
      rw [List.takeWhile_cons_of_pos hpass, List.forall_mem_cons] at hcut
      have hlater : ∃ j ∈ is, symPassed elf j = false := by
        rcases List.mem_cons.mp hj with rfl | hj
        · rw [hpass] at hstop
          cases hstop
        · exact ⟨j, hj, hstop⟩
      have hrest := ih his hcut.2 hlater
      rw [if_neg (by simp)]
      cases hneed : symNeeded elf i with
      | false =>
        rw [if_pos rfl]
        exact hrest s
      | true =>
        rw [if_neg (by simp), crcFind_ok hv (hcut.1 hneed), ok_bind]
        exact hrest _

/-- The first loop leaves the file. -/
theorem findNeeded_fault : ∀ is, (∀ i ∈ is, i ∈ symIndexes elf) →
    (∃ i ∈ is.takeWhile (symPassed elf), symNeeded elf i = true ∧ symCut elf i = true) → ∀ s,
      ∃ f, findNeeded elf (neededVersions elf).offset ((neededVersions elf).size / verlen) is s =
        .error f := by
  intro is
  induction is with
  | nil => intro _ ⟨i, hi, _⟩; cases hi
  | cons i is ih =>
    intro his ⟨j, hj, hneedj, hcutj⟩ s
    obtain ⟨hi, his⟩ := List.forall_mem_cons.mp his
    have hrest := ih his
    rw [findNeeded_cons hv hi]
    cases hpass : symPassed elf i with
    | false => simp [hpass] at hj
    | true =>
      rw [List.takeWhile_cons_of_pos hpass] at hj
      rw [if_neg (by simp)]
      cases hneed : symNeeded elf i with
      | false =>
        rw [if_pos rfl]
        rcases List.mem_cons.mp hj with rfl | hj
        · rw [hneed] at hneedj
          cases hneedj
        · exact hrest ⟨j, hj, hneedj, hcutj⟩ s
      | true =>
        rw [if_neg (by simp)]
        cases hcut : symCut elf i with
        | true =>
          obtain ⟨f, hf⟩ := crcFind_fault hv hcut
          rw [hf, error_bind]
          exact ⟨f, rfl⟩
        | false =>
          rw [crcFind_ok hv hcut, ok_bind]
          rcases List.mem_cons.mp hj with rfl | hj
          · rw [hcut] at hcutj
            cases hcutj
          · exact hrest ⟨j, hj, hneedj, hcutj⟩ _

/-- The versions that no symbol visits are counted, if their names end. -/
theorem countUnvisited_eq (visited : List Nat) : ∀ js, (∀ j ∈ js, j ∈ verIndexes elf) → ∀ count,
    countUnvisited elf (neededVersions elf).offset visited js count =
      .ok (if ∀ j ∈ js, j ∉ visited → versionTerminated elf (neededVersions elf) j = true then
        some (count + (js.filter (fun j => decide (j ∉ visited))).length) else none) := by
  intro js
  induction js with
  | nil => intro _ count; simp [countUnvisited]
  | cons j js ih =>
    intro hjs count
    obtain ⟨hj, hjs⟩ := List.forall_mem_cons.mp hjs
    have hrest := ih hjs
    have hj := List.mem_range.mp hj
    unfold countUnvisited
    by_cases hvis : j ∈ visited
    · rw [if_pos hvis, hrest]
      simp [hvis]
    · obtain ⟨n, hn, hterm⟩ := version_strnlen hv.toSized hv.neededVersions_inFile hj
      rw [if_neg hvis, hn, ok_bind]
      cases ht : versionTerminated elf (neededVersions elf) j with
      | false =>
        rw [if_pos (hterm.mpr ht)]
        simp [hvis, ht]
      | true =>
        rw [if_neg (by rw [hterm, ht]; simp), hrest]
        simp [hvis, ht, Nat.add_assoc, Nat.add_comm 1]

/-- The symbols are returned, whether their names end or not. -/
theorem storeNeeded_eq {symcrcs : List (Nat × Nat)} : ∀ is, (∀ i ∈ is, i ∈ symIndexes elf) →
    (∀ i ∈ is, symPassed elf i = true) →
    (∀ i ∈ is, symNeeded elf i = true → symcrcs.lookup i = some (symCrc elf i)) → ∀ a,
      storeNeeded elf symcrcs is a =
        .ok (a ++ (is.filter (symNeeded elf)).map (neededSymbol elf)) := by
  intro is
  induction is with
  | nil => intro _ _ _ a; simp [storeNeeded]
  | cons i is ih =>
    intro his hpass hcrcs a
    obtain ⟨hi, his⟩ := List.forall_mem_cons.mp his
    obtain ⟨hp, hpass⟩ := List.forall_mem_cons.mp hpass
    obtain ⟨hcrc, hcrcs⟩ := List.forall_mem_cons.mp hcrcs
    have hrest := ih his hpass hcrcs
    rw [storeNeeded, readv_sym hv hi stName_within, ok_bind, readv_sym hv hi stShndx_within,
      ok_bind, readv_sym hv hi stInfo_within, ok_bind]
    change (if symUndefined elf i = false then _ else _) = _
    unfold symPassed at hp
    cases hu : symUndefined elf i with
    | false =>
      rw [if_pos rfl, List.filter_cons_of_neg (by simp [symNeeded, hu])]
      exact hrest a
    | true =>
      rw [hu, Bool.not_true, Bool.false_or] at hp
      obtain ⟨c, hc, hnul⟩ := first_char hv hp
      rw [if_neg (by simp), hc, inBlock_some, ok_bind]
      by_cases hc0 : c = 0
      · rw [if_pos hc0, List.filter_cons_of_neg (by simp [symNeeded, hnul.mp hc0])]
        exact hrest a
      · have hhead : (symTail elf i).head? ≠ some 0 := fun h => hc0 (hnul.mpr h)
        have hneed : symNeeded elf i = true := by simp [symNeeded, hu, hhead]
        rw [if_neg hc0, List.filter_cons_of_pos hneed, (symName_eq hv hp).1, hcrc hneed]
        dsimp only
        rw [hrest, List.append_assoc]
        rfl

theorem storeUnvisited_eq (visited : List Nat) : ∀ js, (∀ j ∈ js, j ∈ verIndexes elf) → ∀ a,
    storeUnvisited elf (neededVersions elf).offset visited js a =
      .ok (a ++ (js.filter (fun j => decide (j ∉ visited))).map (versionSymbol elf)) := by
  intro js
  induction js with
  | nil => intro _ a; simp [storeUnvisited]
  | cons j js ih =>
    intro hjs a
    obtain ⟨hj, hjs⟩ := List.forall_mem_cons.mp hjs
    have hrest := ih hjs
    have hj := List.mem_range.mp hj
    unfold storeUnvisited
    by_cases hvis : j ∈ visited
    · rw [if_pos hvis, List.filter_cons_of_neg (by simp [hvis])]
      exact hrest a
    · rw [if_neg hvis, version_crc hv.toSized hv.neededVersions_inFile hj, ok_bind,
        (version_u64 hv.toSized hv.neededVersions_inFile hj).2,
        List.filter_cons_of_pos (by simp [hvis]), hrest, List.append_assoc]
      rfl

end Needed

/-- The versions that are not visited. -/
def unvisitedVersions (elf : KmodElf) : List Nat :=
  (verIndexes elf).filter (fun j => !versionVisited elf (symIndexes elf) j)

/-- The list of visited versions, whatever the order in it, leaves the same versions. -/
theorem filter_not_visited {elf : KmodElf} {visited : List Nat}
    (h : ∀ j, j ∈ visited ↔ versionVisited elf (symIndexes elf) j = true) :
    (verIndexes elf).filter (fun j => decide (j ∉ visited)) = unvisitedVersions elf := by
  unfold unvisitedVersions
  refine List.filter_congr ?_
  intro j _
  rw [← Bool.coe_iff_coe, decide_eq_true_eq, h j]
  simp

/-- What is returned: the needed symbols, and the versions that are not visited. -/
def dependencySymbols (elf : KmodElf) : List KmodModversion :=
  ((symIndexes elf).filter (symNeeded elf)).map (neededSymbol elf) ++
    (unvisitedVersions elf).map (versionSymbol elf)

/-- The CRC that was stored for a symbol. -/
theorem lookup_crcs {elf : KmodElf} {is : List Nat} {i : Nat} (hi : i ∈ is) :
    ((is.map fun i => (i, symCrc elf i)).reverse).lookup i = some (symCrc elf i) := by
  rw [← List.map_reverse]
  replace hi := List.mem_reverse.mpr hi
  generalize is.reverse = ks at hi ⊢
  induction ks with
  | nil => cases hi
  | cons k ks ih =>
    rw [List.map_cons, List.lookup_cons]
    by_cases hk : i = k
    · rw [hk, beq_self_eq_true]
    · rw [beq_false_of_ne hk]
      exact ih ((List.mem_cons.mp hi).resolve_left hk)

/--
The names of all symbols are in `.strtab`, those of the unvisited versions end, and there are
not too many.
-/
structure DependenciesAccepted (elf : KmodElf) : Prop where
  passed : ∀ i ∈ symIndexes elf, symPassed elf i = true
  versions : ∀ j ∈ unvisitedVersions elf, versionTerminated elf (neededVersions elf) j = true
  few : ((symIndexes elf).filter (symNeeded elf)).length + (unvisitedVersions elf).length ≤ INT_MAX

/--
The names of needed symbols can be compared with those of the versions, up to the first one
that is not in `.strtab`; and if the symbols are accepted, their names end.
-/
structure DependenciesReadable (elf : KmodElf) : Prop where
  uncut : hasSymtab elf = true → ∀ i ∈ (symIndexes elf).takeWhile (symPassed elf),
    symNeeded elf i = true → symCut elf i = false
  terminated : hasSymtab elf = true → DependenciesAccepted elf →
    ∀ i ∈ symIndexes elf, symNeeded elf i = true → 0 ∈ symTail elf i

section Dependencies

variable {elf : KmodElf} (hv : elf.Valid) (htab : hasSymtab elf = true)
  (huncut : ∀ i ∈ (symIndexes elf).takeWhile (symPassed elf),
    symNeeded elf i = true → symCut elf i = false)

include hv htab huncut

/--
An allocation fails, or the symbols are not accepted, or they are returned: the needed
symbols and the versions that none of them visits.
-/
theorem kmodElfGetDependencySymbols_eq (malloc : Nat → Bool) :
    ((∃ k, malloc k = false) ∧ kmodElfGetDependencySymbols malloc elf = .ok (.error (-ENOMEM))) ∨
    (¬ DependenciesAccepted elf ∧
      kmodElfGetDependencySymbols malloc elf = .ok (.error (-EINVAL))) ∨
    (DependenciesAccepted elf ∧
      kmodElfGetDependencySymbols malloc elf = .ok (.ok (dependencySymbols elf))) := by
  unfold kmodElfGetDependencySymbols
  dsimp only
  rw [if_neg (by simp [htab])]
  split
  · next hmalloc => exact .inl ⟨⟨0, hmalloc.2⟩, rfl⟩
  · split
    · next hmalloc => exact .inl ⟨⟨1, hmalloc⟩, rfl⟩
    · by_cases hpass : ∀ i ∈ symIndexes elf, symPassed elf i = true
      · have hread := forall_of_takeWhile hpass huncut
        obtain ⟨s, hs, hcount, hvis, hcrcs⟩ :=
          findNeeded_ok hv (symIndexes elf) (fun _ hi => hi) hread ⟨0, [], []⟩
        have hvisited : ∀ j, j ∈ s.visited ↔ versionVisited elf (symIndexes elf) j = true := by
          intro j
          rw [hvis j]
          simp
        have hfilter := filter_not_visited hvisited
        have hterm : (∀ j ∈ verIndexes elf, j ∉ s.visited →
            versionTerminated elf (neededVersions elf) j = true) ↔
            ∀ j ∈ unvisitedVersions elf, versionTerminated elf (neededVersions elf) j = true := by
          rw [← hfilter]
          simp only [List.mem_filter, decide_eq_true_eq, and_imp]
        rw [hs, ok_bind]
        dsimp only
        rw [show List.range ((neededVersions elf).size / verlen) = verIndexes elf from rfl,
          countUnvisited_eq hv _ _ (fun _ hj => hj), ok_bind, hfilter, hcount, Nat.zero_add]
        by_cases hall : ∀ j ∈ unvisitedVersions elf,
            versionTerminated elf (neededVersions elf) j = true
        · rw [if_pos (hterm.mpr hall)]
          dsimp only
          split
          · next hmany => exact .inr (.inl ⟨fun h => absurd h.few (by omega), rfl⟩)
          · next hfew =>
            have haccepted : DependenciesAccepted elf := ⟨hpass, hall, by omega⟩
            split
            · next hzero =>
              refine .inr (.inr ⟨haccepted, ?_⟩)
              unfold dependencySymbols
              rw [List.length_eq_zero_iff.mp (by omega : (unvisitedVersions elf).length = 0),
                List.length_eq_zero_iff.mp
                  (by omega : ((symIndexes elf).filter (symNeeded elf)).length = 0)]
              rfl
            · split
              · next hmalloc => exact .inl ⟨⟨2, hmalloc⟩, rfl⟩
              · rw [List.append_nil] at hcrcs
                rw [storeNeeded_eq hv (symIndexes elf) (fun _ hi => hi) hpass
                  (fun i hi hneed => hcrcs ▸ lookup_crcs (List.mem_filter.mpr ⟨hi, hneed⟩)) [],
                  ok_bind, storeUnvisited_eq hv s.visited (verIndexes elf)
                    (fun _ hj => hj), ok_bind,
                  hfilter]
                exact .inr (.inr ⟨haccepted, rfl⟩)
        · rw [if_neg (fun h => hall (hterm.mp h))]
          exact .inr (.inl ⟨fun h => absurd h.versions hall, rfl⟩)
      · rw [findNeeded_none hv (symIndexes elf) (fun _ hi => hi) huncut (by simpa using hpass),
          ok_bind]
        exact .inr (.inl ⟨fun h => absurd h.passed hpass, rfl⟩)

end Dependencies

theorem kmodElfGetDependencySymbols_safe {elf : KmodElf} (hv : elf.Valid)
    (h : DependenciesReadable elf) (malloc : Nat → Bool) :
    NamesSafe elf.memory (kmodElfGetDependencySymbols malloc elf) := by
  cases htab : hasSymtab elf with
  | false =>
    unfold kmodElfGetDependencySymbols
    dsimp only
    rw [if_pos htab]
    exact namesSafe_error _ _
  | true =>
    rcases kmodElfGetDependencySymbols_eq hv htab (h.uncut htab) malloc with
      ⟨_, herr⟩ | ⟨_, herr⟩ | ⟨haccepted, ha⟩
    · rw [herr]
      exact namesSafe_error _ _
    · rw [herr]
      exact namesSafe_error _ _
    · rw [ha, namesSafe_ok]
      intro m hm
      rcases List.mem_append.mp hm with hm | hm
      · obtain ⟨i, hi, rfl⟩ := List.mem_map.mp hm
        obtain ⟨hi, hneed⟩ := List.mem_filter.mp hi
        exact h.terminated htab haccepted i hi hneed
      · obtain ⟨j, hj, rfl⟩ := List.mem_map.mp hm
        exact nul_mem_of_versionTerminated (haccepted.versions j hj)

theorem dependenciesReadable_of_safe {elf : KmodElf} (hv : elf.Valid)
    (h : NamesSafe elf.memory (kmodElfGetDependencySymbols (fun _ => true) elf)) :
    DependenciesReadable elf := by
  have huncut : hasSymtab elf = true → ∀ i ∈ (symIndexes elf).takeWhile (symPassed elf),
      symNeeded elf i = true → symCut elf i = false := by
    intro htab i hi hneed
    by_contra hcut
    rw [Bool.not_eq_false] at hcut
    obtain ⟨f, hf⟩ := findNeeded_fault hv (symIndexes elf) (fun _ hi => hi) ⟨i, hi, hneed, hcut⟩
      ⟨0, [], []⟩
    unfold kmodElfGetDependencySymbols at h
    dsimp only at h
    rw [if_neg (by simp [htab]), if_neg (by simp), if_neg (by simp), hf, error_bind] at h
    exact not_namesSafe_fault _ _ h
  refine ⟨huncut, ?_⟩
  intro htab haccepted i hi hneed
  rcases kmodElfGetDependencySymbols_eq hv htab (huncut htab) (fun _ => true) with
    ⟨⟨k, hk⟩, _⟩ | ⟨hrefused, _⟩ | ⟨_, ha⟩
  · cases hk
  · exact absurd haccepted hrefused
  · rw [ha, namesSafe_ok] at h
    refine h (neededSymbol elf i) ?_
    exact List.mem_append_left _ (List.mem_map_of_mem (List.mem_filter.mpr ⟨hi, hneed⟩))

/-! ## The build id -/

/-- The note has the type of a build id, and the file does not end in the middle of its name. -/
def BuildIdReadable (elf : KmodElf) : Prop :=
  let sec := elf.sections .buildId
  let u32 := fun off => uintOf elf.msb (bytesAt elf.memory (sec.offset + off) 4)
  sec.offset ≠ 0 → 12 ≤ sec.size → 12 + u32 0 + u32 4 ≤ sec.size → u32 8 = NT_GNU_BUILD_ID →
    ¬ elf.memory.drop (sec.offset + 12) <+: cstr "GNU"

theorem uintOf_four_lt (msb : Bool) (mem : List UInt8) (off : Nat) :
    uintOf msb (bytesAt mem off 4) < 4294967296 := by
  calc uintOf msb (bytesAt mem off 4)
      < 256 ^ (bytesAt mem off 4).length := uintOf_lt msb _
    _ ≤ 256 ^ 4 := Nat.pow_le_pow_right (by decide) (length_bytesAt_le mem off 4)
    _ = 4294967296 := rfl

theorem kmodElfGetBuildId_iff {elf : KmodElf} (hv : elf.Valid) :
    (∃ r, kmodElfGetBuildId elf = .ok r) ↔ BuildIdReadable elf := by
  have hsec := hv.sections_inFile .buildId
  have hle := hv.le
  have hlt := hv.lt
  unfold kmodElfGetBuildId BuildIdReadable
  simp only [Nat.add_zero]
  split
  · next hnone => exact ⟨fun _ h0 h12 => by omega, fun _ => ⟨_, rfl⟩⟩
  · next hsome =>
    split
    · next hsmall => exact ⟨fun _ h0 h12 => by omega, fun _ => ⟨_, rfl⟩⟩
    · next h12 =>
      have hname := uintOf_four_lt elf.msb elf.memory (elf.sections .buildId).offset
      have hdesc := uintOf_four_lt elf.msb elf.memory ((elf.sections .buildId).offset + 4)
      rw [u64_of_lt (by omega), u64_of_lt (by omega), u64_of_lt (by omega),
        elfGetUint_eq (by omega) (by omega), ok_bind, elfGetUint_eq (by omega) (by omega), ok_bind,
        elfGetUint_eq (by omega) (by omega), ok_bind, u64_of_lt (by omega)]
      split
      · next hbig => exact ⟨fun _ _ _ hin => by omega, fun _ => ⟨_, rfl⟩⟩
      · next hin =>
        split
        · next htype => exact ⟨fun _ _ _ _ h => absurd h htype, fun _ => ⟨_, rfl⟩⟩
        · next htype =>
          rw [not_not] at htype
          unfold streqAt
          have hnone := streqTails_eq_none (show 0 ∉ cstr "GNU" by decide) []
            (elf.memory.drop ((elf.sections .buildId).offset + 12))
          cases heq : streqTails (cstr "GNU" ++ [0])
              (elf.memory.drop ((elf.sections .buildId).offset + 12)) with
          | none =>
            refine ⟨fun ⟨r, hr⟩ => (by cases hr), fun h => ?_⟩
            exact absurd (hnone.mp heq) (h (by omega) (by omega) (by omega) htype)
          | some eq =>
            refine ⟨fun _ _ _ _ _ hpre => ?_, fun _ => ?_⟩
            · rw [hnone.mpr hpre] at heq
              cases heq
            · cases eq with
              | false => exact ⟨_, rfl⟩
              | true => exact ⟨_, rfl⟩

/-! ## All accessors -/

/--
**When the accessors stay inside the file.** For a file that was opened, and whatever
allocations fail: the accessors have a result and the names they return end in the file,
just if the symbols, the needed symbols and the build id are readable.
-/
theorem accessors_safe_iff {allocated : Bool} {memory : List UInt8} {elf : KmodElf}
    (h : kmodElfNew allocated memory = .ok (.ok elf)) :
    ((∀ malloc, NamesSafe memory (kmodElfGetModversions malloc elf)) ∧
      (∀ malloc, NamesSafe memory (kmodElfGetSymbols malloc elf)) ∧
      (∀ malloc, NamesSafe memory (kmodElfGetDependencySymbols malloc elf)) ∧
      ∃ r, kmodElfGetBuildId elf = .ok r) ↔
    SymbolsReadable elf ∧ DependenciesReadable elf ∧ BuildIdReadable elf := by
  obtain ⟨hv, hmem⟩ := valid_of_kmodElfNew h
  rw [← hmem, kmodElfGetBuildId_iff hv]
  refine ⟨?_, ?_⟩
  · intro ⟨_, hsyms, hdeps, hid⟩
    exact ⟨symbolsReadable_of_safe hv (hsyms _), dependenciesReadable_of_safe hv (hdeps _), hid⟩
  · intro ⟨hsyms, hdeps, hid⟩
    exact ⟨kmodElfGetModversions_safe hv, kmodElfGetSymbols_safe hv hsyms,
      kmodElfGetDependencySymbols_safe hv hdeps, hid⟩

/-- A section header for the 32-bit class. -/
def sectionHeader32 (name offset size : UInt8) : List UInt8 :=
  [name, 0, 0, 0] ++ List.replicate 12 0 ++ [offset, 0, 0, 0, size, 0, 0, 0] ++ List.replicate 16 0

/-- A file with a symbol `__crc_a`, whose section index is `0xff00 + shndx`. -/
def crcFile (shndx : UInt8) : List UInt8 :=
  [0x7f, 0x45, 0x4c, 0x46, 1, 1] ++ List.replicate 26 0 ++ [52, 0, 0, 0] ++ List.replicate 10 0 ++
    [40, 0, 4, 0, 1, 0] ++
  List.replicate 40 0 ++ sectionHeader32 0 212 17 ++ sectionHeader32 1 229 9 ++
    sectionHeader32 9 238 32 ++
  (0 :: cstr ".strtab" ++ 0 :: cstr ".symtab" ++ [0]) ++ (0 :: cstr "__crc_a" ++ [0]) ++
  List.replicate 16 0 ++ ([1, 0, 0, 0] ++ List.replicate 8 0 ++ [16, 0, shndx, 0xff])

/-- The same file, opened. -/
def crcElf (shndx : UInt8) : KmodElf :=
  { memory := crcFile shndx, size := 270, x32 := true, msb := false, sectionOffset := 52,
    sectionCount := 4, sectionEntrySize := 40, stringsSection := 1, stringsSize := 17,
    stringsOffset := 212, machine := 0, found := [(.symtab, ⟨238, 32⟩), (.strtab, ⟨229, 9⟩)] }

/-- With `SHN_ABS` all is well. -/
theorem accessors_safe_abs :
    kmodElfNew true (crcFile 0xf1) = .ok (.ok (crcElf 0xf1)) ∧
    (∀ malloc, NamesSafe (crcFile 0xf1) (kmodElfGetModversions malloc (crcElf 0xf1))) ∧
    (∀ malloc, NamesSafe (crcFile 0xf1) (kmodElfGetSymbols malloc (crcElf 0xf1))) ∧
    (∀ malloc, NamesSafe (crcFile 0xf1) (kmodElfGetDependencySymbols malloc (crcElf 0xf1))) ∧
    ∃ r, kmodElfGetBuildId (crcElf 0xf1) = .ok r := by
  have hnew : kmodElfNew true (crcFile 0xf1) = .ok (.ok (crcElf 0xf1)) := by decide +kernel
  refine ⟨hnew, (accessors_safe_iff hnew).mpr ⟨⟨?_, ?_⟩, ⟨?_, ?_⟩, fun h => absurd rfl h⟩⟩
  · decide +kernel
  · decide +kernel
  · decide +kernel
  · intro _ _
    decide +kernel

/-- With `SHN_COMMON` the index is that of no section, and an assertion fails. -/
theorem accessors_fail_common :
    kmodElfNew true (crcFile 0xf2) = .ok (.ok (crcElf 0xf2)) ∧
      kmodElfGetSymbols (fun _ => true) (crcElf 0xf2) = .error .assertFailed := by
  decide +kernel

end Kmod
