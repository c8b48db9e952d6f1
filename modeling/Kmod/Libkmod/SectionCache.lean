import Kmod.Libkmod.ElfStrip

/-!
# The sections that are noted when a file is opened

`kmod_elf_save_sections` goes over the section headers once, when the file is opened, and
notes where the six sections lie that libkmod needs; it stops when it has them all.
`kmod_elf_get_section` looks for one name and starts from the first header each time. Both
pass over the headers that are refused and take the first of several sections with a name,
so what was noted is what the search finds.

`kmod_elf_strip` goes by the search and `kmod_elf_get_modversions` by the note. So the
header that the one changes is that of the section that the other reads.
-/

namespace Kmod

open Kmod.Memory Kmod.ByteScan

/-! ## The first section with a name -/

/-- Where the header of a section says that it lies. -/
def sectionRange (elf : KmodElf) (i : Nat) : SectionRange :=
  match elfGetSectionInfo toLocals elf i with
  | .ok (.ok (_, info)) => ⟨info.offset, info.size⟩
  | _ => ⟨0, 0⟩

/-- Where the first of some sections lies that has a name. -/
def firstRange (elf : KmodElf) (name : CStr) (is : List Nat) : Option SectionRange :=
  (is.find? (sectionNamed elf name)).map (sectionRange elf)

theorem sectionNameMap_injective : Function.Injective sectionNameMap := by
  intro a b h
  cases a <;> cases b <;> first | rfl | exact absurd h (by decide)

section Header

variable {elf : KmodElf} {i : Nat}

theorem sectionNamed_of_error {err : Int} (h : elfGetSectionInfo toLocals elf i = .ok (.error err))
    (name : CStr) : sectionNamed elf name i = false := by
  unfold sectionNamed
  rw [h]

theorem sectionNamed_of_ok {info : SectionInfo}
    (h : elfGetSectionInfo toLocals elf i = .ok (.ok (elf, info))) (name : CStr) :
    sectionNamed elf name i = decide (front (elf.memory.drop info.name) = name) := by
  unfold sectionNamed
  rw [h]

theorem sectionRange_of_ok {info : SectionInfo}
    (h : elfGetSectionInfo toLocals elf i = .ok (.ok (elf, info))) :
    sectionRange elf i = ⟨info.offset, info.size⟩ := by
  unfold sectionRange
  rw [h]

/-- The next section is the first one with the name, or it does not matter. -/
theorem firstRange_cons (elf : KmodElf) (name : CStr) (i : Nat) (is : List Nat) :
    firstRange elf name (i :: is) =
      if sectionNamed elf name i = true then some (sectionRange elf i)
      else firstRange elf name is := by
  unfold firstRange
  rw [List.find?_cons]
  cases sectionNamed elf name i <;> rfl

end Header

/-! ## One sweep over the headers -/

/-- The inner loop finds the section that has the name, unless it was found before. -/
theorem matchSection_eq {memory : List UInt8} {name : Nat} (hname : 0 ∈ memory.drop name)
    (found secs : List KmodElfSection) :
    matchSection memory name found secs = .ok (secs.find? (fun sec =>
      decide (sec ∉ found) && decide (front (memory.drop name) = sectionNameMap sec))) := by
  induction secs with
  | nil => rfl
  | cons sec secs ih =>
    rw [matchSection, List.find?_cons]
    by_cases hin : sec ∈ found
    · rw [if_pos hin, ih, decide_eq_false (not_not.mpr hin), Bool.false_and]
    · unfold streqAt
      rw [if_neg hin, streqTails_eq (nul_not_mem_sectionNameMap sec) [] hname, inBlock_some,
        ok_bind, decide_eq_true hin, Bool.true_and]
      cases decide (front (memory.drop name) = sectionNameMap sec) with
      | true => rfl
      | false => exact ih

theorem mem_kmodElfSections (sec : KmodElfSection) : sec ∈ kmodElfSections := by
  cases sec <;> decide

/-- What is not among the names of a list of pairs cannot be looked up. -/
theorem lookup_none_iff {found : List (KmodElfSection × SectionRange)} {sec : KmodElfSection} :
    found.lookup sec = none ↔ sec ∉ found.map Prod.fst := by
  rw [List.lookup_eq_none_iff, List.mem_map]
  refine ⟨fun h ⟨e, he, heq⟩ => ?_, fun h e he => ?_⟩
  · have hne := h e he
    rw [heq] at hne
    simp at hne
  · exact bne_iff_ne.mpr (fun heq => h ⟨e, he, heq.symm⟩)

/-- One section is noted under its name, if that is one of the six and has not been found. -/
theorem lookup_noted {found : List (KmodElfSection × SectionRange)} {name : CStr}
    {which : Option KmodElfSection} (hfind : kmodElfSections.find? (fun sec =>
      decide (sec ∉ found.map Prod.fst) && decide (name = sectionNameMap sec)) = which)
    (range : SectionRange) (sec : KmodElfSection) :
    ((which.map (fun sec => (sec, range))).toList ++ found).lookup sec =
      (found.lookup sec).or (if name = sectionNameMap sec then some range else none) := by
  cases which with
  | none =>
    cases hlook : found.lookup sec with
    | some r => exact hlook.trans (Option.some_or ..).symm
    | none =>
      -- it would have been found here
      have hnot := List.find?_eq_none.mp hfind sec (mem_kmodElfSections sec)
      have hne : name ≠ sectionNameMap sec := by
        simpa only [lookup_none_iff.mp hlook, not_false_eq_true, decide_true, Bool.true_and,
          decide_eq_true_eq] using hnot
      rw [if_neg hne]
      exact hlook
  | some sec₀ =>
    have hsec₀ := List.find?_some hfind
    rw [Bool.and_eq_true, decide_eq_true_eq, decide_eq_true_eq] at hsec₀
    obtain ⟨hnew, rfl⟩ := hsec₀
    show ((sec₀, range) :: found).lookup sec = _
    rw [List.lookup_cons]
    by_cases hsec : sec = sec₀
    · subst hsec
      rw [lookup_none_iff.mpr hnew, beq_self_eq_true, if_pos rfl]
      rfl
    · have hne : sectionNameMap sec₀ ≠ sectionNameMap sec :=
        fun heq => hsec (sectionNameMap_injective heq).symm
      rw [beq_eq_false_iff_ne.mpr hsec, if_neg hne, Option.or_none]

/--
**The sweep** from some section on adds, for each name that has not been found, the first
section there is.
-/
theorem kmodElfSaveSections_lookup {elf : KmodElf} (hv : elf.Valid) :
    ∀ is, (∀ i ∈ is, 1 ≤ i ∧ i < elf.sectionCount) → ∀ found found',
      kmodElfSaveSections elf is found = .ok found' → ∀ sec, found'.lookup sec =
        (found.lookup sec).or (firstRange elf (sectionNameMap sec) is) := by
  intro is
  induction is with
  | nil =>
    intro _ found found' h sec
    cases h
    exact (Option.or_none ..).symm
  | cons i is ih =>
    intro his found found' h sec
    obtain ⟨⟨h1, hcount⟩, his⟩ := List.forall_mem_cons.mp his
    have hrest := fun found₁ h₁ => ih his found₁ found' h₁ sec
    rw [kmodElfSaveSections] at h
    split at h
    · next hall =>
      -- all names have been found, and the sweep ends here
      cases h
      obtain ⟨r, hr⟩ := Option.ne_none_iff_exists'.mp
        (fun hnone => lookup_none_iff.mp hnone (hall sec (mem_kmodElfSections sec)))
      rw [hr, Option.some_or]
    · rw [firstRange_cons]
      rcases hv.sectionInfo_cases h1 hcount with ⟨e, hr⟩ | ⟨info, hr, hterm⟩
      · rw [hr, ok_bind] at h
        rw [sectionNamed_of_error hr, hrest found h]
        rfl
      · rw [hr, ok_bind] at h
        dsimp only at h
        rw [matchSection_eq hterm, ok_bind] at h
        rw [sectionNamed_of_ok hr, sectionRange_of_ok hr]
        generalize hfind : kmodElfSections.find? _ = which at h
        have hnoted := lookup_noted hfind ⟨info.offset, info.size⟩ sec
        have hfound : found'.lookup sec = (((which.map (fun sec =>
            (sec, (⟨info.offset, info.size⟩ : SectionRange)))).toList ++ found).lookup sec).or
              (firstRange elf (sectionNameMap sec) is) := by
          cases which with
          | none => exact hrest _ h
          | some sec₀ => exact hrest _ h
        rw [hfound, hnoted, Option.or_assoc]
        by_cases hname : front (elf.memory.drop info.name) = sectionNameMap sec
        · rw [if_pos hname, if_pos (decide_eq_true hname), Option.some_or]
        · rw [if_neg hname, if_neg (by simpa using hname), Option.none_or]

/-! ## The note in an opened file -/

/-- What was found says nothing about the headers. -/
theorem elfGetSectionInfo_withFound (elf : KmodElf) (found : List (KmodElfSection × SectionRange))
    (i : Nat) : elfGetSectionInfo toLocals { elf with found } i =
      (elfGetSectionInfo toLocals elf i).map (Except.map (fun p => ({ elf with found }, p.2))) := by
  unfold elfGetSectionInfo
  rw [show elfGetSectionHeaderOffset { elf with found } i = elfGetSectionHeaderOffset elf i
    from rfl]
  cases elfGetSectionHeaderOffset elf i with
  | error e => rfl
  | ok off =>
    simp only [ok_bind,
      show ∀ a b, elfRangeValid { elf with found } a b = elfRangeValid elf a b from fun _ _ => rfl,
      show ∀ a f, readv { elf with found } a f = readv elf a f from fun _ _ => rfl]
    split
    · rfl
    · split
      · rfl
      · cases readv elf off shSize with
        | error e => rfl
        | ok size =>
          cases readv elf off shOffset with
          | error e => rfl
          | ok offset =>
            cases readv elf off shName with
            | error e => rfl
            | ok nameoff =>
              simp only [ok_bind]
              by_cases hrange : elfRangeValid elf offset size = false
              · rw [if_pos (show elfRangeValid (toLocals { elf with found } size offset) offset size
                    = false from hrange),
                  if_pos (show elfRangeValid (toLocals elf size offset) offset size = false
                    from hrange)]
                rfl
              · rw [if_neg (show ¬ elfRangeValid (toLocals { elf with found } size offset) offset
                    size = false from hrange),
                  if_neg (show ¬ elfRangeValid (toLocals elf size offset) offset size = false
                    from hrange)]
                by_cases hname : nameoff ≥ elf.stringsSize
                · rw [if_pos (show nameoff ≥ (toLocals { elf with found } size offset).stringsSize
                      from hname), if_pos (show nameoff ≥ (toLocals elf size offset).stringsSize
                      from hname)]
                  rfl
                · rw [if_neg (show ¬ nameoff ≥ (toLocals { elf with found } size offset).stringsSize
                      from hname), if_neg (show ¬ nameoff ≥ (toLocals elf size offset).stringsSize
                      from hname)]
                  rfl

theorem kmodElfSaveSections_withFound (elf : KmodElf)
    (found : List (KmodElfSection × SectionRange)) :
    ∀ is acc, kmodElfSaveSections { elf with found } is acc = kmodElfSaveSections elf is acc := by
  intro is
  induction is with
  | nil => exact fun _ => rfl
  | cons i is ih =>
    intro acc
    unfold kmodElfSaveSections
    rw [elfGetSectionInfo_withFound]
    simp only [ih]
    cases elfGetSectionInfo toLocals elf i with
    | error e => rfl
    | ok r => cases r <;> rfl

/-- A file that was opened has been swept. -/
theorem kmodElfOpen_found {elf elf' : KmodElf} (h : kmodElfOpen elf = .ok (.ok elf')) :
    kmodElfSaveSections elf' (List.range' 1 (elf'.sectionCount - 1)) [] = .ok elf'.found := by
  unfold kmodElfOpen at h
  split at h
  · cases h
  · split at h
    · cases h
    · obtain ⟨r, _, h⟩ := ok_of_bind h
      cases r with
      | error e => cases h
      | ok p =>
        dsimp only at h
        split at h
        · cases h
        · obtain ⟨last, _, h⟩ := ok_of_bind h
          split at h
          · cases h
          · obtain ⟨found, hsave, h⟩ := ok_of_bind h
            cases h
            exact (kmodElfSaveSections_withFound p.1 found _ _).trans hsave

theorem found_of_kmodElfNew {allocated : Bool} {memory : List UInt8} {elf : KmodElf}
    (h : kmodElfNew allocated memory = .ok (.ok elf)) :
    kmodElfSaveSections elf (List.range' 1 (elf.sectionCount - 1)) [] = .ok elf.found := by
  unfold kmodElfNew at h
  split at h
  · cases h
  · obtain ⟨r, _, h⟩ := ok_of_bind h
    cases r with
    | error e => cases h
    | ok p =>
      dsimp only at h
      split at h
      · cases h
      · obtain ⟨elf', _, h⟩ := ok_of_bind h
        exact kmodElfOpen_found h

theorem mem_sectionIndexes {elf : KmodElf} :
    ∀ i ∈ List.range' 1 (elf.sectionCount - 1), 1 ≤ i ∧ i < elf.sectionCount := by
  intro i hi
  rw [List.mem_range'_1] at hi
  omega

/-- What is noted about a section is where the first one with its name lies. -/
theorem sections_eq_first {allocated : Bool} {memory : List UInt8} {elf : KmodElf}
    (h : kmodElfNew allocated memory = .ok (.ok elf)) (sec : KmodElfSection) :
    elf.sections sec =
      ((firstNamed elf (sectionNameMap sec)).map (sectionRange elf)).getD ⟨0, 0⟩ := by
  have hlook := kmodElfSaveSections_lookup (valid_of_kmodElfNew h).1 _ mem_sectionIndexes []
    elf.found (found_of_kmodElfNew h) sec
  unfold KmodElf.sections
  rw [hlook]
  rfl

/-! ## The versions that are read and the header that is changed -/

/-- `kmod_elf_get_modversions` uses nothing that was noted but where the versions lie. -/
theorem kmodElfGetModversions_only (malloc : Nat → Bool) (elf : KmodElf) :
    kmodElfGetModversions malloc elf =
      kmodElfGetModversions malloc { elf with found := [(.versions, elf.sections .versions)] } := by
  have hstore : ∀ off is a, storeVersions elf off is a =
      storeVersions { elf with found := [(.versions, elf.sections .versions)] } off is a := by
    intro off is
    induction is with
    | nil => exact fun _ => rfl
    | cons i is ih =>
      intro a
      unfold storeVersions
      simp only [ih]
      rfl
  unfold kmodElfGetModversions
  simp only [hstore]
  rfl

/-- The header of a section in which `SHF_ALLOC` is cleared. -/
def clearAllocOf (elf : KmodElf) (i : Nat) (changed : List UInt8) : List UInt8 :=
  changed.modify (u64 (elf.sectionOffset + i * elf.sectionEntrySize) + (shFlags elf.x32).offset +
    lowPlace elf.msb (shFlags elf.x32).size) (· &&& notAlloc)

/--
**What was noted is what the search finds**, for each of the six names, and zeros if it finds
nothing. So `kmod_elf_strip` changes the header of the section from which
`kmod_elf_get_modversions` reads.
-/
theorem sectionCache_agrees {allocated : Bool} {memory : List UInt8} {elf : KmodElf}
    (h : kmodElfNew allocated memory = .ok (.ok elf)) :
    (∀ sec,
      (∃ i, kmodElfGetSection elf (sectionNameMap sec) =
        .ok (.ok (i, (elf.sections sec).offset, (elf.sections sec).size))) ∨
      kmodElfGetSection elf (sectionNameMap sec) = .ok (.error (-ENODATA)) ∧
        elf.sections sec = ⟨0, 0⟩) ∧
    (elfStripVersionsSection elf (elf.memory.take elf.size) = .ok (.ok (elf.memory.take elf.size)) ∧
        elf.sections .versions = ⟨0, 0⟩ ∨
      ∃ i info, elfGetSectionInfo toLocals elf i = .ok (.ok (elf, info)) ∧
        elfStripVersionsSection elf (elf.memory.take elf.size) =
          .ok (.ok (clearAllocOf elf i (elf.memory.take elf.size))) ∧
        ∀ malloc, kmodElfGetModversions malloc elf = kmodElfGetModversions malloc
          { elf with found := [(.versions, ⟨info.offset, info.size⟩)] }) := by
  have hv := (valid_of_kmodElfNew h).1
  refine ⟨fun sec => ?_, ?_⟩
  · have hnote := sections_eq_first h sec
    unfold firstNamed at hnote
    rcases kmodElfGetSectionFrom_eq hv (nul_not_mem_sectionNameMap sec) _ mem_sectionIndexes with
      ⟨hfind, hget⟩ | ⟨i, info, hfind, hinfo, hget⟩
    · rw [hfind] at hnote
      exact .inr ⟨hget, hnote⟩
    · rw [hfind, Option.map_some, Option.getD_some, sectionRange_of_ok hinfo] at hnote
      refine .inl ⟨i, ?_⟩
      rw [hnote]
      exact hget
  · have hnote := sections_eq_first h .versions
    have hstrip := elfStripVersionsSection_eq hv
    unfold clearAlloc flagsPlace at hstrip
    rw [show cstr "__versions" = sectionNameMap .versions from rfl] at hstrip
    rcases kmodElfGetSectionFrom_eq hv (nul_not_mem_sectionNameMap .versions) _
      mem_sectionIndexes with ⟨hfind, _⟩ | ⟨i, info, hfind, hinfo, _⟩
    · have hfirst : firstNamed elf (sectionNameMap .versions) = none := hfind
      rw [hfirst] at hstrip hnote
      exact .inl ⟨hstrip, hnote⟩
    · have hfirst : firstNamed elf (sectionNameMap .versions) = some i := hfind
      rw [hfirst] at hstrip hnote
      rw [Option.map_some, Option.getD_some, sectionRange_of_ok hinfo] at hnote
      exact .inr ⟨i, info, hinfo, hstrip,
        fun malloc => hnote ▸ kmodElfGetModversions_only malloc elf⟩

/-- Three sections `__versions`, the first of which would lie outside the file. -/
def versionsFile : List UInt8 :=
  [0x7f, 0x45, 0x4c, 0x46, 1, 1] ++ List.replicate 26 0 ++ [52, 0, 0, 0] ++ List.replicate 10 0 ++
    [40, 0, 5, 0, 1, 0] ++
  List.replicate 40 0 ++ sectionHeader32 0 252 12 ++ sectionHeader32 1 250 200 ++
    sectionHeader32 1 240 2 ++ sectionHeader32 1 242 1 ++
  (0 :: cstr "__versions" ++ [0])

/-- The same file, opened. -/
def versionsElf : KmodElf :=
  { memory := versionsFile, size := 264, x32 := true, msb := false, sectionOffset := 52,
    sectionCount := 5, sectionEntrySize := 40, stringsSection := 1, stringsSize := 12,
    stringsOffset := 252, machine := 0, found := [(.versions, ⟨240, 2⟩)] }

theorem sectionCache_versionsFile :
    kmodElfNew true versionsFile = .ok (.ok versionsElf) ∧
    ∃ i, kmodElfGetSection versionsElf (cstr "__versions") = .ok (.ok (i, 240, 2)) := by
  have hnew : kmodElfNew true versionsFile = .ok (.ok versionsElf) := by decide +kernel
  refine ⟨hnew, ?_⟩
  rcases (sectionCache_agrees hnew).1 .versions with h | ⟨_, h⟩
  · exact h
  · exact absurd (congrArg SectionRange.offset h) (by decide +kernel)

end Kmod
