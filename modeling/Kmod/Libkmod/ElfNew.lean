import Kmod.Libkmod.Elf

/-!
# Opening any file

`kmod_elf_new` is run on arbitrary bytes. It keeps to the file, and what it returns is
`KmodElf.Valid`: the strings section lies in the file and ends with a NUL, and so does
every section it has found lie in the file.

What nothing checks is the index of the strings section. `elf_get_section_info` hands it
to `elf_get_section_header_offset`, which asserts that it is the index of a section. A
file with a section table but without section names has the index 0, and the assertion
fails (`kmodElfNew_total_iff`).
-/

namespace Kmod

open Kmod.Memory Kmod.ByteScan

/-! ## Reading in bounds -/

/-- The size is the length of the mapping, as far as it is a 64-bit number. -/
structure KmodElf.Sized (elf : KmodElf) : Prop where
  le : elf.size ≤ elf.memory.length
  lt : elf.size < 18446744073709551616

theorem kmodElfInit_sized (memory : List UInt8) (x32 msb : Bool) :
    (kmodElfInit memory x32 msb).Sized := by
  unfold kmodElfInit u64
  exact ⟨Nat.mod_le _ _, Nat.mod_lt _ (by omega)⟩

theorem elfRangeValid_eq_true {elf : KmodElf} (hs : elf.Sized) {offset size : Nat} :
    elfRangeValid elf offset size = true ↔ offset + size ≤ elf.size := by
  have := hs.lt
  unfold elfRangeValid
  rw [decide_eq_true_eq]
  omega

/-- The field of a structure lies in it, and fits a `uint64_t`. -/
def ElfField.Within (f : Bool → ElfField) (structSize : Bool → Nat) : Prop :=
  ∀ x32, (f x32).offset + (f x32).size ≤ structSize x32 ∧ (f x32).size ≤ 8

/-- The number at a field of the structure at an offset. -/
def fieldAt (memory : List UInt8) (msb : Bool) (off : Nat) (f : ElfField) : Nat :=
  uintOf msb (bytesAt memory (off + f.offset) f.size)

theorem elfGetUint_eq {elf : KmodElf} {offset size : Nat} (h8 : size ≤ 8)
    (h : offset + size ≤ elf.memory.length) :
    elfGetUint elf offset size = .ok (uintOf elf.msb (bytesAt elf.memory offset size)) := by
  unfold elfGetUint
  rw [if_pos h8, getRange_eq h]
  rfl

/-- Reading a field of a structure that lies in the file. -/
theorem readv_eq {elf : KmodElf} (hs : elf.Sized) {off : Nat} {f : Bool → ElfField}
    {structSize : Bool → Nat} (hf : ElfField.Within f structSize)
    (h : off + structSize elf.x32 ≤ elf.size) :
    readv elf off f = .ok (fieldAt elf.memory elf.msb off (f elf.x32)) := by
  obtain ⟨hin, h8⟩ := hf elf.x32
  have hle := hs.le
  have hlt := hs.lt
  unfold readv fieldAt
  rw [u64_of_lt (by omega)]
  exact elfGetUint_eq h8 (by omega)

theorem eShoff_within : ElfField.Within eShoff ehdrSize := by unfold ElfField.Within; decide
theorem eShnum_within : ElfField.Within eShnum ehdrSize := by unfold ElfField.Within; decide
theorem eShentsize_within : ElfField.Within eShentsize ehdrSize := by unfold ElfField.Within; decide
theorem eShstrndx_within : ElfField.Within eShstrndx ehdrSize := by unfold ElfField.Within; decide
theorem eMachine_within : ElfField.Within eMachine ehdrSize := by unfold ElfField.Within; decide
theorem shName_within : ElfField.Within shName shdrSize := by unfold ElfField.Within; decide
theorem shOffset_within : ElfField.Within shOffset shdrSize := by unfold ElfField.Within; decide
theorem shSize_within : ElfField.Within shSize shdrSize := by unfold ElfField.Within; decide

/-- What a file is identified as. -/
theorem elfIdentify_spec (memory : List UInt8) :
    ∃ r, elfIdentify memory (u64 memory.length) = .ok r ∧ (∀ e, r = .error e → e < 0) ∧
      ∀ x32 msb, r = .ok (x32, msb) → ehdrSize x32 < u64 memory.length := by
  have hsize : u64 memory.length ≤ memory.length := Nat.mod_le _ _
  unfold elfIdentify
  split
  · exact ⟨_, rfl, by simp [ENOEXEC], by simp⟩
  · next h16 =>
    rw [getRange_eq (show 0 + 4 ≤ memory.length by omega),
      List.getElem?_eq_getElem (show 4 < memory.length by omega),
      List.getElem?_eq_getElem (show 5 < memory.length by omega)]
    simp only [inBlock_some, ok_bind]
    split
    · exact ⟨_, rfl, by simp [ENOEXEC], by simp⟩
    · split
      · exact ⟨_, rfl, by simp [EINVAL], by simp⟩
      · split
        · exact ⟨_, rfl, by simp [EINVAL], by simp⟩
        · next hsize =>
          split
          · exact ⟨_, rfl, by simp, fun x32 msb h => by cases h; omega⟩
          · split
            · exact ⟨_, rfl, by simp, fun x32 msb h => by cases h; omega⟩
            · exact ⟨_, rfl, by simp [EINVAL], by simp⟩

/-! ## Sections -/

/-- The assertions are about the index alone. -/
theorem elfGetSectionInfo_assert {elf : KmodElf} {idx : Nat} (h : idx = 0 ∨ elf.sectionCount ≤ idx)
    (store : KmodElf → Nat → Nat → KmodElf) :
    elfGetSectionInfo store elf idx = .error .assertFailed := by
  unfold elfGetSectionInfo elfGetSectionHeaderOffset
  by_cases h0 : idx = 0
  · rw [if_pos h0]
    rfl
  · rw [if_neg h0, if_neg (show ¬ idx < elf.sectionCount by omega)]
    rfl

/-- What is known about a section that was read. -/
structure SectionInfo.Read (elf : KmodElf) (info : SectionInfo) : Prop where
  inFile : info.offset + info.size ≤ elf.size
  named : ∃ nameoff, nameoff < elf.stringsSize ∧ info.name = u64 (elf.stringsOffset + nameoff)

/-- Any section header can be read, and it is refused if it says something impossible. -/
theorem elfGetSectionInfo_spec {elf : KmodElf} (hs : elf.Sized)
    (store : KmodElf → Nat → Nat → KmodElf)
    (hstore : ∀ size offset, (store elf size offset).size = elf.size) {idx : Nat} (h1 : 1 ≤ idx)
    (hcount : idx < elf.sectionCount) :
    ∃ r, elfGetSectionInfo store elf idx = .ok r ∧
      ∀ elf' info, r = .ok (elf', info) →
        elf' = store elf info.size info.offset ∧ info.Read elf' := by
  have hsized : ∀ size offset a b,
      elfRangeValid (store elf size offset) a b = elfRangeValid elf a b := by
    intro size offset a b
    unfold elfRangeValid
    rw [hstore]
  unfold elfGetSectionInfo elfGetSectionHeaderOffset
  rw [if_neg (show ¬ idx = 0 by omega), if_pos hcount, ok_bind]
  split
  · exact ⟨_, rfl, by simp⟩
  · split
    · exact ⟨_, rfl, by simp⟩
    · next hvalid =>
      rw [Bool.not_eq_false, elfRangeValid_eq_true hs] at hvalid
      rw [readv_eq hs shSize_within hvalid, ok_bind, readv_eq hs shOffset_within hvalid, ok_bind,
        readv_eq hs shName_within hvalid, ok_bind]
      dsimp only
      split
      · exact ⟨_, rfl, by simp⟩
      · next hrange =>
        rw [hsized, Bool.not_eq_false, elfRangeValid_eq_true hs] at hrange
        split
        · exact ⟨_, rfl, by simp⟩
        · next hname =>
          refine ⟨_, rfl, ?_⟩
          intro elf' info h
          cases h
          refine ⟨rfl, ?_, _, Nat.lt_of_not_le hname, rfl⟩
          rw [hstore]
          exact hrange

/-- The strings section has been read and lies in the file, with a NUL at its end. -/
structure KmodElf.Named (elf : KmodElf) : Prop extends elf.Sized where
  nonempty : 0 < elf.stringsSize
  stringsInFile : elf.stringsOffset + elf.stringsSize ≤ elf.size
  terminated : elf.memory[elf.stringsOffset + (elf.stringsSize - 1)]? = some 0

/-- A string at an offset ends before another offset. -/
def TerminatedBelow (memory : List UInt8) (p bound : Nat) : Prop :=
  ∃ k, p + k < bound ∧ memory[p + k]? = some 0

/-- The names of sections are in the strings section. -/
theorem SectionInfo.Read.name_terminated {elf : KmodElf} (hn : elf.Named) {info : SectionInfo}
    (hread : info.Read elf) :
    elf.stringsOffset ≤ info.name ∧
      TerminatedBelow elf.memory info.name (elf.stringsOffset + elf.stringsSize) := by
  obtain ⟨nameoff, hlt, hname⟩ := hread.named
  have hin := hn.stringsInFile
  have h64 := hn.lt
  have hterm := hn.terminated
  rw [u64_of_lt (by omega)] at hname
  refine ⟨by omega, elf.stringsSize - 1 - nameoff, by omega, ?_⟩
  rw [hname, show elf.stringsOffset + nameoff + (elf.stringsSize - 1 - nameoff) =
    elf.stringsOffset + (elf.stringsSize - 1) by omega]
  exact hterm

theorem mem_drop_of_terminated {memory : List UInt8} {p bound : Nat}
    (h : TerminatedBelow memory p bound) : 0 ∈ memory.drop p := by
  obtain ⟨k, _, hk⟩ := h
  rw [← List.getElem?_drop] at hk
  exact List.mem_of_getElem? hk

/-! ## Saving the sections -/

theorem nul_not_mem_sectionNameMap (sec : KmodElfSection) : 0 ∉ sectionNameMap sec := by
  cases sec <;> decide

theorem matchSection_total {memory : List UInt8} {name : Nat} (hname : 0 ∈ memory.drop name)
    (found secs : List KmodElfSection) : ∃ r, matchSection memory name found secs = .ok r := by
  induction secs with
  | nil => exact ⟨_, rfl⟩
  | cons sec secs ih =>
    unfold matchSection
    split
    · exact ih
    · obtain ⟨eq, heq⟩ := streqTails_of_terminated (nul_not_mem_sectionNameMap sec) hname
      unfold streqAt
      rw [heq, inBlock_some, ok_bind]
      cases eq with
      | true => exact ⟨_, rfl⟩
      | false => exact ih

/-- Each of some sections lies in the file. -/
def SectionsInFile (elf : KmodElf) (found : List (KmodElfSection × SectionRange)) : Prop :=
  ∀ e ∈ found, e.2.offset + e.2.size ≤ elf.size

theorem kmodElfSaveSections_total {elf : KmodElf} (hn : elf.Named) :
    ∀ is, (∀ i ∈ is, 1 ≤ i ∧ i < elf.sectionCount) → ∀ found, SectionsInFile elf found →
      ∃ found', kmodElfSaveSections elf is found = .ok found' ∧ SectionsInFile elf found' := by
  intro is
  induction is with
  | nil => intro _ found hfound; exact ⟨found, rfl, hfound⟩
  | cons i is ih =>
    intro his found hfound
    obtain ⟨⟨h1, hcount⟩, his⟩ := List.forall_mem_cons.mp his
    have hrest := ih his
    unfold kmodElfSaveSections
    split
    · exact ⟨found, rfl, hfound⟩
    · obtain ⟨r, hr, hok⟩ :=
        elfGetSectionInfo_spec hn.toSized toLocals (fun _ _ => rfl) h1 hcount
      rw [hr, ok_bind]
      cases r with
      | error e => exact hrest found hfound
      | ok p =>
        obtain ⟨elf', info⟩ := p
        obtain ⟨hstore, hread⟩ := hok elf' info rfl
        have helf : elf' = elf := hstore
        subst helf
        obtain ⟨sec, hsec⟩ := matchSection_total
          (mem_drop_of_terminated (hread.name_terminated hn).2) (found.map Prod.fst) kmodElfSections
        dsimp only
        rw [hsec, ok_bind]
        cases sec with
        | none => exact hrest found hfound
        | some sec =>
          refine hrest _ ?_
          intro e he
          rcases List.mem_cons.mp he with rfl | he
          · exact hread.inFile
          · exact hfound e he

/-! ## Opening -/

/-- A file that was opened. -/
structure KmodElf.Valid (elf : KmodElf) : Prop extends elf.Named where
  found : SectionsInFile elf elf.found

/-- The section table has entries of the right size and lies in the file. -/
def TableValid (elf : KmodElf) : Prop :=
  elf.sectionEntrySize = shdrSize elf.x32 ∧
    elfRangeValid elf elf.sectionOffset (u64 (shdrSize elf.x32 * elf.sectionCount)) = true

theorem kmodElfOpen_no_table {elf : KmodElf} (h : ¬ TableValid elf) :
    kmodElfOpen elf = .ok (.error (-EINVAL)) := by
  unfold kmodElfOpen
  by_cases hent : elf.sectionEntrySize = shdrSize elf.x32
  · rw [if_neg (not_not.mpr hent)]
    refine if_pos ?_
    rw [← Bool.not_eq_true]
    exact fun hrange => h ⟨hent, hrange⟩
  · exact if_pos hent

theorem kmodElfOpen_unnamed {elf : KmodElf} (h : TableValid elf)
    (hidx : elf.stringsSection = 0 ∨ elf.sectionCount ≤ elf.stringsSection) :
    kmodElfOpen elf = .error .assertFailed := by
  unfold kmodElfOpen
  rw [if_neg (not_not.mpr h.1), if_neg (by simp [h.2]), elfGetSectionInfo_assert hidx]
  rfl

/-- `kmod_elf_new` with a header whose strings section exists. -/
theorem kmodElfOpen_total {elf : KmodElf} (hs : elf.Sized) (h1 : 1 ≤ elf.stringsSection)
    (hcount : elf.stringsSection < elf.sectionCount) :
    ∃ r, kmodElfOpen elf = .ok r ∧ (∀ e, r = .error e → e < 0) ∧
      ∀ elf', r = .ok elf' → elf'.Valid ∧ elf'.memory = elf.memory := by
  unfold kmodElfOpen
  split
  · exact ⟨_, rfl, by simp [EINVAL], by simp⟩
  · split
    · exact ⟨_, rfl, by simp [EINVAL], by simp⟩
    · obtain ⟨r, hr, hok⟩ := elfGetSectionInfo_spec hs toStrings (fun _ _ => rfl) h1 hcount
      rw [hr, ok_bind]
      cases r with
      | error e => exact ⟨_, rfl, by simp [EINVAL], by simp⟩
      | ok p =>
        obtain ⟨elf', info⟩ := p
        obtain ⟨hstore, hread⟩ := hok elf' info rfl
        -- the strings section is the section just read
        have hin : elf'.stringsOffset + elf'.stringsSize ≤ elf'.size := by
          subst hstore
          exact hread.inFile
        have hsized : elf'.Sized := by
          subst hstore
          exact ⟨hs.le, hs.lt⟩
        have hle := hsized.le
        have hlt := hsized.lt
        dsimp only
        split
        · exact ⟨_, rfl, by simp [EINVAL], by simp⟩
        · next hlen =>
          rw [u64_of_lt (by omega), List.getElem?_eq_getElem (by omega), inBlock_some, ok_bind]
          split
          · exact ⟨_, rfl, by simp [EINVAL], by simp⟩
          · next hlast =>
            rw [not_not] at hlast
            have hn : elf'.Named :=
              { toSized := hsized
                nonempty := by omega
                stringsInFile := hin
                terminated := by rw [List.getElem?_eq_getElem (by omega), hlast] }
            obtain ⟨found, hfound, hsecs⟩ := kmodElfSaveSections_total hn
              (List.range' 1 (elf'.sectionCount - 1))
              (by intro i hi; rw [List.mem_range'_1] at hi; omega) [] (by intro e he; cases he)
            rw [hfound, ok_bind]
            refine ⟨_, rfl, by simp, ?_⟩
            intro elf'' h
            cases h
            refine ⟨{ toSized := ⟨hle, hlt⟩, nonempty := hn.nonempty, stringsInFile := hin,
                      terminated := hn.terminated, found := hsecs }, ?_⟩
            subst hstore
            rfl

/-- The header after `LOAD_HEADER`. -/
def withHeader (elf : KmodElf) : KmodElf :=
  { elf with
    sectionOffset := fieldAt elf.memory elf.msb 0 (eShoff elf.x32)
    sectionCount := fieldAt elf.memory elf.msb 0 (eShnum elf.x32)
    sectionEntrySize := fieldAt elf.memory elf.msb 0 (eShentsize elf.x32)
    stringsSection := fieldAt elf.memory elf.msb 0 (eShstrndx elf.x32)
    machine := fieldAt elf.memory elf.msb 0 (eMachine elf.x32) }

theorem loadHeader_eq {elf : KmodElf} (hs : elf.Sized) (h : ehdrSize elf.x32 ≤ elf.size) :
    loadHeader elf = .ok (withHeader elf) := by
  have h0 : 0 + ehdrSize elf.x32 ≤ elf.size := by omega
  unfold loadHeader
  rw [readv_eq hs eShoff_within h0, ok_bind, readv_eq hs eShnum_within h0, ok_bind,
    readv_eq hs eShentsize_within h0, ok_bind, readv_eq hs eShstrndx_within h0, ok_bind,
    readv_eq hs eMachine_within h0, ok_bind]
  rfl

/-- There are at most `UINT16_MAX` sections. -/
theorem eShnum_lt (memory : List UInt8) (msb x32 : Bool) :
    fieldAt memory msb 0 (eShnum x32) < 65536 := by
  have h := uintOf_lt msb (bytesAt memory (0 + (eShnum x32).offset) (eShnum x32).size)
  have hlen := length_bytesAt_le memory (0 + (eShnum x32).offset) (eShnum x32).size
  have hsize : (eShnum x32).size = 2 := by cases x32 <;> rfl
  calc uintOf msb (bytesAt memory (0 + (eShnum x32).offset) (eShnum x32).size)
      < 256 ^ (bytesAt memory (0 + (eShnum x32).offset) (eShnum x32).size).length := h
    _ ≤ 256 ^ 2 := Nat.pow_le_pow_right (by decide) (hsize ▸ hlen)
    _ = 65536 := rfl

theorem table_u64 (memory : List UInt8) (msb x32 : Bool) :
    u64 (shdrSize x32 * fieldAt memory msb 0 (eShnum x32)) =
      shdrSize x32 * fieldAt memory msb 0 (eShnum x32) := by
  have h := eShnum_lt memory msb x32
  refine u64_of_lt ?_
  cases x32 <;> simp only [shdrSize, if_true, Bool.false_eq_true, if_false] <;> omega

/--
The file has a header and a section table, but the strings section it names is not one
of its sections.
-/
def UnnamedSections (memory : List UInt8) : Prop :=
  ∃ x32 msb, elfIdentify memory (u64 memory.length) = .ok (.ok (x32, msb)) ∧
    fieldAt memory msb 0 (eShentsize x32) = shdrSize x32 ∧
    fieldAt memory msb 0 (eShoff x32) + shdrSize x32 * fieldAt memory msb 0 (eShnum x32) ≤
      u64 memory.length ∧
    (fieldAt memory msb 0 (eShstrndx x32) = 0 ∨
      fieldAt memory msb 0 (eShnum x32) ≤ fieldAt memory msb 0 (eShstrndx x32))

/-- `kmod_elf_new` after the identification. -/
theorem kmodElfNew_eq {memory : List UInt8} {x32 msb : Bool}
    (h : elfIdentify memory (u64 memory.length) = .ok (.ok (x32, msb))) :
    kmodElfNew true memory = kmodElfOpen (withHeader (kmodElfInit memory x32 msb)) := by
  obtain ⟨r, hr, _, hsize⟩ := elfIdentify_spec memory
  have hhdr : ehdrSize x32 < u64 memory.length := by
    refine hsize x32 msb ?_
    rw [h] at hr
    exact (Except.ok.inj hr).symm
  have hs := kmodElfInit_sized memory x32 msb
  have hvalid : elfRangeValid (kmodElfInit memory x32 msb) 0 (ehdrSize x32) = true :=
    (elfRangeValid_eq_true hs).mpr (by show 0 + ehdrSize x32 ≤ u64 memory.length; omega)
  have hload := loadHeader_eq hs (show ehdrSize x32 ≤ u64 memory.length by omega)
  unfold kmodElfNew
  rw [if_neg (by simp), h, ok_bind]
  dsimp only
  rw [if_neg (by simp [hvalid]), hload, ok_bind]

theorem withHeader_sized (memory : List UInt8) (x32 msb : Bool) :
    (withHeader (kmodElfInit memory x32 msb)).Sized :=
  ⟨(kmodElfInit_sized memory x32 msb).le, (kmodElfInit_sized memory x32 msb).lt⟩

/-- Whether the section table lies in the file. -/
theorem tableValid_iff (memory : List UInt8) (x32 msb : Bool) :
    TableValid (withHeader (kmodElfInit memory x32 msb)) ↔
      fieldAt memory msb 0 (eShentsize x32) = shdrSize x32 ∧
        fieldAt memory msb 0 (eShoff x32) + shdrSize x32 * fieldAt memory msb 0 (eShnum x32) ≤
          u64 memory.length := by
  unfold TableValid
  rw [elfRangeValid_eq_true (withHeader_sized memory x32 msb)]
  have hsize := table_u64 memory msb x32
  exact and_congr Iff.rfl (Iff.of_eq (congrArg (_ + · ≤ _) hsize))

/-- **The assertion fails** on a file without a section for the section names. -/
theorem kmodElfNew_of_unnamed {memory : List UInt8} (h : UnnamedSections memory) :
    kmodElfNew true memory = .error .assertFailed := by
  obtain ⟨x32, msb, hid, hent, htable, hidx⟩ := h
  rw [kmodElfNew_eq hid]
  exact kmodElfOpen_unnamed ((tableValid_iff memory x32 msb).mpr ⟨hent, htable⟩) hidx

/-- Otherwise there is a result. -/
theorem kmodElfNew_of_named {memory : List UInt8} (h : ¬ UnnamedSections memory) :
    ∃ r, kmodElfNew true memory = .ok r ∧ (∀ e, r = .error e → e < 0) ∧
      ∀ elf, r = .ok elf → elf.Valid ∧ elf.memory = memory := by
  obtain ⟨r, hid, hneg, _⟩ := elfIdentify_spec memory
  cases r with
  | error e =>
    refine ⟨.error e, ?_, fun e' h => hneg e' (by cases h; rfl), by simp⟩
    unfold kmodElfNew
    rw [if_neg (by simp), hid, ok_bind]
  | ok p =>
    obtain ⟨x32, msb⟩ := p
    rw [kmodElfNew_eq hid]
    by_cases hidx : 1 ≤ fieldAt memory msb 0 (eShstrndx x32) ∧
        fieldAt memory msb 0 (eShstrndx x32) < fieldAt memory msb 0 (eShnum x32)
    · exact kmodElfOpen_total (withHeader_sized memory x32 msb) hidx.1 hidx.2
    · -- the section table is not there, which is noticed first
      refine ⟨.error (-EINVAL), kmodElfOpen_no_table ?_, by simp [EINVAL], by simp⟩
      rw [tableValid_iff]
      intro ⟨hent, htable⟩
      exact h ⟨x32, msb, hid, hent, htable, by omega⟩

/-- **What is opened is valid.** -/
theorem valid_of_kmodElfNew {allocated : Bool} {memory : List UInt8} {elf : KmodElf}
    (h : kmodElfNew allocated memory = .ok (.ok elf)) : elf.Valid ∧ elf.memory = memory := by
  cases allocated with
  | false => cases h
  | true =>
    by_cases hbad : UnnamedSections memory
    · rw [kmodElfNew_of_unnamed hbad] at h
      cases h
    · obtain ⟨r, hr, _, hok⟩ := kmodElfNew_of_named hbad
      rw [h] at hr
      cases hr
      exact hok elf rfl

/-- Every section of an opened file can be read, and what is read lies in the file. -/
theorem KmodElf.Valid.elfGetSectionInfo {elf : KmodElf} (hv : elf.Valid) {i : Nat} (h1 : 1 ≤ i)
    (hi : i < elf.sectionCount) :
    ∃ r, elfGetSectionInfo toLocals elf i = .ok r ∧ ∀ elf' info, r = .ok (elf', info) →
      info.offset + info.size ≤ elf.memory.length ∧ elf.stringsOffset ≤ info.name ∧
        TerminatedBelow elf.memory info.name (elf.stringsOffset + elf.stringsSize) := by
  obtain ⟨r, hr, hok⟩ := elfGetSectionInfo_spec hv.toSized toLocals (fun _ _ => rfl) h1 hi
  refine ⟨r, hr, ?_⟩
  intro elf' info heq
  obtain ⟨hstore, hread⟩ := hok elf' info heq
  have helf : elf' = elf := hstore
  subst helf
  exact ⟨Nat.le_trans hread.inFile hv.le, hread.name_terminated hv.toNamed⟩

/-- A section of an opened file is refused, or it has a name that ends. -/
theorem KmodElf.Valid.sectionInfo_cases {elf : KmodElf} (hv : elf.Valid) {i : Nat} (h1 : 1 ≤ i)
    (hi : i < elf.sectionCount) :
    (∃ err, Kmod.elfGetSectionInfo toLocals elf i = .ok (.error err)) ∨
      ∃ info, Kmod.elfGetSectionInfo toLocals elf i = .ok (.ok (elf, info)) ∧
        0 ∈ elf.memory.drop info.name := by
  obtain ⟨r, hr, hok⟩ := elfGetSectionInfo_spec hv.toSized toLocals (fun _ _ => rfl) h1 hi
  cases r with
  | error err => exact .inl ⟨err, hr⟩
  | ok p =>
    obtain ⟨elf', info⟩ := p
    obtain ⟨hstore, hread⟩ := hok elf' info rfl
    have helf : elf' = elf := hstore
    subst helf
    exact .inr ⟨info, hr, mem_drop_of_terminated (hread.name_terminated hv.toNamed).2⟩

/--
**Opening any bytes.** `kmod_elf_new` returns, an error is negative, and in a file that it
opens every section is refused or lies in the file, with a name that ends in the strings
section: just if it is not a file with a section table whose strings section does not
exist.
-/
theorem kmodElfNew_total_iff (allocated : Bool) (memory : List UInt8) :
    (∃ r, kmodElfNew allocated memory = .ok r ∧ (∀ err, r = .error err → err < 0) ∧
      ∀ elf, r = .ok elf → ∀ i, 1 ≤ i → i < elf.sectionCount →
        ∃ s, elfGetSectionInfo toLocals elf i = .ok s ∧ ∀ elf' info, s = .ok (elf', info) →
          info.offset + info.size ≤ memory.length ∧ elf.stringsOffset ≤ info.name ∧
            TerminatedBelow memory info.name (elf.stringsOffset + elf.stringsSize)) ↔
      ¬ (allocated = true ∧ UnnamedSections memory) := by
  refine ⟨?_, ?_⟩
  · intro ⟨r, hr, _⟩ ⟨halloc, hbad⟩
    subst halloc
    rw [kmodElfNew_of_unnamed hbad] at hr
    cases hr
  · intro h
    cases allocated with
    | false => exact ⟨_, rfl, by simp [ENOMEM], by simp⟩
    | true =>
      obtain ⟨r, hr, hneg, hok⟩ := kmodElfNew_of_named (fun hbad => h ⟨rfl, hbad⟩)
      refine ⟨r, hr, hneg, ?_⟩
      intro elf heq i h1 hi
      obtain ⟨hv, hmem⟩ := hok elf heq
      rw [← hmem]
      exact hv.elfGetSectionInfo h1 hi

/-- A 64-bit file with nothing in its header but the size of a section header. -/
def noSections : List UInt8 :=
  [0x7f, 0x45, 0x4c, 0x46, 2, 1] ++ List.replicate 52 0 ++ [64] ++ List.replicate 6 0

theorem kmodElfNew_noSections : kmodElfNew true noSections = .error .assertFailed := by
  decide

end Kmod
