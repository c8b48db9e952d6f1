import Kmod.Libkmod.ElfNew
import Kmod.Libkmod.ElfSymbols

/-!
# What the accessors read

The sections of an opened file lie in it, so the entries of its tables can be read. The
strings are another matter. That the name of a symbol starts in `.strtab` is checked, but
nothing says that `.strtab` ends with a NUL, and a comparison of the name may leave the
file.

For each accessor we say exactly when it stays inside: `kmod_elf_get_modversions` and the
fallback to `__ksymtab_strings` always do, the others under conditions on the tables.
-/

namespace Kmod

open Kmod.Memory Kmod.ByteScan

/-! ## Entries of tables -/

/-- All sections lie in the file, those that were not found trivially. -/
theorem KmodElf.Valid.sections_inFile {elf : KmodElf} (hv : elf.Valid) (sec : KmodElfSection) :
    (elf.sections sec).offset + (elf.sections sec).size ≤ elf.size := by
  unfold KmodElf.sections
  cases h : elf.found.lookup sec with
  | none => exact Nat.zero_le _
  | some r =>
    obtain ⟨l₁, l₂, hl, _⟩ := List.lookup_eq_some_iff.mp h
    exact hv.found (sec, r) (by rw [hl]; simp)

/-- An entry of a table of equal entries ends where the table does, or before. -/
theorem entry_le {size entry i : Nat} (h : i < size / entry) : i * entry + entry ≤ size := by
  calc i * entry + entry = (i + 1) * entry := (Nat.succ_mul i entry).symm
    _ ≤ size / entry * entry := Nat.mul_le_mul_right _ h
    _ ≤ size := Nat.div_mul_le_self _ _

/-- A loop that stops at the first entry without `p` goes through all of them if there is none. -/
theorem forall_of_takeWhile {is : List Nat} {p : Nat → Bool} {q : Nat → Prop}
    (hall : ∀ i ∈ is, p i = true) (h : ∀ i ∈ is.takeWhile p, q i) : ∀ i ∈ is, p i = true ∧ q i := by
  rw [List.takeWhile_eq_self_iff.mpr hall] at h
  exact fun i hi => ⟨hall i hi, h i hi⟩

theorem terminatedBelow_iff {memory : List UInt8} {p : Nat} :
    TerminatedBelow memory p memory.length ↔ 0 ∈ memory.drop p := by
  refine ⟨mem_drop_of_terminated, ?_⟩
  intro h
  obtain ⟨k, hk⟩ := List.mem_iff_getElem?.mp h
  rw [List.getElem?_drop] at hk
  exact ⟨k, (List.getElem?_eq_some_iff.mp hk).1, hk⟩

/-- An accessor of symbols has a result, and the names in it end in the file. -/
def NamesSafe (memory : List UInt8) (r : SymbolsResult) : Prop :=
  ∃ x, r = .ok x ∧ ∀ a, x = .ok a → ∀ m ∈ a, TerminatedBelow memory m.symbol memory.length

theorem namesSafe_error (memory : List UInt8) (err : Int) : NamesSafe memory (.ok (.error err)) :=
  ⟨_, rfl, by simp⟩

theorem namesSafe_ok {memory : List UInt8} {a : List KmodModversion} :
    NamesSafe memory (.ok (.ok a)) ↔ ∀ m ∈ a, 0 ∈ memory.drop m.symbol := by
  unfold NamesSafe
  refine ⟨?_, ?_⟩
  · intro ⟨x, hx, ha⟩ m hm
    cases hx
    exact terminatedBelow_iff.mp (ha a rfl m hm)
  · intro h
    refine ⟨_, rfl, ?_⟩
    intro a' ha m hm
    cases ha
    exact terminatedBelow_iff.mpr (h m hm)

theorem not_namesSafe_fault (memory : List UInt8) (f : Fault) : ¬ NamesSafe memory (.error f) := by
  intro ⟨x, hx, _⟩
  cases hx

/-! ## Version entries -/

/-- The rest of the file from the name of an entry of a version section on. -/
def versionTail (elf : KmodElf) (sec : SectionRange) (i : Nat) : List UInt8 :=
  elf.memory.drop (sec.offset + i * verlen + crclen elf.x32)

/-- The name of an entry ends in the entry. -/
def versionTerminated (elf : KmodElf) (sec : SectionRange) (i : Nat) : Bool :=
  decide (0 ∈ (versionTail elf sec i).take (namlen elf.x32))

/-- The CRC of an entry. -/
def versionCrc (elf : KmodElf) (sec : SectionRange) (i : Nat) : Nat :=
  uintOf elf.msb (bytesAt elf.memory (sec.offset + i * verlen) (crclen elf.x32))

theorem crclen_add_namlen (x32 : Bool) : crclen x32 + namlen x32 = verlen := by
  cases x32 <;> rfl

theorem crclen_le (x32 : Bool) : crclen x32 ≤ 8 := by
  cases x32 <;> decide

section Versions

variable {elf : KmodElf} (hs : elf.Sized) {sec : SectionRange}
  (hsec : sec.offset + sec.size ≤ elf.size) {i : Nat} (hi : i < sec.size / verlen)

include hs hsec hi

theorem version_u64 : u64 (sec.offset + i * verlen) = sec.offset + i * verlen ∧
    u64 (sec.offset + i * verlen + crclen elf.x32) = sec.offset + i * verlen + crclen elf.x32 := by
  have hle := entry_le hi
  have hsum := crclen_add_namlen elf.x32
  have hlt := hs.lt
  exact ⟨u64_of_lt (by omega), u64_of_lt (by omega)⟩

theorem version_crc : elfGetUint elf (u64 (sec.offset + i * verlen)) (crclen elf.x32) =
    .ok (versionCrc elf sec i) := by
  have hle := entry_le hi
  have hsum := crclen_add_namlen elf.x32
  have hmem := hs.le
  rw [(version_u64 hs hsec hi).1]
  exact elfGetUint_eq (crclen_le _) (by omega)

/-- `strnlen` tells whether the name ends in the entry. -/
theorem version_strnlen :
    ∃ n, strnlenAt elf.memory (u64 (sec.offset + i * verlen + crclen elf.x32)) (namlen elf.x32) =
      .ok n ∧ (n = namlen elf.x32 ↔ versionTerminated elf sec i = false) := by
  have hle := entry_le hi
  have hsum := crclen_add_namlen elf.x32
  have hmem := hs.le
  have hlen : namlen elf.x32 ≤ (versionTail elf sec i).length := by
    unfold versionTail
    rw [List.length_drop]
    omega
  unfold strnlenAt
  rw [(version_u64 hs hsec hi).2]
  refine ⟨_, congrArg inBlock (strnlenTail_eq _ (versionTail elf sec i) hlen), ?_⟩
  unfold versionTerminated
  rw [decide_eq_false_iff_not, ← List.idxOf_lt_length_iff, List.length_take, Nat.min_eq_left hlen]
  have := List.idxOf_le_length (a := 0) (l := (versionTail elf sec i).take (namlen elf.x32))
  rw [List.length_take, Nat.min_eq_left hlen] at this
  omega

end Versions

theorem nul_mem_of_versionTerminated {elf : KmodElf} {sec : SectionRange} {i : Nat}
    (h : versionTerminated elf sec i = true) : 0 ∈ versionTail elf sec i :=
  List.mem_of_mem_take (of_decide_eq_true h)

/-! ## `kmod_elf_get_modversions` -/

/-- A name that ends still ends behind a dot. -/
theorem nul_mem_drop_succ {memory : List UInt8} {p : Nat} (h : 0 ∈ memory.drop p)
    (hdot : memory[p]? = some 46) : 0 ∈ memory.drop (p + 1) := by
  obtain ⟨hlt, hget⟩ := List.getElem?_eq_some_iff.mp hdot
  rw [List.drop_eq_getElem_cons hlt, hget, List.mem_cons] at h
  rcases h with h | h
  · exact absurd h (by decide)
  · exact h

theorem storeVersions_safe {elf : KmodElf} (hs : elf.Sized) {sec : SectionRange}
    (hsec : sec.offset + sec.size ≤ elf.size) :
    ∀ is, (∀ i ∈ is, i < sec.size / verlen) → ∀ a, (∀ m ∈ a, 0 ∈ elf.memory.drop m.symbol) →
      NamesSafe elf.memory (storeVersions elf sec.offset is a) := by
  intro is
  induction is with
  | nil => intro _ a ha; exact namesSafe_ok.mpr ha
  | cons i is ih =>
    intro his a ha
    obtain ⟨hi, his⟩ := List.forall_mem_cons.mp his
    have hrest := ih his
    obtain ⟨hoff, hname⟩ := version_u64 hs hsec hi
    obtain ⟨n, hn, hterm⟩ := version_strnlen hs hsec hi
    rw [hname] at hn
    unfold storeVersions
    dsimp only
    rw [version_crc hs hsec hi, ok_bind, hoff, hname, hn, ok_bind]
    split
    · exact namesSafe_error _ _
    · next hlen =>
      have hnul : 0 ∈ elf.memory.drop (sec.offset + i * verlen + crclen elf.x32) :=
        nul_mem_of_versionTerminated (by rw [← Bool.not_eq_false, ← hterm]; exact hlen)
      have hlt : sec.offset + i * verlen + crclen elf.x32 < elf.memory.length := by
        by_contra hge
        rw [List.drop_of_length_le (by omega)] at hnul
        cases hnul
      rw [List.getElem?_eq_getElem hlt, inBlock_some, ok_bind]
      refine hrest _ ?_
      intro m hm
      rcases List.mem_append.mp hm with hm | hm
      · exact ha m hm
      · rw [List.mem_singleton.mp hm]
        dsimp only
        split
        · next hdot => exact nul_mem_drop_succ hnul (by rw [List.getElem?_eq_getElem hlt, hdot])
        · exact hnul

/-- **Versions are always read in bounds**, and their names end. -/
theorem kmodElfGetModversions_safe {elf : KmodElf} (hv : elf.Valid) (malloc : Nat → Bool) :
    NamesSafe elf.memory (kmodElfGetModversions malloc elf) := by
  unfold kmodElfGetModversions
  dsimp only
  split
  · exact namesSafe_error _ _
  · split
    · exact namesSafe_ok.mpr (by simp)
    · split
      · exact namesSafe_error _ _
      · split
        · exact namesSafe_error _ _
        · split
          · exact namesSafe_error _ _
          · exact storeVersions_safe hv.toSized (hv.sections_inFile .versions) _
              (fun i hi => List.mem_range.mp hi) [] (by simp)

/-! ## `__ksymtab_strings` -/

theorem skipZeroPadding_ok (memory : List UInt8) :
    ∀ size strings, strings + size ≤ memory.length →
      ∃ strings' size', skipZeroPadding memory strings size = .ok (strings', size') ∧
        strings' + size' ≤ memory.length := by
  intro size
  induction size with
  | zero => intro strings h; exact ⟨strings, 0, by unfold skipZeroPadding; rfl, h⟩
  | succ size ih =>
    intro strings h
    cases size with
    | zero => exact ⟨strings, 1, by unfold skipZeroPadding; rfl, h⟩
    | succ size =>
      unfold skipZeroPadding
      rw [List.getElem?_eq_getElem (by omega), inBlock_some, ok_bind]
      split
      · exact ih (strings + 1) (by omega)
      · exact ⟨strings, size + 2, rfl, h⟩

/-- The loop over the strings, which keeps what each string that is found keeps. -/
theorem eachString_ok {σ : Type} (memory : List UInt8) (strings : Nat) (found : σ → Nat → σ)
    (Inv : σ → Prop) (hstep : ∀ s last, Inv s → 0 ∈ memory.drop (strings + last) →
      Inv (found s (strings + last))) (k : Nat) :
    ∀ i last s, strings + (i + k) ≤ memory.length → last ≤ i → Inv s →
      ∃ s', eachString memory strings found (List.range' i k) last s = .ok s' ∧ Inv s' := by
  induction k with
  | zero => intro i last s _ _ hs; exact ⟨s, rfl, hs⟩
  | succ k ih =>
    intro i last s hlen hlast hs
    rw [List.range'_succ]
    unfold eachString
    rw [List.getElem?_eq_getElem (by omega), inBlock_some, ok_bind]
    split
    · next hnul =>
      refine ih (i + 1) (i + 1) _ (by omega) (by omega) ?_
      split
      · exact hs
      · refine hstep s last hs ?_
        -- the string from `last` on ends at `i`
        refine List.mem_iff_getElem?.mpr ⟨i - last, ?_⟩
        rw [List.getElem?_drop, show strings + last + (i - last) = strings + i by omega,
          List.getElem?_eq_getElem (by omega), hnul]
    · exact ih (i + 1) last s (by omega) (by omega) hs

/-- **The fallback is always safe.** -/
theorem kmodElfGetSymbolsSymtab_safe {elf : KmodElf} (hv : elf.Valid) (malloc : Nat → Bool) :
    NamesSafe elf.memory (kmodElfGetSymbolsSymtab malloc elf) := by
  have hsec := hv.sections_inFile .ksymtab
  have hle := hv.le
  unfold kmodElfGetSymbolsSymtab
  dsimp only
  split
  · exact namesSafe_error _ _
  · obtain ⟨strings, size, hskip, hin⟩ := skipZeroPadding_ok elf.memory
      (elf.sections .ksymtab).size (elf.sections .ksymtab).offset (by omega)
    rw [hskip, ok_bind]
    dsimp only
    split
    · exact namesSafe_ok.mpr (by simp)
    · rw [List.getElem?_eq_getElem (by omega), inBlock_some, ok_bind]
      split
      · exact namesSafe_error _ _
      · obtain ⟨count, hcount, _⟩ := eachString_ok elf.memory strings (fun count _ => count + 1)
          (fun _ => True) (fun _ _ _ _ => trivial) size 0 0 0 (by omega) (Nat.le_refl _) trivial
        rw [List.range_eq_range', hcount, ok_bind]
        split
        · exact namesSafe_error _ _
        · split
          · exact namesSafe_error _ _
          · obtain ⟨a, ha, hnames⟩ := eachString_ok elf.memory strings
              (fun a last => a ++ [(⟨0, .globalBind, last⟩ : KmodModversion)])
              (fun a => ∀ m ∈ a, 0 ∈ elf.memory.drop m.symbol)
              (by
                intro a last ha hlast m hm
                rcases List.mem_append.mp hm with hm | hm
                · exact ha m hm
                · rw [List.mem_singleton.mp hm]
                  exact hlast)
              size 0 0 [] (by omega) (Nat.le_refl _) (by simp)
            rw [ha, ok_bind]
            exact namesSafe_ok.mpr hnames

/-! ## Symbols -/

/-- A field of a symbol. -/
def symField (elf : KmodElf) (i : Nat) (f : Bool → ElfField) : Nat :=
  fieldAt elf.memory elf.msb ((elf.sections .symtab).offset + i * symSize elf.x32) (f elf.x32)

/-- The name of a symbol starts in `.strtab`. -/
def symNamed (elf : KmodElf) (i : Nat) : Bool :=
  decide (symField elf i stName < (elf.sections .strtab).size)

/-- The rest of the file from the name of a symbol on. -/
def symTail (elf : KmodElf) (i : Nat) : List UInt8 :=
  elf.memory.drop ((elf.sections .strtab).offset + symField elf i stName)

theorem stName_within : ElfField.Within stName symSize := by unfold ElfField.Within; decide
theorem stValue_within : ElfField.Within stValue symSize := by unfold ElfField.Within; decide
theorem stInfo_within : ElfField.Within stInfo symSize := by unfold ElfField.Within; decide
theorem stShndx_within : ElfField.Within stShndx symSize := by unfold ElfField.Within; decide

section Symbols

variable {elf : KmodElf} (hv : elf.Valid) {i : Nat}

include hv

/-- The symbols of the table can be read. -/
theorem readv_sym (hi : i ∈ symIndexes elf) {f : Bool → ElfField} (hf : ElfField.Within f symSize) :
    readv elf (symOff elf i) f = .ok (symField elf i f) := by
  have hsec := hv.sections_inFile .symtab
  have hlt := hv.lt
  have hle : i * symSize elf.x32 + symSize elf.x32 ≤ (elf.sections .symtab).size := by
    unfold symIndexes at hi
    rw [List.mem_range'_1] at hi
    exact entry_le (by omega)
  have hpos : 0 < symSize elf.x32 := by cases elf.x32 <;> decide
  unfold symOff symField
  rw [u64_of_lt (by omega)]
  exact readv_eq hv.toSized hf (by omega)

/-- A name in `.strtab` is in the file. -/
theorem symName_eq (hn : symNamed elf i = true) :
    symName elf (symField elf i stName) = (elf.sections .strtab).offset + symField elf i stName ∧
      symName elf (symField elf i stName) < elf.memory.length := by
  have hsec := hv.sections_inFile .strtab
  have hlt := hv.lt
  have hle := hv.le
  have hn := of_decide_eq_true hn
  unfold symName
  rw [u64_of_lt (by omega)]
  exact ⟨rfl, by omega⟩

theorem startsWithAt_sym (hn : symNamed elf i = true) (s : CStr) :
    startsWithAt elf.memory s (symName elf (symField elf i stName)) =
      inBlock (startsWithTail s (symTail elf i)) := by
  unfold startsWithAt symTail
  rw [(symName_eq hv hn).1]

end Symbols

/-- The file ends before it is clear whether the symbol is a CRC. -/
def crcCut (elf : KmodElf) (i : Nat) : Bool :=
  decide (symTail elf i <+: crcStr ∧ symTail elf i ≠ crcStr)

/-- The symbol is a CRC. -/
def isCrc (elf : KmodElf) (i : Nat) : Bool := decide (crcStr <+: symTail elf i)

/-- The section index of a CRC symbol is that of a section, or none is needed. -/
def crcResolves (elf : KmodElf) (i : Nat) : Bool :=
  decide (symField elf i stShndx = SHN_ABS ∨ symField elf i stShndx = SHN_UNDEF ∨
    symField elf i stShndx < elf.sectionCount)

theorem startsWithTail_sym {elf : KmodElf} {i : Nat} (h : crcCut elf i = false) :
    startsWithTail crcStr (symTail elf i) = some (isCrc elf i) :=
  startsWithTail_eq (of_decide_eq_false h)

section Crcs

variable {elf : KmodElf} (hv : elf.Valid)

include hv

/-- One symbol of the first loop. -/
theorem countCrcs_cons {i : Nat} (hi : i ∈ symIndexes elf) (is : List Nat) (count : Nat) :
    countCrcs elf (i :: is) count =
      if symNamed elf i = false then .ok none
      else inBlock (startsWithTail crcStr (symTail elf i)) >>= fun crc =>
        countCrcs elf is (if crc then count + 1 else count) := by
  rw [countCrcs, readv_sym hv hi stName_within, ok_bind]
  by_cases hn : symNamed elf i = true
  · rw [if_neg (Nat.not_le.mpr (of_decide_eq_true hn)), if_neg (by simp [hn]),
      startsWithAt_sym hv hn]
  · rw [Bool.not_eq_true] at hn
    rw [if_pos hn, if_pos (Nat.le_of_not_lt (of_decide_eq_false hn))]

/-- The first loop where no name is cut off: it gives up if a name is not in `.strtab`. -/
theorem countCrcs_ok : ∀ is, (∀ i ∈ is, i ∈ symIndexes elf) →
    (∀ i ∈ is.takeWhile (symNamed elf), crcCut elf i = false) → ∀ count,
      countCrcs elf is count =
        .ok (if ∀ i ∈ is, symNamed elf i = true then some (count + (is.filter (isCrc elf)).length)
          else none) := by
  intro is
  induction is with
  | nil => intro _ _ count; simp [countCrcs]
  | cons i is ih =>
    intro his hcut count
    obtain ⟨hi, his⟩ := List.forall_mem_cons.mp his
    rw [countCrcs_cons hv hi]
    cases hn : symNamed elf i with
    | false => simp [hn]
    | true =>
      rw [List.takeWhile_cons_of_pos hn, List.forall_mem_cons] at hcut
      rw [if_neg (by simp), startsWithTail_sym hcut.1, inBlock_some, ok_bind, ih his hcut.2]
      cases hc : isCrc elf i with
      | false => simp [hn, hc]
      | true => simp [hn, hc, Nat.add_comm, Nat.add_left_comm]

/-- The first loop leaves the file at a name that is cut off. -/
theorem countCrcs_fault : ∀ is, (∀ i ∈ is, i ∈ symIndexes elf) →
    (∃ i ∈ is.takeWhile (symNamed elf), crcCut elf i = true) → ∀ count,
      ∃ f, countCrcs elf is count = .error f := by
  intro is
  induction is with
  | nil => intro _ ⟨i, hi, _⟩; cases hi
  | cons i is ih =>
    intro his ⟨j, hj, hcut⟩ count
    obtain ⟨hi, his⟩ := List.forall_mem_cons.mp his
    have hrest := ih his
    rw [countCrcs_cons hv hi]
    cases hn : symNamed elf i with
    | false => simp [hn] at hj
    | true =>
      rw [if_neg (by simp)]
      cases hc : crcCut elf i with
      | true =>
        rw [(startsWithTail_eq_none _ _).mpr (of_decide_eq_true hc)]
        exact ⟨_, rfl⟩
      | false =>
        rw [startsWithTail_sym hc, inBlock_some, ok_bind]
        rw [List.takeWhile_cons_of_pos hn] at hj
        rcases List.mem_cons.mp hj with rfl | hj
        · rw [hc] at hcut
          cases hcut
        · exact hrest ⟨j, hj, hcut⟩ _

/-- A CRC is found in its section, or it is not in it. -/
theorem kmodElfResolveCrc_ok {crc shndx : Nat}
    (h : shndx = SHN_ABS ∨ shndx = SHN_UNDEF ∨ shndx < elf.sectionCount) :
    ∃ crc', kmodElfResolveCrc elf crc shndx = .ok crc' := by
  unfold kmodElfResolveCrc
  split
  · exact ⟨_, rfl⟩
  · next hne =>
    rw [not_or] at hne
    have hcount : shndx < elf.sectionCount := by
      rcases h with h | h | h
      · exact absurd h hne.1
      · exact absurd h hne.2
      · exact h
    obtain ⟨r, hr, hok⟩ := elfGetSectionInfo_spec hv.toSized toLocals (fun _ _ => rfl)
      (Nat.one_le_iff_ne_zero.mpr hne.2) hcount
    rw [hr, ok_bind]
    cases r with
    | error e => exact ⟨_, rfl⟩
    | ok p =>
      obtain ⟨elf', info⟩ := p
      obtain ⟨hstore, hread⟩ := hok elf' info rfl
      have helf : elf' = elf := hstore
      have hin := helf ▸ hread.inFile
      have hle := hv.le
      have hlt := hv.lt
      dsimp only
      split
      · exact ⟨_, rfl⟩
      · next hsize =>
        rw [u64_of_lt (by omega)]
        exact ⟨_, elfGetUint_eq (by omega) (by omega)⟩

omit hv in
/-- The index of no section. -/
theorem kmodElfResolveCrc_fault {crc shndx : Nat}
    (h : ¬ (shndx = SHN_ABS ∨ shndx = SHN_UNDEF ∨ shndx < elf.sectionCount)) :
    ∃ f, kmodElfResolveCrc elf crc shndx = .error f := by
  rw [not_or, not_or] at h
  unfold kmodElfResolveCrc
  rw [if_neg (by rw [not_or]; exact ⟨h.1, h.2.1⟩),
    elfGetSectionInfo_assert (.inr (Nat.le_of_not_lt h.2.2))]
  exact ⟨_, rfl⟩

/-- One symbol of the second loop. -/
theorem storeCrcs_cons {i : Nat} (hi : i ∈ symIndexes elf) (hn : symNamed elf i = true)
    (hcut : crcCut elf i = false) (is : List Nat) (a : List KmodModversion) :
    storeCrcs elf (i :: is) a =
      if isCrc elf i = false then storeCrcs elf is a
      else kmodElfResolveCrc elf (symField elf i stValue) (symField elf i stShndx) >>= fun crc =>
        storeCrcs elf is (a ++ [⟨crc, kmodSymbolBindFromElf (symField elf i stInfo / 16),
          (elf.sections .strtab).offset + symField elf i stName + crcStr.length⟩]) := by
  rw [storeCrcs, readv_sym hv hi stName_within, ok_bind, readv_sym hv hi stValue_within, ok_bind,
    readv_sym hv hi stInfo_within, ok_bind, readv_sym hv hi stShndx_within, ok_bind,
    startsWithAt_sym hv hn, startsWithTail_sym hcut, inBlock_some, ok_bind, (symName_eq hv hn).1]

theorem storeCrcs_ok : ∀ is, (∀ i ∈ is, i ∈ symIndexes elf) →
    (∀ i ∈ is, symNamed elf i = true ∧ crcCut elf i = false) →
    (∀ i ∈ is, isCrc elf i = true → crcResolves elf i = true) → ∀ a,
      ∃ a', storeCrcs elf is a = .ok (a ++ a') ∧ a'.map KmodModversion.symbol =
        (is.filter (isCrc elf)).map (fun i =>
          (elf.sections .strtab).offset + symField elf i stName + crcStr.length) := by
  intro is
  induction is with
  | nil => intro _ _ _ a; exact ⟨[], by simp [storeCrcs], rfl⟩
  | cons i is ih =>
    intro his hread hres a
    obtain ⟨hi, his⟩ := List.forall_mem_cons.mp his
    obtain ⟨⟨hn, hcut⟩, hread⟩ := List.forall_mem_cons.mp hread
    obtain ⟨hresi, hres⟩ := List.forall_mem_cons.mp hres
    have hrest := ih his hread hres
    rw [storeCrcs_cons hv hi hn hcut]
    cases hc : isCrc elf i with
    | false =>
      rw [if_pos rfl, List.filter_cons_of_neg (by simp [hc])]
      exact hrest a
    | true =>
      obtain ⟨crc, hcrc⟩ := kmodElfResolveCrc_ok hv (of_decide_eq_true (hresi hc))
      rw [if_neg (by simp), hcrc, ok_bind, List.filter_cons_of_pos hc]
      obtain ⟨a', ha, hnames⟩ := hrest _
      refine ⟨_ :: a', by rw [ha, List.append_assoc]; rfl, ?_⟩
      rw [List.map_cons, List.map_cons, hnames]

theorem storeCrcs_fault : ∀ is, (∀ i ∈ is, i ∈ symIndexes elf) →
    (∀ i ∈ is, symNamed elf i = true ∧ crcCut elf i = false) →
    (∃ i ∈ is, isCrc elf i = true ∧ crcResolves elf i = false) → ∀ a,
      ∃ f, storeCrcs elf is a = .error f := by
  intro is
  induction is with
  | nil => intro _ _ ⟨i, hi, _⟩; cases hi
  | cons i is ih =>
    intro his hread ⟨j, hj, hcj, hrj⟩ a
    obtain ⟨hi, his⟩ := List.forall_mem_cons.mp his
    obtain ⟨⟨hn, hcut⟩, hread⟩ := List.forall_mem_cons.mp hread
    have hrest := ih his hread
    rw [storeCrcs_cons hv hi hn hcut]
    cases hc : isCrc elf i with
    | false =>
      rw [if_pos rfl]
      rcases List.mem_cons.mp hj with rfl | hj
      · rw [hc] at hcj
        cases hcj
      · exact hrest ⟨j, hj, hcj, hrj⟩ a
    | true =>
      rw [if_neg (by simp)]
      cases hr : crcResolves elf i with
      | false =>
        obtain ⟨f, hf⟩ := kmodElfResolveCrc_fault (of_decide_eq_false hr)
        rw [hf, error_bind]
        exact ⟨f, rfl⟩
      | true =>
        obtain ⟨crc, hcrc⟩ := kmodElfResolveCrc_ok hv (of_decide_eq_true hr)
        rw [hcrc, ok_bind]
        rcases List.mem_cons.mp hj with rfl | hj
        · rw [hr] at hrj
          cases hrj
        · exact hrest ⟨j, hj, hcj, hrj⟩ _

end Crcs

/--
The symbol table can be searched for CRCs. The search ends at the first name that is not in
`.strtab`, and only if there is none are the CRCs themselves looked at.
-/
structure SymbolsReadable (elf : KmodElf) : Prop where
  uncut : hasSymtab elf = true →
    ∀ i ∈ (symIndexes elf).takeWhile (symNamed elf), crcCut elf i = false
  crcs : hasSymtab elf = true → (∀ i ∈ symIndexes elf, symNamed elf i = true) →
    ∀ i ∈ symIndexes elf, isCrc elf i = true → crcResolves elf i = true ∧ 0 ∈ symTail elf i

/-- There is no NUL in `__crc_`, so a name ends behind it if it ends at all. -/
theorem nul_mem_behind_crc {elf : KmodElf} {i : Nat} (h : isCrc elf i = true) :
    0 ∈ elf.memory.drop ((elf.sections .strtab).offset + symField elf i stName + crcStr.length) ↔
      0 ∈ symTail elf i := by
  obtain ⟨t, ht⟩ := of_decide_eq_true h
  rw [← List.drop_drop]
  change 0 ∈ (symTail elf i).drop crcStr.length ↔ 0 ∈ symTail elf i
  rw [← ht, List.drop_left, List.mem_append]
  have : 0 ∉ crcStr := by decide
  simp [this]

theorem kmodElfGetSymbols_safe {elf : KmodElf} (hv : elf.Valid) (h : SymbolsReadable elf)
    (malloc : Nat → Bool) : NamesSafe elf.memory (kmodElfGetSymbols malloc elf) := by
  have hfallback := kmodElfGetSymbolsSymtab_safe hv malloc
  unfold kmodElfGetSymbols
  cases htab : hasSymtab elf with
  | false => exact hfallback
  | true =>
    have huncut := h.uncut htab
    rw [if_neg (by simp), countCrcs_ok hv _ (fun _ hi => hi) huncut, ok_bind]
    split
    · exact hfallback
    · next count hcount =>
      split at hcount
      · next hall =>
        have hread := forall_of_takeWhile hall huncut
        split
        · exact hfallback
        · split
          · exact namesSafe_error _ _
          · obtain ⟨a, ha, hnames⟩ := storeCrcs_ok hv (symIndexes elf) (fun _ hi => hi) hread
              (fun i hi hc => (h.crcs htab hall i hi hc).1) []
            rw [ha, ok_bind]
            refine namesSafe_ok.mpr ?_
            intro m hm
            have hm := List.mem_map_of_mem (f := KmodModversion.symbol) hm
            rw [List.nil_append, hnames, List.mem_map] at hm
            obtain ⟨i, hi, hname⟩ := hm
            obtain ⟨hi, hc⟩ := List.mem_filter.mp hi
            rw [← hname, nul_mem_behind_crc hc]
            exact (h.crcs htab hall i hi hc).2
      · cases hcount

theorem symbolsReadable_of_safe {elf : KmodElf} (hv : elf.Valid)
    (h : NamesSafe elf.memory (kmodElfGetSymbols (fun _ => true) elf)) : SymbolsReadable elf := by
  have huncut : hasSymtab elf = true →
      ∀ i ∈ (symIndexes elf).takeWhile (symNamed elf), crcCut elf i = false := by
    intro htab i hi
    by_contra hcut
    rw [Bool.not_eq_false] at hcut
    obtain ⟨f, hf⟩ := countCrcs_fault hv (symIndexes elf) (fun _ hi => hi) ⟨i, hi, hcut⟩ 0
    unfold kmodElfGetSymbols at h
    rw [if_neg (by simp [htab]), hf, error_bind] at h
    exact not_namesSafe_fault _ _ h
  refine ⟨huncut, ?_⟩
  intro htab hall i hi hc
  have hread := forall_of_takeWhile hall (huncut htab)
  have hcount : 0 + ((symIndexes elf).filter (isCrc elf)).length ≠ 0 := by
    rw [Nat.zero_add, Ne, List.length_eq_zero_iff]
    exact List.ne_nil_of_mem (List.mem_filter.mpr ⟨hi, hc⟩)
  unfold kmodElfGetSymbols at h
  rw [if_neg (by simp [htab]), countCrcs_ok hv _ (fun _ hi => hi) (huncut htab), ok_bind,
    if_pos hall] at h
  dsimp only at h
  rw [if_neg hcount, if_neg (by simp)] at h
  have hres : ∀ j ∈ symIndexes elf, isCrc elf j = true → crcResolves elf j = true := by
    intro j hj hcj
    by_contra hrj
    rw [Bool.not_eq_true] at hrj
    obtain ⟨f, hf⟩ :=
      storeCrcs_fault hv (symIndexes elf) (fun _ hi => hi) hread ⟨j, hj, hcj, hrj⟩ []
    rw [hf, error_bind] at h
    exact not_namesSafe_fault _ _ h
  refine ⟨hres i hi hc, ?_⟩
  obtain ⟨a, ha, hnames⟩ := storeCrcs_ok hv (symIndexes elf) (fun _ hi => hi) hread hres []
  rw [ha, ok_bind, namesSafe_ok, List.nil_append] at h
  -- the name of this symbol is one of those returned
  have hmem := List.mem_map_of_mem (f := fun i =>
    (elf.sections .strtab).offset + symField elf i stName + crcStr.length)
    (List.mem_filter.mpr ⟨hi, hc⟩)
  rw [← hnames, List.mem_map] at hmem
  obtain ⟨m, hm, hname⟩ := hmem
  rw [← nul_mem_behind_crc hc, ← hname]
  exact h m hm

end Kmod
