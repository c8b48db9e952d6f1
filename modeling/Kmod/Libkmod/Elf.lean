import Kmod.Base
import Kmod.Lib.ByteScan

/-!
# Opening a module file

`kmod_elf_new` identifies the ELF class and byte order of a mapped file, reads its
header, and notes where the sections lie that libkmod needs. Every number it reads
is the file's own, so each use of one as an offset or a length is checked against
the size of the file first.

Offsets and sizes are 64-bit numbers: sums of them are taken modulo `2 ^ 64`. A read
of a byte that is not in the file is a fault, and so is an `assert` that fails.
-/

namespace Kmod

open Kmod.Memory Kmod.ByteScan

/-- The value of a `uint64_t` that is assigned `n`. -/
def u64 (n : Nat) : Nat := n % 18446744073709551616

theorem u64_of_lt {n : Nat} (h : n < 18446744073709551616) : u64 n = n := Nat.mod_eq_of_lt h

/-! ## Layouts -/

/-- Offset and size of a field in a structure of `elf.h`. -/
structure ElfField where
  offset : Nat
  size : Nat

/-- A field of the structure for either class. -/
def field (offset32 size32 offset64 size64 : Nat) (x32 : Bool) : ElfField :=
  if x32 then ⟨offset32, size32⟩ else ⟨offset64, size64⟩

/-- `sizeof(Elf32_Ehdr)` and `sizeof(Elf64_Ehdr)` -/
def ehdrSize (x32 : Bool) : Nat := if x32 then 52 else 64

def eMachine : Bool → ElfField := field 18 2 18 2
def eShoff : Bool → ElfField := field 32 4 40 8
def eShentsize : Bool → ElfField := field 46 2 58 2
def eShnum : Bool → ElfField := field 48 2 60 2
def eShstrndx : Bool → ElfField := field 50 2 62 2

/-- `sizeof(Elf32_Shdr)` and `sizeof(Elf64_Shdr)` -/
def shdrSize (x32 : Bool) : Nat := if x32 then 40 else 64

def shName : Bool → ElfField := field 0 4 0 4
def shOffset : Bool → ElfField := field 16 4 24 8
def shSize : Bool → ElfField := field 20 4 32 8

/-! ## The parsed file -/

/-- `enum kmod_elf_section` -/
inductive KmodElfSection where
  | ksymtab | modinfo | strtab | symtab | versions | buildId
  deriving DecidableEq, Repr

/-- The sections in the order of the enumeration. -/
def kmodElfSections : List KmodElfSection :=
  [.ksymtab, .modinfo, .strtab, .symtab, .versions, .buildId]

def sectionNameMap : KmodElfSection → CStr
  | .ksymtab => cstr "__ksymtab_strings"
  | .modinfo => cstr ".modinfo"
  | .strtab => cstr ".strtab"
  | .symtab => cstr ".symtab"
  | .versions => cstr "__versions"
  | .buildId => cstr ".note.gnu.build-id"

/-- Where a section lies in the file. -/
structure SectionRange where
  offset : Nat
  size : Nat
  deriving DecidableEq, Repr

/--
`struct kmod_elf`. The sections that were found are a list; one that was not has the
offset and the size 0.
-/
structure KmodElf where
  memory : List UInt8
  size : Nat
  x32 : Bool
  msb : Bool
  sectionOffset : Nat
  sectionCount : Nat
  sectionEntrySize : Nat
  /-- Index of the strings section. -/
  stringsSection : Nat
  stringsSize : Nat
  stringsOffset : Nat
  machine : Nat
  found : List (KmodElfSection × SectionRange)
  deriving DecidableEq, Repr

/-- `elf->sections[sec]` -/
def KmodElf.sections (elf : KmodElf) (sec : KmodElfSection) : SectionRange :=
  (elf.found.lookup sec).getD ⟨0, 0⟩

/-! ## Reading -/

/-- `elf_identify`: the class and the byte order. -/
def elfIdentify (memory : List UInt8) (size : Nat) : Except Fault (Except Int (Bool × Bool)) :=
  if size ≤ 16 then .ok (.error (-ENOEXEC))
  else do
    let magic ← inBlock (getRange memory 0 4)
    if magic ≠ [0x7f, 0x45, 0x4c, 0x46] then .ok (.error (-ENOEXEC))
    else do
      let eiClass ← inBlock memory[4]?
      if eiClass ≠ 1 ∧ eiClass ≠ 2 then .ok (.error (-EINVAL))
      else
        let x32 := eiClass == 1
        if size ≤ ehdrSize x32 then .ok (.error (-EINVAL))
        else do
          let eiData ← inBlock memory[5]?
          if eiData = 1 then .ok (.ok (x32, false))
          else if eiData = 2 then .ok (.ok (x32, true))
          else .ok (.error (-EINVAL))

/-- `elf_range_valid` -/
def elfRangeValid (elf : KmodElf) (offset size : Nat) : Bool :=
  decide (offset + size < 18446744073709551616 ∧ offset + size ≤ elf.size)

/-- `elf_get_uint` -/
def elfGetUint (elf : KmodElf) (offset size : Nat) : Except Fault Nat :=
  if size ≤ 8 then do
    let p ← inBlock (getRange elf.memory offset size)
    .ok (uintOf elf.msb p)
  else .error .assertFailed

/-- `READV`: a field of the structure at an offset. -/
def readv (elf : KmodElf) (off : Nat) (f : Bool → ElfField) : Except Fault Nat :=
  elfGetUint elf (u64 (off + (f elf.x32).offset)) (f elf.x32).size

/-- `elf_get_section_header_offset` -/
def elfGetSectionHeaderOffset (elf : KmodElf) (idx : Nat) : Except Fault Nat :=
  if idx = 0 then .error .assertFailed
  else if idx < elf.sectionCount then .ok (u64 (elf.sectionOffset + idx * elf.sectionEntrySize))
  else .error .assertFailed

/-- What is read about a section; the name is an offset in the file. -/
structure SectionInfo where
  offset : Nat
  size : Nat
  name : Nat
  deriving DecidableEq, Repr

/--
`elf_get_section_info`. `store` is what the assignments to `*size` and `*offset` do to
`*elf`: the caller may have passed pointers into it.
-/
def elfGetSectionInfo (store : KmodElf → Nat → Nat → KmodElf) (elf : KmodElf) (idx : Nat) :
    Except Fault (Except Int (KmodElf × SectionInfo)) := do
  let off ← elfGetSectionHeaderOffset elf idx
  if off = 0 then .ok (.error (-EINVAL))
  else if elfRangeValid elf off (shdrSize elf.x32) = false then .ok (.error (-EINVAL))
  else do
    let size ← readv elf off shSize
    let offset ← readv elf off shOffset
    let nameoff ← readv elf off shName
    let elf := store elf size offset
    if elfRangeValid elf offset size = false then .ok (.error (-EINVAL))
    else if nameoff ≥ elf.stringsSize then .ok (.error (-EINVAL))
    else .ok (.ok (elf, ⟨offset, size, u64 (elf.stringsOffset + nameoff)⟩))

/-- The results go to variables of the caller. -/
def toLocals (elf : KmodElf) (_ _ : Nat) : KmodElf := elf

/-- The results go to `elf->header.strings`. -/
def toStrings (elf : KmodElf) (size offset : Nat) : KmodElf :=
  { elf with stringsSize := size, stringsOffset := offset }

/-! ## Opening -/

/-- `streq` of a constant and the string at an offset. -/
def streqAt (memory : List UInt8) (s : CStr) (p : Nat) : Except Fault Bool :=
  inBlock (streqTails (s ++ [0]) (memory.drop p))

/-- The first of the sections not found yet that has the name at an offset. -/
def matchSection (memory : List UInt8) (name : Nat) (found : List KmodElfSection) :
    List KmodElfSection → Except Fault (Option KmodElfSection)
  | [] => .ok none
  | sec :: secs =>
    if sec ∈ found then matchSection memory name found secs
    else do
      let eq ← streqAt memory (sectionNameMap sec) name
      if eq then .ok (some sec) else matchSection memory name found secs

/-- `kmod_elf_save_sections` from some section on: the sections found. -/
def kmodElfSaveSections (elf : KmodElf) :
    List Nat → List (KmodElfSection × SectionRange) →
      Except Fault (List (KmodElfSection × SectionRange))
  | [], found => .ok found
  | i :: is, found =>
    -- found_sec != all_sec
    if ∀ sec ∈ kmodElfSections, sec ∈ found.map Prod.fst then .ok found
    else do
      let r ← elfGetSectionInfo toLocals elf i
      match r with
      | .error _ => kmodElfSaveSections elf is found
      | .ok (_, info) => do
        let sec ← matchSection elf.memory info.name (found.map Prod.fst) kmodElfSections
        match sec with
        | none => kmodElfSaveSections elf is found
        | some sec => kmodElfSaveSections elf is ((sec, ⟨info.offset, info.size⟩) :: found)

/-- The file before anything of it is read. -/
def kmodElfInit (memory : List UInt8) (x32 msb : Bool) : KmodElf :=
  { memory := memory, size := u64 memory.length, x32 := x32, msb := msb, sectionOffset := 0,
    sectionCount := 0, sectionEntrySize := 0, stringsSection := 0, stringsSize := 0,
    stringsOffset := 0, machine := 0, found := [] }

/-- `LOAD_HEADER` -/
def loadHeader (elf : KmodElf) : Except Fault KmodElf := do
  let shoff ← readv elf 0 eShoff
  let shnum ← readv elf 0 eShnum
  let shentsize ← readv elf 0 eShentsize
  let shstrndx ← readv elf 0 eShstrndx
  let machine ← readv elf 0 eMachine
  .ok { elf with
    sectionOffset := shoff, sectionCount := shnum, sectionEntrySize := shentsize,
    stringsSection := shstrndx, machine := machine }

/-- `kmod_elf_new` from the checked header on. -/
def kmodElfOpen (elf : KmodElf) : Except Fault (Except Int KmodElf) :=
  if elf.sectionEntrySize ≠ shdrSize elf.x32 then .ok (.error (-EINVAL))
  else if elfRangeValid elf elf.sectionOffset (u64 (shdrSize elf.x32 * elf.sectionCount)) = false
  then .ok (.error (-EINVAL))
  else do
    let r ← elfGetSectionInfo toStrings elf elf.stringsSection
    match r with
    | .error _ => .ok (.error (-EINVAL))
    | .ok (elf, _) =>
      let slen := elf.stringsSize
      if slen = 0 then .ok (.error (-EINVAL))
      else do
        let last ← inBlock elf.memory[u64 (elf.stringsOffset + (slen - 1))]?
        if last ≠ 0 then .ok (.error (-EINVAL))
        else do
          let found ← kmodElfSaveSections elf (List.range' 1 (elf.sectionCount - 1)) []
          .ok (.ok { elf with found := found })

/-- `kmod_elf_new`; `allocated` is whether there is memory for the result. -/
def kmodElfNew (allocated : Bool) (memory : List UInt8) : Except Fault (Except Int KmodElf) :=
  if allocated = false then .ok (.error (-ENOMEM))
  else do
    let r ← elfIdentify memory (u64 memory.length)
    match r with
    | .error err => .ok (.error err)
    | .ok (x32, msb) =>
      let elf := kmodElfInit memory x32 msb
      if elfRangeValid elf 0 (ehdrSize x32) = false then .ok (.error (-EINVAL))
      else do
        let elf ← loadHeader elf
        kmodElfOpen elf

end Kmod
