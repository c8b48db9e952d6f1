import Kmod.Libkmod.Elf

/-!
# Symbols, versions and the build id

The accessors of an opened file. `kmod_elf_get_modversions` reads the `__versions`
section; `kmod_elf_get_symbols` the symbols of the module that have a CRC, from the
symbol table or from `__ksymtab_strings`; `kmod_elf_get_dependency_symbols` the symbols
the module needs, with their CRCs; and `kmod_elf_get_build_id` a note.

An accessor gives symbols with names that are pointers into the file. `malloc n` is
whether its `n`-th allocation succeeds.
-/

namespace Kmod

open Kmod.Memory Kmod.ByteScan

/-! ## Layouts -/

/-- `sizeof(Elf32_Sym)` and `sizeof(Elf64_Sym)` -/
def symSize (x32 : Bool) : Nat := if x32 then 16 else 24

def stName : Bool → ElfField := field 0 4 0 4
def stValue : Bool → ElfField := field 4 4 8 8
def stInfo : Bool → ElfField := field 12 1 4 1
def stShndx : Bool → ElfField := field 14 2 6 2

/-- `verlen` of `elf_get_modversion_lengths`, for both classes -/
def verlen : Nat := 64

/-- `crclen` of `elf_get_modversion_lengths` -/
def crclen (x32 : Bool) : Nat := if x32 then 4 else 8

/-- `namlen` of `elf_get_modversion_lengths` -/
def namlen (x32 : Bool) : Nat := verlen - crclen x32

def SHN_UNDEF : Nat := 0
def SHN_ABS : Nat := 0xfff1
def STT_REGISTER : Nat := 13
def EM_SPARC : Nat := 2
def EM_SPARCV9 : Nat := 43
def NT_GNU_BUILD_ID : Nat := 3

/-- `enum kmod_symbol_bind` -/
inductive KmodSymbolBind where
  | none | localBind | globalBind | weak | undef
  deriving DecidableEq, Repr

/-- `kmod_symbol_bind_from_elf` -/
def kmodSymbolBindFromElf (elfValue : Nat) : KmodSymbolBind :=
  match elfValue with
  | 0 => .localBind
  | 1 => .globalBind
  | 2 => .weak
  | _ => .none

/-- `struct kmod_modversion`; the symbol is an offset in the file. -/
structure KmodModversion where
  crc : Nat
  bind : KmodSymbolBind
  symbol : Nat
  deriving DecidableEq, Repr

/-- What an accessor of symbols gives. -/
abbrev SymbolsResult := Except Fault (Except Int (List KmodModversion))

/-! ## Strings in the file -/

/-- `strstartswith` -/
def startsWithAt (memory : List UInt8) (s : CStr) (p : Nat) : Except Fault Bool :=
  inBlock (startsWithTail s (memory.drop p))

/-- `strnlen` -/
def strnlenAt (memory : List UInt8) (p n : Nat) : Except Fault Nat :=
  inBlock (strnlenTail n (memory.drop p))

/-! ## Versions -/

/-- The loop of `kmod_elf_get_modversions`. -/
def storeVersions (elf : KmodElf) (secOff : Nat) :
    List Nat → List KmodModversion → SymbolsResult
  | [], a => .ok (.ok a)
  | i :: is, a => do
    let off := u64 (secOff + i * verlen)
    let crc ← elfGetUint elf off (crclen elf.x32)
    let symbol := u64 (off + crclen elf.x32)
    let nlen ← strnlenAt elf.memory symbol (namlen elf.x32)
    if nlen = namlen elf.x32 then .ok (.error (-EINVAL))
    else do
      let c ← inBlock elf.memory[symbol]?
      let symbol := if c = 46 then symbol + 1 else symbol
      storeVersions elf secOff is (a ++ [⟨crc, .undef, symbol⟩])

/-- `kmod_elf_get_modversions` -/
def kmodElfGetModversions (malloc : Nat → Bool) (elf : KmodElf) : SymbolsResult :=
  let sec := elf.sections .versions
  if sec.offset = 0 then .ok (.error (-ENODATA))
  else if sec.size = 0 then .ok (.ok [])
  else if sec.size % verlen ≠ 0 then .ok (.error (-EINVAL))
  else
    let count := sec.size / verlen
    if count > INT_MAX then .ok (.error (-EINVAL))
    else if malloc 0 = false then .ok (.error (-ENOMEM))
    else storeVersions elf sec.offset (List.range count) []

/-! ## Exported symbols -/

/-- Skip zero padding: the offset and the size of what is left. -/
def skipZeroPadding (memory : List UInt8) : Nat → Nat → Except Fault (Nat × Nat)
  | strings, 0 => .ok (strings, 0)
  | strings, 1 => .ok (strings, 1)
  | strings, size + 2 => do
    let c ← inBlock memory[strings]?
    if c = 0 then skipZeroPadding memory (strings + 1) (size + 1) else .ok (strings, size + 2)

/-- The strings of a section that are not empty, in turn; `last` is where the current one starts. -/
def eachString {σ : Type} (memory : List UInt8) (strings : Nat) (found : σ → Nat → σ) :
    List Nat → Nat → σ → Except Fault σ
  | [], _, s => .ok s
  | i :: is, last, s => do
    let c ← inBlock memory[strings + i]?
    if c = 0 then
      eachString memory strings found is (i + 1) (if last = i then s else found s (strings + last))
    else eachString memory strings found is last s

/-- `kmod_elf_get_symbols_symtab` -/
def kmodElfGetSymbolsSymtab (malloc : Nat → Bool) (elf : KmodElf) : SymbolsResult :=
  let sec := elf.sections .ksymtab
  if sec.offset = 0 then .ok (.error (-ENODATA))
  else do
    let (strings, size) ← skipZeroPadding elf.memory sec.offset sec.size
    if size ≤ 1 then .ok (.ok [])
    else do
      let last ← inBlock elf.memory[strings + (size - 1)]?
      if last ≠ 0 then .ok (.error (-EINVAL))
      else do
        let count ← eachString elf.memory strings (fun count _ => count + 1) (List.range size) 0 0
        if count > INT_MAX then .ok (.error (-EINVAL))
        else if malloc 0 = false then .ok (.error (-ENOMEM))
        else do
          let a ← eachString elf.memory strings (fun a last => a ++ [⟨0, .globalBind, last⟩])
            (List.range size) 0 []
          .ok (.ok a)

def crcStr : CStr := cstr "__crc_"

/-- `kmod_elf_resolve_crc` -/
def kmodElfResolveCrc (elf : KmodElf) (crc shndx : Nat) : Except Fault Nat :=
  if shndx = SHN_ABS ∨ shndx = SHN_UNDEF then .ok crc
  else do
    let r ← elfGetSectionInfo toLocals elf shndx
    match r with
    | .error _ => .ok 18446744073709551615
    | .ok (_, info) =>
      if info.size < 4 ∨ crc > info.size - 4 then .ok 18446744073709551615
      else elfGetUint elf (u64 (info.offset + crc)) 4

/-- `sym_off` of a symbol of the symbol table. -/
def symOff (elf : KmodElf) (i : Nat) : Nat :=
  u64 ((elf.sections .symtab).offset + i * symSize elf.x32)

/-- `name` of a symbol, from its `st_name`. -/
def symName (elf : KmodElf) (nameOff : Nat) : Nat := u64 ((elf.sections .strtab).offset + nameOff)

/--
The first loop of `kmod_elf_get_symbols` counts the CRCs; it gives nothing for a name that is
not in `.strtab`.
-/
def countCrcs (elf : KmodElf) : List Nat → Nat → Except Fault (Option Nat)
  | [], count => .ok (some count)
  | i :: is, count => do
    let nameOff ← readv elf (symOff elf i) stName
    if nameOff ≥ (elf.sections .strtab).size then .ok none
    else do
      let crc ← startsWithAt elf.memory crcStr (symName elf nameOff)
      countCrcs elf is (if crc then count + 1 else count)

/-- The second loop of `kmod_elf_get_symbols`. -/
def storeCrcs (elf : KmodElf) : List Nat → List KmodModversion → Except Fault (List KmodModversion)
  | [], a => .ok a
  | i :: is, a => do
    let nameOff ← readv elf (symOff elf i) stName
    let value ← readv elf (symOff elf i) stValue
    let info ← readv elf (symOff elf i) stInfo
    let shndx ← readv elf (symOff elf i) stShndx
    let crc ← startsWithAt elf.memory crcStr (symName elf nameOff)
    if crc = false then storeCrcs elf is a
    else do
      let crc ← kmodElfResolveCrc elf value shndx
      storeCrcs elf is
        (a ++ [⟨crc, kmodSymbolBindFromElf (info / 16), symName elf nameOff + crcStr.length⟩])

/-- The indexes of the symbols, without the first one. -/
def symIndexes (elf : KmodElf) : List Nat :=
  List.range' 1 ((elf.sections .symtab).size / symSize elf.x32 - 1)

/-- There are tables of strings and of symbols. -/
def hasSymtab (elf : KmodElf) : Bool :=
  decide ((elf.sections .strtab).offset ≠ 0 ∧ (elf.sections .symtab).offset ≠ 0 ∧
    (elf.sections .symtab).size % symSize elf.x32 = 0)

/-- `kmod_elf_get_symbols` -/
def kmodElfGetSymbols (malloc : Nat → Bool) (elf : KmodElf) : SymbolsResult :=
  if hasSymtab elf = false then kmodElfGetSymbolsSymtab malloc elf
  else do
    let r ← countCrcs elf (symIndexes elf) 0
    match r with
    | none => kmodElfGetSymbolsSymtab malloc elf
    | some count =>
      if count = 0 then kmodElfGetSymbolsSymtab malloc elf
      else if malloc 0 = false then .ok (.error (-ENOMEM))
      else do
        let a ← storeCrcs elf (symIndexes elf) []
        .ok (.ok a)

/-! ## Needed symbols -/

/-- The value of an `int` that is assigned `n`. -/
def int32 (n : Nat) : Int :=
  if n % 4294967296 < 2147483648 then (n % 4294967296 : Nat)
  else (n % 4294967296 : Nat) - 4294967296

/-- `kmod_elf_crc_find` from some entry on: the index as an `int`, and the CRC. -/
def kmodElfCrcFind (elf : KmodElf) (off name : Nat) : List Nat → Except Fault (Int × Nat)
  | [] => .ok (-1, 0)
  | i :: is => do
    let symbol := u64 (off + i * verlen + crclen elf.x32)
    let n ← strnlenAt elf.memory symbol (namlen elf.x32)
    if n = namlen elf.x32 then kmodElfCrcFind elf off name is
    else do
      let eq ← inBlock (streqTails (elf.memory.drop name) (elf.memory.drop symbol))
      if eq = false then kmodElfCrcFind elf off name is
      else do
        let crc ← elfGetUint elf (u64 (off + i * verlen)) (crclen elf.x32)
        .ok (int32 i, crc)

/-- The symbol has to come from elsewhere. -/
def isUndefined (elf : KmodElf) (info secidx : Nat) : Bool :=
  decide (secidx = SHN_UNDEF ∧
    ¬ ((elf.machine = EM_SPARC ∨ elf.machine = EM_SPARCV9) ∧ info % 16 = STT_REGISTER))

/-- What the first loop of `kmod_elf_get_dependency_symbols` leaves. -/
structure Needed where
  count : Nat
  /-- The versions that are visited. -/
  visited : List Nat
  /-- The CRC of each symbol, by index. -/
  symcrcs : List (Nat × Nat)
  deriving DecidableEq, Repr

/--
The first loop of `kmod_elf_get_dependency_symbols`; nothing for a name that is not in
`.strtab`.
-/
def findNeeded (elf : KmodElf) (verOff vercount : Nat) :
    List Nat → Needed → Except Fault (Option Needed)
  | [], s => .ok (some s)
  | i :: is, s => do
    let nameOff ← readv elf (symOff elf i) stName
    let secidx ← readv elf (symOff elf i) stShndx
    let info ← readv elf (symOff elf i) stInfo
    if isUndefined elf info secidx = false then findNeeded elf verOff vercount is s
    else if nameOff ≥ (elf.sections .strtab).size then .ok none
    else do
      let c ← inBlock elf.memory[symName elf nameOff]?
      if c = 0 then findNeeded elf verOff vercount is s
      else do
        let (idx, crc) ← kmodElfCrcFind elf verOff (symName elf nameOff) (List.range vercount)
        let visited := if idx ≥ 0 then idx.toNat :: s.visited else s.visited
        findNeeded elf verOff vercount is ⟨s.count + 1, visited, (i, crc) :: s.symcrcs⟩

/-- module_layout/struct_module are not visited, but needed. Nothing for a name that is too long. -/
def countUnvisited (elf : KmodElf) (verOff : Nat) (visited : List Nat) :
    List Nat → Nat → Except Fault (Option Nat)
  | [], count => .ok (some count)
  | i :: is, count =>
    if i ∈ visited then countUnvisited elf verOff visited is count
    else do
      let nlen ← strnlenAt elf.memory (u64 (verOff + i * verlen + crclen elf.x32)) (namlen elf.x32)
      if nlen = namlen elf.x32 then .ok none
      else countUnvisited elf verOff visited is (count + 1)

/-- The third loop of `kmod_elf_get_dependency_symbols`. -/
def storeNeeded (elf : KmodElf) (symcrcs : List (Nat × Nat)) :
    List Nat → List KmodModversion → Except Fault (List KmodModversion)
  | [], a => .ok a
  | i :: is, a => do
    let nameOff ← readv elf (symOff elf i) stName
    let secidx ← readv elf (symOff elf i) stShndx
    let info ← readv elf (symOff elf i) stInfo
    if isUndefined elf info secidx = false then storeNeeded elf symcrcs is a
    else do
      let c ← inBlock elf.memory[symName elf nameOff]?
      if c = 0 then storeNeeded elf symcrcs is a
      else
        let bind := if info / 16 = 2 then .weak else .undef
        storeNeeded elf symcrcs is
          (a ++ [⟨(symcrcs.lookup i).getD 0, bind, symName elf nameOff⟩])

/-- Add unvisited (module_layout/struct_module). -/
def storeUnvisited (elf : KmodElf) (verOff : Nat) (visited : List Nat) :
    List Nat → List KmodModversion → Except Fault (List KmodModversion)
  | [], a => .ok a
  | i :: is, a =>
    if i ∈ visited then storeUnvisited elf verOff visited is a
    else do
      let crc ← elfGetUint elf (u64 (verOff + i * verlen)) (crclen elf.x32)
      storeUnvisited elf verOff visited is
        (a ++ [⟨crc, .undef, u64 (verOff + i * verlen + crclen elf.x32)⟩])

/-- The section that `kmod_elf_get_dependency_symbols` uses: none if its length is wrong. -/
def neededVersions (elf : KmodElf) : SectionRange :=
  let sec := elf.sections .versions
  if sec.offset = 0 ∨ sec.size % verlen ≠ 0 then ⟨0, 0⟩ else sec

/-- `kmod_elf_get_dependency_symbols` -/
def kmodElfGetDependencySymbols (malloc : Nat → Bool) (elf : KmodElf) : SymbolsResult :=
  let ver := neededVersions elf
  if hasSymtab elf = false then .ok (.error (-EINVAL))
  else
    let vercount := ver.size / verlen
    -- visited_versions, which is not there without versions, and symcrcs
    if ver.size ≠ 0 ∧ malloc 0 = false then .ok (.error (-ENOMEM))
    else if malloc 1 = false then .ok (.error (-ENOMEM))
    else do
      let r ← findNeeded elf ver.offset vercount (symIndexes elf) ⟨0, [], []⟩
      match r with
      | none => .ok (.error (-EINVAL))
      | some s => do
        let r ← countUnvisited elf ver.offset s.visited (List.range vercount) s.count
        match r with
        | none => .ok (.error (-EINVAL))
        | some count =>
          if count > INT_MAX then .ok (.error (-EINVAL))
          else if count = 0 then .ok (.ok [])
          else if malloc 2 = false then .ok (.error (-ENOMEM))
          else do
            let a ← storeNeeded elf s.symcrcs (symIndexes elf) []
            let a ← storeUnvisited elf ver.offset s.visited (List.range vercount) a
            .ok (.ok a)

/-! ## The build id -/

/-- `kmod_elf_get_build_id`: where the hash is and how long. -/
def kmodElfGetBuildId (elf : KmodElf) : Except Fault (Except Int (Nat × Nat)) :=
  let sec := elf.sections .buildId
  if sec.offset = 0 ∨ sec.size = 0 then .ok (.error (-ENODATA))
  else if sec.size < 12 then .ok (.error (-EINVAL))
  else do
    let namesz ← elfGetUint elf sec.offset 4
    let descsz ← elfGetUint elf (u64 (sec.offset + 4)) 4
    let type ← elfGetUint elf (u64 (sec.offset + 8)) 4
    if sec.size < u64 (12 + namesz + descsz) then .ok (.error (-EINVAL))
    else
      let name := u64 (sec.offset + 12)
      if type ≠ NT_GNU_BUILD_ID then .ok (.error (-EINVAL))
      else do
        let eq ← streqAt elf.memory (cstr "GNU") name
        if eq = false then .ok (.error (-EINVAL))
        else .ok (.ok (u64 (name + namesz), descsz))

end Kmod
