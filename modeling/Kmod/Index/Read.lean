import Kmod.Index.Node
import Kmod.Shared.Hash

/-!
# The two readers of libkmod

libkmod reads an index file in two ways: `index_mm_*` walks a memory mapping,
`index_*` reads nodes from a stream. The traversals (exact search, wildcard
search, dump) are the same code twice, up to how a node is read, so they are
written once here, over a `Reader`, and each reader's functions are instances.

A pointer into the mapping, or the position of the stream, is the rest of the
bytes from there on. Reading past the end of the mapping is a fault; reading past
the end of the stream makes the read fail.
-/

namespace Kmod.Index

open Bytes

/-! ## Traversals -/

/-- What a traversal uses of an open index: its nodes of type `N`, and how to read on from one. -/
structure Reader (N : Type) where
  pfx : N → CStr
  first : N → UInt8
  last : N → UInt8
  readchild : N → UInt8 → Except Fault (Option N)
  hasValues : N → Bool
  firstValue : N → Except Fault CStr
  values : N → Except Fault (List IndexValue)

section Traversal

variable {N σ : Type} (host : Host) (r : Reader N)

/-- `ch == key[j]`: the `uint8_t` and the `char` are compared as `int`s. -/
def sameChar (ch k : UInt8) : Bool := ch.toUInt32 = charToUnsigned host k

/-- Read a child and go on with it; without one, the result is `s`. -/
def Reader.withChild (node : N) (ch : UInt8) (s : σ) (next : N → Except Fault σ) :
    Except Fault σ := do
  match ← r.readchild node ch with
  | none => .ok s
  | some child => next child

/-- `index_search__node` and `index_mm_search_node`; `pfx` is what is left of the node's prefix. -/
def searchNode (node : N) (pfx : CStr) (key : CStr) : Except Fault (Option CStr) :=
  match key, pfx with
  | [], _ :: _ => .ok none
  | k :: key, p :: pfx => if sameChar host p k then searchNode node pfx key else .ok none
  | [], [] => if r.hasValues node then (r.firstValue node).map some else .ok none
  | k :: key, [] => r.withChild node k none (fun child => searchNode child (r.pfx child) key)

def search (root : Option N) (key : CStr) : Except Fault (Option CStr) :=
  match root with
  | none => .ok none
  | some node => searchNode host r node (r.pfx node) key

/-- `for (uint8_t ch = first; ch <= last; ch++)`: the counter wraps around. -/
def forChars (body : UInt8 → σ → Except Fault σ) (last : UInt8) :
    Nat → UInt8 → σ → Except Fault σ
  | 0, ch, s => if ch ≤ last then .error .outOfFuel else .ok s
  | fuel + 1, ch, s =>
    if ch ≤ last then do
      let s ← body ch s
      forChars body last fuel (ch + 1) s
    else .ok s

/-- `index_searchwild__allvalues` and `index_mm_searchwild_allvalues`. -/
def searchwildAllvalues (node : N) (out : List IndexValue) : Except Fault (List IndexValue) := do
  let values ← r.values node
  .ok (addValues out values)

/--
`index_searchwild__all` and `index_mm_searchwild_all`; `pfx` is the node's prefix
from `j` on. `fnmatch pat str` says whether `fnmatch(pat, str, 0)` is zero.
-/
def searchwildAll (fnmatch : CStr → CStr → Bool) :
    Nat → N → CStr → CStr → CStr → List IndexValue → Except Fault (List IndexValue)
  | 0, _, _, _, _, _ => .error .outOfFuel
  | fuel + 1, node, pfx, buf, subkey, out => do
    let buf := buf ++ pfx
    let out ← forChars (fun ch out => r.withChild node ch out (fun child =>
      searchwildAll fnmatch fuel child (r.pfx child) (buf ++ [ch]) subkey out))
      (r.last node) fuel (r.first node) out
    if r.hasValues node && fnmatch buf subkey then searchwildAllvalues r node out
    else .ok out

/-- The characters that make the rest of a key a pattern. -/
def isWild (ch : UInt8) : Bool := ch = 42 || ch = 63 || ch = 91

/-- Look below the child for one of the three wildcard characters. -/
def searchwildChild (fnmatch : CStr → CStr → Bool) (fuel : Nat) (node : N) (key : CStr) (ch : UInt8)
    (out : List IndexValue) : Except Fault (List IndexValue) :=
  r.withChild node ch out (fun child => searchwildAll r fnmatch fuel child (r.pfx child) [ch] key out)

/-- The children for `*`, `?` and `[`, in this order. -/
def searchwildChildren (fnmatch : CStr → CStr → Bool) (fuel : Nat) (node : N) (key : CStr)
    (out : List IndexValue) : Except Fault (List IndexValue) := do
  let out ← searchwildChild r fnmatch fuel node key 42 out
  let out ← searchwildChild r fnmatch fuel node key 63 out
  searchwildChild r fnmatch fuel node key 91 out

/-- `index_searchwild__node` and `index_mm_searchwild_node`. -/
def searchwildNode (fnmatch : CStr → CStr → Bool) (fuel : Nat) (node : N) (pfx : CStr) (key : CStr)
    (out : List IndexValue) : Except Fault (List IndexValue) :=
  match key, pfx with
  | [], p :: pfx =>
    if isWild p then searchwildAll r fnmatch fuel node (p :: pfx) [] [] out else .ok out
  | k :: key, p :: pfx =>
    if isWild p then searchwildAll r fnmatch fuel node (p :: pfx) [] (k :: key) out
    else if sameChar host p k then searchwildNode fnmatch fuel node pfx key out
    else .ok out
  | [], [] => do
    let out ← searchwildChildren r fnmatch fuel node [] out
    searchwildAllvalues r node out
  | k :: key, [] => do
    let out ← searchwildChildren r fnmatch fuel node (k :: key) out
    r.withChild node k out (fun child => searchwildNode fnmatch fuel child (r.pfx child) key out)

def searchwild (fnmatch : CStr → CStr → Bool) (fuel : Nat) (root : Option N) (key : CStr) :
    Except Fault (List IndexValue) :=
  match root with
  | none => .ok []
  | some node => searchwildNode host r fnmatch fuel node (r.pfx node) key []

/-- One line of a dump. -/
def dumpLine (buf : CStr) (v : IndexValue) : List UInt8 := buf ++ cstr " " ++ v.value ++ cstr "\n"

/-- `index_dump_node` and `index_mm_dump_node`. -/
def dumpNode : Nat → N → CStr → List UInt8 → Except Fault (List UInt8)
  | 0, _, _, _ => .error .outOfFuel
  | fuel + 1, node, buf, out => do
    let buf := buf ++ r.pfx node
    let values ← r.values node
    let out := out ++ values.flatMap (dumpLine buf)
    forChars (fun ch out => r.withChild node ch out (fun child =>
      dumpNode fuel child (buf ++ [ch]) out))
      (r.last node) fuel (r.first node) out

def dump (fuel : Nat) (root : Option N) (aliasPrefix : Bool) : Except Fault (List UInt8) :=
  match root with
  | none => .ok []
  | some node => dumpNode r fuel node (if aliasPrefix then cstr "alias " else []) []

/-- A character of eight bits is negative where `char` is signed, and the same as no byte. -/
theorem sameChar_iff {host : Host} {ch k : UInt8} :
    sameChar host ch k = true ↔ ch = k ∧ (host.charSigned = true → ch < 128) := by
  have hch := ch.toNat_lt
  have hk := k.toNat_lt
  unfold sameChar charToUnsigned
  rw [decide_eq_true_iff, ← UInt32.toNat_inj, ← UInt8.toNat_inj, UInt8.lt_iff_toNat_lt,
    UInt8.toNat_toUInt32]
  by_cases hneg : host.charSigned = true ∧ 128 ≤ k
  · have hge : 128 ≤ k.toNat := UInt8.le_iff_toNat_le.mp hneg.2
    rw [if_pos hneg, UInt32.toNat_sub, UInt8.toNat_toUInt32]
    refine ⟨fun h => absurd h ?_, fun ⟨heq, hlt⟩ => absurd (hlt hneg.1) ?_⟩
    · show ch.toNat ≠ (2 ^ 32 - 256 + k.toNat) % 2 ^ 32
      omega
    · show ¬ ch.toNat < 128
      omega
  · rw [if_neg hneg, UInt8.toNat_toUInt32]
    refine ⟨fun heq => ⟨heq, fun hsigned => ?_⟩, And.left⟩
    have hlt : ¬ 128 ≤ k.toNat := fun h => hneg ⟨hsigned, UInt8.le_iff_toNat_le.mpr h⟩
    show ch.toNat < 128
    omega

theorem sameChar_of_lt {host : Host} {ch k : UInt8} (h : ch < 128) :
    sameChar host ch k = true ↔ ch = k := by
  rw [sameChar_iff]
  exact ⟨And.left, fun heq => ⟨heq, fun _ => h⟩⟩

end Traversal

/-! ## The reader of a memory mapping -/

/-- A `struct index_mm`; the mapping is as long as the file. -/
structure IndexMm where
  mm : List UInt8
  rootOffset : Nat

/-- A `struct index_mm_node`. -/
structure IndexMmNode where
  /-- The field `prefix`. -/
  pfx : CStr
  first : UInt8
  last : UInt8
  children : List UInt8
  valueCount : Nat
  values : List UInt8

/-- A read through a pointer into the mapping. -/
def mmRead {α : Type} (take : List UInt8 → Option (α × List UInt8)) (p : List UInt8) :
    Except Fault (α × List UInt8) :=
  match take p with
  | none => .error .outOfBounds
  | some res => .ok res

/-- `read_u32_mm`. -/
def readU32Mm : List UInt8 → Except Fault (Nat × List UInt8) := mmRead takeBe32

/-- `read_char_mm`. -/
def readCharMm : List UInt8 → Except Fault (UInt8 × List UInt8) := mmRead List.next?

/-- `read_chars_mm`. -/
def readCharsMm : List UInt8 → Except Fault (CStr × List UInt8) := mmRead takeCstr

/-- `read_value_mm`. -/
def readValueMm (p : List UInt8) : Except Fault (IndexValue × List UInt8) := do
  let (priority, p) ← readU32Mm p
  let (value, p) ← readCharsMm p
  .ok (⟨UInt32.ofNat priority, value⟩, p)

/-- `read_value_mm`, as often as there are values. -/
def readValuesMm : Nat → List UInt8 → Except Fault (List IndexValue)
  | 0, _ => .ok []
  | count + 1, p => do
    let (v, p) ← readValueMm p
    let values ← readValuesMm count p
    .ok (v :: values)

/-- The prefix of a node, and what follows. -/
def readPfxMm (offset : Nat) (p : List UInt8) : Except Fault (CStr × List UInt8) :=
  if offset &&& INDEX_NODE_PREFIX ≠ 0 then readCharsMm p else .ok ([], p)

/-- The range of children: `first`, `last`, their offsets, and what follows. -/
def readRangeMm (p : List UInt8) :
    Except Fault (Option (UInt8 × UInt8 × List UInt8 × List UInt8)) := do
  let (first, p) ← readCharMm p
  let (last, p) ← readCharMm p
  if first > last ∨ first ≥ INDEX_CHILDMAX ∨ last ≥ INDEX_CHILDMAX then .ok none
  else .ok (some (first, last, p, p.drop (4 * (last.toNat + 1 - first.toNat))))

def readChildsMm (offset : Nat) (p : List UInt8) :
    Except Fault (Option (UInt8 × UInt8 × List UInt8 × List UInt8)) :=
  if offset &&& INDEX_NODE_CHILDS ≠ 0 then readRangeMm p
  else .ok (some (INDEX_CHILDMAX, 0, [], p))

/-- The number of values, and where they stand. -/
def readCountMm (offset : Nat) (p : List UInt8) : Except Fault (Nat × List UInt8) :=
  if offset &&& INDEX_NODE_VALUES ≠ 0 then readU32Mm p else .ok (0, [])

/-- `index_mm_read_node`. -/
def indexMmReadNode (idx : IndexMm) (offset : Nat) : Except Fault (Option IndexMmNode) :=
  let off := offset &&& INDEX_NODE_MASK
  if off = 0 ∨ off ≥ idx.mm.length then .ok none
  else do
    let (pfx, p) ← readPfxMm offset (idx.mm.drop off)
    match ← readChildsMm offset p with
    | none => .ok none
    | some (first, last, children, p) => do
      let (valueCount, values) ← readCountMm offset p
      .ok (some ⟨pfx, first, last, children, valueCount, values⟩)

/-- `index_mm_readchild`. -/
def indexMmReadchild (idx : IndexMm) (parent : IndexMmNode) (ch : UInt8) :
    Except Fault (Option IndexMmNode) :=
  if parent.first ≤ ch ∧ ch ≤ parent.last then do
    let (off, _) ← readU32Mm (parent.children.drop (4 * (ch.toNat - parent.first.toNat)))
    indexMmReadNode idx off
  else .ok none

def mmReader (idx : IndexMm) : Reader IndexMmNode where
  pfx := IndexMmNode.pfx
  first := IndexMmNode.first
  last := IndexMmNode.last
  readchild := indexMmReadchild idx
  hasValues := fun node => 0 < node.valueCount
  -- the first value, without its priority
  firstValue := fun node => (readCharsMm (node.values.drop 4)).map Prod.fst
  values := fun node => readValuesMm node.valueCount node.values

/-- `index_mm_open`, once the file is mapped: an index, or a negative error number. -/
def indexMmOpen (file : List UInt8) : Except Int IndexMm :=
  if file.length < 12 then .error (-EINVAL)
  else
    match takeBe32 file with
    | none => .error (-EINVAL)
    | some (magic, p) =>
      match takeBe32 p with
      | none => .error (-EINVAL)
      | some (version, p) =>
        match takeBe32 p with
        | none => .error (-EINVAL)
        | some (rootOffset, _) =>
          if magic ≠ INDEX_MAGIC then .error (-EINVAL)
          else if version >>> 16 ≠ INDEX_VERSION_MAJOR then .error (-EINVAL)
          else .ok ⟨file, rootOffset⟩

/-- `index_mm_search`. -/
def indexMmSearch (host : Host) (idx : IndexMm) (key : CStr) : Except Fault (Option CStr) := do
  search host (mmReader idx) (← indexMmReadNode idx idx.rootOffset) key

/-- `index_mm_searchwild`. -/
def indexMmSearchwild (host : Host) (fnmatch : CStr → CStr → Bool) (fuel : Nat) (idx : IndexMm)
    (key : CStr) : Except Fault (List IndexValue) := do
  searchwild host (mmReader idx) fnmatch fuel (← indexMmReadNode idx idx.rootOffset) key

/-- `index_mm_dump`: the bytes written. -/
def indexMmDump (fuel : Nat) (idx : IndexMm) (aliasPrefix : Bool) : Except Fault (List UInt8) := do
  dump (mmReader idx) fuel (← indexMmReadNode idx idx.rootOffset) aliasPrefix

/-! ## The reader of a stream -/

/-- A `struct index_file`. -/
structure IndexFile where
  file : List UInt8
  rootOffset : Nat

/-- A `struct index_node_f`. -/
structure IndexNodeF where
  /-- The field `prefix`. -/
  pfx : CStr
  values : List IndexValue
  first : UInt8
  last : UInt8
  children : List Nat

/-- `getdelim` up to a NUL: it fails at the end of the file, and the last string need not end. -/
def getdelim (s : List UInt8) : Option (CStr × List UInt8) :=
  match s with
  | [] => none
  | _ :: _ =>
    match takeCstr s with
    | some res => some res
    | none => some (s, [])

/-- `read_u32s`. -/
def readU32s : Nat → List UInt8 → Option (List Nat × List UInt8)
  | 0, s => some ([], s)
  | n + 1, s => do
    let (l, s) ← takeBe32 s
    let (ls, s) ← readU32s n s
    some (l :: ls, s)

/-- The values of a node: each is inserted by priority again. -/
def readValues : Nat → List IndexValue → List UInt8 → Option (List IndexValue)
  | 0, values, _ => some values
  | count + 1, values, s => do
    let (priority, s) ← takeBe32 s
    let (value, s) ← getdelim s
    readValues count (addValue values value (UInt32.ofNat priority)) s

/-- The prefix of a node, and what follows. -/
def readPfx (offset : Nat) (s : List UInt8) : Option (CStr × List UInt8) :=
  if offset &&& INDEX_NODE_PREFIX ≠ 0 then getdelim s else some ([], s)

/-- The range of children: `first`, `last`, their offsets, and what follows. -/
def readRange (s : List UInt8) : Option (UInt8 × UInt8 × List Nat × List UInt8) := do
  let (first, s) ← s.next?
  let (last, s) ← s.next?
  if first > last then none
  else
    let (children, s) ← readU32s (last.toNat + 1 - first.toNat) s
    some (first, last, children, s)

def readChilds (offset : Nat) (s : List UInt8) :
    Option (UInt8 × UInt8 × List Nat × List UInt8) :=
  if offset &&& INDEX_NODE_CHILDS ≠ 0 then readRange s else some (INDEX_CHILDMAX, 0, [], s)

/-- All values of a node. -/
def readNodeValues (offset : Nat) (s : List UInt8) : Option (List IndexValue) :=
  if offset &&& INDEX_NODE_VALUES ≠ 0 then do
    let (valueCount, s) ← takeBe32 s
    readValues valueCount [] s
  else some []

/-- `index_read`. -/
def indexRead (idx : IndexFile) (offset : Nat) : Option IndexNodeF :=
  let off := offset &&& INDEX_NODE_MASK
  if off = 0 then none
  else do
    let (pfx, s) ← readPfx offset (idx.file.drop off)
    let (first, last, children, s) ← readChilds offset s
    let values ← readNodeValues offset s
    some ⟨pfx, values, first, last, children⟩

/-- `index_readchild`. -/
def indexReadchild (idx : IndexFile) (parent : IndexNodeF) (ch : UInt8) : Option IndexNodeF :=
  if parent.first ≤ ch ∧ ch ≤ parent.last then
    indexRead idx (parent.children.getD (ch.toNat - parent.first.toNat) 0)
  else none

def fileReader (idx : IndexFile) : Reader IndexNodeF where
  pfx := IndexNodeF.pfx
  first := IndexNodeF.first
  last := IndexNodeF.last
  readchild := fun parent ch => .ok (indexReadchild idx parent ch)
  hasValues := fun node => !node.values.isEmpty
  firstValue := fun node =>
    match node.values with
    | [] => .error .outOfBounds
    | v :: _ => .ok v.value
  values := fun node => .ok node.values

/-- `index_file_open`. -/
def indexFileOpen (file : List UInt8) : Option IndexFile := do
  let (magic, s) ← takeBe32 file
  if magic ≠ INDEX_MAGIC then none
  else
    let (version, s) ← takeBe32 s
    if version >>> 16 ≠ INDEX_VERSION_MAJOR then none
    else
      let (rootOffset, _) ← takeBe32 s
      some ⟨file, rootOffset⟩

/-- `index_search`. -/
def indexSearch (host : Host) (idx : IndexFile) (key : CStr) : Except Fault (Option CStr) :=
  search host (fileReader idx) (indexRead idx idx.rootOffset) key

/-- `index_searchwild`. -/
def indexSearchwild (host : Host) (fnmatch : CStr → CStr → Bool) (fuel : Nat) (idx : IndexFile)
    (key : CStr) : Except Fault (List IndexValue) :=
  searchwild host (fileReader idx) fnmatch fuel (indexRead idx idx.rootOffset) key

/-- `index_dump`: the bytes written. -/
def indexDump (fuel : Nat) (idx : IndexFile) (aliasPrefix : Bool) : Except Fault (List UInt8) :=
  dump (fileReader idx) fuel (indexRead idx idx.rootOffset) aliasPrefix

/-! ## Opening -/

/-- A file with a header that passes, this word for the root, and some bytes behind the header. -/
def headerWith (root : Nat) (rest : List UInt8) : List UInt8 :=
  be32 INDEX_MAGIC ++ (be32 INDEX_VERSION ++ (be32 root ++ rest))

section Header

variable {root : Nat} (hroot : root < 2 ^ 32) (rest : List UInt8)
include hroot

theorem indexMmOpen_headerWith :
    indexMmOpen (headerWith root rest) = .ok ⟨headerWith root rest, root⟩ := by
  have hlen : ¬ (headerWith root rest).length < 12 := by
    unfold headerWith
    rw [List.length_append, List.length_append, List.length_append, length_be32, length_be32,
      length_be32]
    omega
  have htake : takeBe32 (headerWith root rest)
      = some (INDEX_MAGIC % 2 ^ 32, be32 INDEX_VERSION ++ (be32 root ++ rest)) := takeBe32_be32 ..
  unfold indexMmOpen
  rw [if_neg hlen]
  simp only [htake, takeBe32_be32, Nat.mod_eq_of_lt hroot]
  rfl

theorem indexFileOpen_headerWith :
    indexFileOpen (headerWith root rest) = some ⟨headerWith root rest, root⟩ := by
  have htake : takeBe32 (headerWith root rest)
      = some (INDEX_MAGIC % 2 ^ 32, be32 INDEX_VERSION ++ (be32 root ++ rest)) := takeBe32_be32 ..
  unfold indexFileOpen
  simp only [htake, takeBe32_be32, Nat.mod_eq_of_lt hroot, bind, Option.bind]
  rfl

end Header

end Kmod.Index
