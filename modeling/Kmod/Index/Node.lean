import Kmod.Base
import Kmod.Lib.Lists
import Kmod.Lib.Bytes

/-!
# The index depmod builds and writes

A `struct index_node` is a node of a radix tree: the arc to a child is labelled
with a character, the rest of the label is the child's prefix. `index_insert`
descends along a key, splits a node whose prefix goes another way, and adds the
value to the list of the node it ends in. `index_write` first computes sizes in
one pass over the tree and then emits bytes, offsets included, in another.

Numbers of type `uint32_t` are natural numbers; where the C code adds them the
result is taken modulo `2 ^ 32`.
-/

namespace Kmod.Index

open Kmod.Lists Bytes

/-- `INDEX_CHILDMAX`. -/
def INDEX_CHILDMAX : UInt8 := 128

def INDEX_MAGIC : Nat := 0xB007F457
def INDEX_VERSION_MAJOR : Nat := 0x0002
def INDEX_VERSION_MINOR : Nat := 0x0001
def INDEX_VERSION : Nat := INDEX_VERSION_MAJOR <<< 16 ||| INDEX_VERSION_MINOR

def INDEX_NODE_PREFIX : Nat := 0x80000000
def INDEX_NODE_VALUES : Nat := 0x40000000
def INDEX_NODE_CHILDS : Nat := 0x20000000
def INDEX_NODE_MASK : Nat := 0x0FFFFFFF

/-- A `struct index_value`. -/
structure IndexValue where
  priority : UInt32
  value : CStr
  deriving DecidableEq, Repr

/-- The fields of a `struct index_node` other than its children. -/
structure NodeData where
  /-- The field `prefix`. -/
  pfx : CStr
  values : List IndexValue
  first : UInt8
  last : UInt8
  size : Nat
  total : Nat

/-- A `struct index_node *`, with the array `children` as a function of the character. -/
inductive IndexNode where
  | null
  | node (data : NodeData) (children : UInt8 → IndexNode)

namespace IndexNode

def isNull : IndexNode → Bool
  | null => true
  | node _ _ => false

/-- `child->total`; the code never asks it of a null pointer. -/
def total : IndexNode → Nat
  | null => 0
  | node d _ => d.total

end IndexNode

/-- An array of null pointers. -/
def noChildren : UInt8 → IndexNode := fun _ => .null

/-- `index_create`. -/
def indexCreate : IndexNode := .node ⟨[], [], INDEX_CHILDMAX, 0, 0, 0⟩ noChildren

/-! ## Insertion -/

/-- `index__checkstring` passes: every other string ends the process. -/
def indexCheckstring (str : CStr) : Bool := str.all (· < INDEX_CHILDMAX)

/-- The insertion of `index_add_value` and of libkmod's `add_value`: before the first value of the
same or a larger priority. -/
def addValue : List IndexValue → CStr → UInt32 → List IndexValue
  | [], value, priority => [⟨priority, value⟩]
  | v :: values, value, priority =>
    if v.priority < priority then v :: addValue values value priority
    else ⟨priority, value⟩ :: v :: values

/-- Add a list of values one after the other. -/
def addValues (out values : List IndexValue) : List IndexValue :=
  values.foldl (fun out v => addValue out v.value v.priority) out

/-- `index_add_value`: the new list, and whether the value was there already. -/
def indexAddValue (values : List IndexValue) (value : CStr) (priority : UInt32) :
    List IndexValue × Int :=
  (addValue values value priority, if values.any (fun v => v.value = value) then 1 else 0)

/-- Give the node a fresh leaf as its child for `ch`. -/
def addChild (d : NodeData) (children : UInt8 → IndexNode) (ch : UInt8) (rest value : CStr)
    (priority : UInt32) : IndexNode :=
  .node
    { d with
      first := if ch < d.first then ch else d.first
      last := if d.last < ch then ch else d.last }
    (Function.update children ch
      (.node ⟨rest, (indexAddValue [] value priority).1, INDEX_CHILDMAX, 0, 0, 0⟩ noChildren))

/-- The loop of `index_insert`, on the part of the key from `i` on. -/
def insertLoop : IndexNode → CStr → CStr → UInt32 → IndexNode × Int
  | .null, _, _, _ => (.null, 0)
  | .node d children, key, value, priority =>
    match commonPrefix d.pfx key with
    | (common, ch :: after, rest) =>
      -- the prefix goes another way: the node moves below a new one that has the common part
      let n := IndexNode.node { d with pfx := after } children
      let d : NodeData := ⟨common, [], ch, ch, 0, 0⟩
      let children := Function.update noChildren ch n
      match rest with
      | [] =>
        let (values, duplicate) := indexAddValue d.values value priority
        (.node { d with values := values } children, duplicate)
      -- `key[i]` is not `ch`, so the child asked for is null
      | c :: rest => (addChild d children c rest value priority, 0)
    | (_, [], []) =>
      let (values, duplicate) := indexAddValue d.values value priority
      (.node { d with values := values } children, duplicate)
    | (_, [], c :: rest) =>
      if (children c).isNull then (addChild d children c rest value priority, 0)
      else
        let (child, duplicate) := insertLoop (children c) rest value priority
        (.node d (Function.update children c child), duplicate)

/-- `index_insert`. -/
def indexInsert (node : IndexNode) (key value : CStr) (priority : UInt32) :
    Except Fault (IndexNode × Int) :=
  if indexCheckstring key && indexCheckstring value then .ok (insertLoop node key value priority)
  else .error .exited

/-! ## Writing -/

/-- `index__haschildren`. -/
def indexHaschildren (d : NodeData) : Bool := d.first < INDEX_CHILDMAX

/-- `index_get_mask`. -/
def indexGetMask (d : NodeData) : Nat :=
  (if indexHaschildren d then INDEX_NODE_CHILDS else 0) |||
    (if d.pfx ≠ [] then INDEX_NODE_PREFIX else 0) |||
    (if d.values ≠ [] then INDEX_NODE_VALUES else 0)

/-- The characters from `first` to `last`, in order. -/
def charsBetween (first last : UInt8) : List UInt8 :=
  (List.range' first.toNat (last.toNat + 1 - first.toNat)).map UInt8.ofNat

/-- The characters for which the writer looks at a child. -/
def charsOf (d : NodeData) : List UInt8 :=
  if indexHaschildren d then charsBetween d.first d.last else []

/-- The bytes a node takes without its children, as `index_calculate_size` adds them up. -/
def nodeSize (d : NodeData) : Nat :=
  ((if indexHaschildren d then 2 + (d.last.toNat + 1 - d.first.toNat) * 4 else 0) +
    (if d.pfx ≠ [] then d.pfx.length + 1 else 0) +
    (if d.values ≠ [] then 4 + (d.values.map (fun v => 4 + (v.value.length + 1))).sum else 0))
    % 2 ^ 32

/-- `index_calculate_size`: fill in `size` and `total` of a node and of everything below it. -/
def indexCalculateSize : IndexNode → IndexNode
  | .null => .null
  | .node d children =>
    let children' := fun c =>
      if c ∈ charsOf d then indexCalculateSize (children c) else children c
    let below := ((charsOf d).map (fun c => (children' c).total)).sum
    let size := nodeSize d
    .node { d with size := size, total := (below + size) % 2 ^ 32 } children'

/-- `child_offs`, given the offset of the node's first child. -/
def childOffs (children : UInt8 → IndexNode) : List UInt8 → Nat → List Nat
  | [], _ => []
  | c :: chars, off =>
    match children c with
    | .null => 0 :: childOffs children chars off
    | .node d _ => (off ||| indexGetMask d) :: childOffs children chars (off + d.total)

/-- One value as it stands in the file. -/
def writeValue (v : IndexValue) : List UInt8 := be32 v.priority.toNat ++ v.value ++ [0]

/-- What `index_write__node` writes of the node itself. -/
def writeNodeData (d : NodeData) (offs : List Nat) : List UInt8 :=
  (if d.pfx ≠ [] then d.pfx ++ [0] else []) ++
    (if offs ≠ [] then d.first :: d.last :: offs.flatMap be32 else []) ++
    (if d.values ≠ [] then be32 d.values.length ++ d.values.flatMap writeValue else [])

/-- `index_write__node`: the bytes written; what it returns is the node's `total`. -/
def indexWriteNode : IndexNode → Nat → List UInt8
  | .null, _ => []
  | .node d children, offset =>
    let start := (offset + d.size) % 2 ^ 32
    writeNodeData d (childOffs children (charsOf d) start) ++
      ((charsOf d).foldl (fun (off, out) c =>
        ((off + (children c).total) % 2 ^ 32, out ++ indexWriteNode (children c) off))
        (start, [])).2

/-- `index_write`. -/
def indexWrite (root : IndexNode) : List UInt8 :=
  let firstOff := 12
  match indexCalculateSize root with
  | .null => []
  | .node d children =>
    be32 INDEX_MAGIC ++ be32 INDEX_VERSION ++ be32 (firstOff ||| indexGetMask d) ++
      indexWriteNode (.node d children) firstOff

end Kmod.Index
