import Kmod.Index.Trie
import Mathlib.Algebra.Order.BigOperators.Group.List
import Mathlib.Algebra.Order.Group.Nat

/-!
# Where the bytes of an index go

The writer computes sizes in one pass and emits bytes in another, both in 32-bit
arithmetic. `layout` is what comes out when nothing overflows: a node's own bytes,
then its children one after the other, each at the offset its parent records.
`indexWriteNode_eq` says that the writer produces this layout, and
`Stored.child` that a child of a stored node is stored where the node says.
-/

namespace Kmod.Index

open Kmod.Lists Bytes

/-! ## Characters -/

theorem mem_charsBetween {first last c : UInt8} :
    c ∈ charsBetween first last ↔ first ≤ c ∧ c ≤ last := by
  simp only [charsBetween, List.mem_map, List.mem_range', UInt8.le_iff_toNat_le]
  refine ⟨?_, ?_⟩
  · rintro ⟨n, ⟨i, hi, rfl⟩, rfl⟩
    have := last.toNat_lt
    rw [UInt8.toNat_ofNat']
    omega
  · rintro ⟨h1, h2⟩
    exact ⟨c.toNat, ⟨c.toNat - first.toNat, by omega, by omega⟩, by simp⟩

@[simp] theorem length_charsBetween (first last : UInt8) :
    (charsBetween first last).length = last.toNat + 1 - first.toNat := by simp [charsBetween]

/-- The characters before and after a given one. -/
theorem charsBetween_split {first last c : UInt8} (h1 : first ≤ c) (h2 : c ≤ last) :
    ∃ as bs, charsBetween first last = as ++ c :: bs ∧ as.length = c.toNat - first.toNat := by
  rw [UInt8.le_iff_toNat_le] at h1 h2
  have hi : c.toNat - first.toNat < (charsBetween first last).length := by
    rw [length_charsBetween]; omega
  have hc : (charsBetween first last)[c.toNat - first.toNat] = c := by
    simp only [charsBetween, List.getElem_map, List.getElem_range']
    rw [show first.toNat + 1 * (c.toNat - first.toNat) = c.toNat by omega]
    simp
  refine ⟨(charsBetween first last).take (c.toNat - first.toNat),
    (charsBetween first last).drop (c.toNat - first.toNat + 1), ?_, ?_⟩
  · conv_lhs => rw [← List.take_append_drop (c.toNat - first.toNat) (charsBetween first last)]
    rw [List.drop_eq_getElem_cons hi, hc]
  · rw [List.length_take]
    omega

theorem NodeOk.charsOf_eq {d : NodeData} {children : UInt8 → IndexNode} (h : NodeOk d children) :
    charsOf d = charsBetween d.first d.last := by
  unfold charsOf
  rcases h.bounds with ⟨hf, hl⟩ | ⟨_, hfl, hl⟩
  · rw [if_neg (by simp [indexHaschildren, hf]), hf, hl]
    rfl
  · rw [if_pos]
    simpa [indexHaschildren] using UInt8.lt_of_le_of_lt hfl hl

theorem NodeOk.charsOf_ne_nil {d : NodeData} {children : UInt8 → IndexNode}
    (h : NodeOk d children) :
    charsOf d ≠ [] ↔ indexHaschildren d = true := by
  refine ⟨?_, ?_⟩
  · intro hne
    by_contra hno
    exact hne (by rw [charsOf, if_neg hno])
  · intro hc
    rcases h.bounds with ⟨hf, _⟩ | ⟨_, hfl, _⟩
    · exact absurd hc (by simp [indexHaschildren, hf])
    · rw [h.charsOf_eq]
      exact List.ne_nil_of_mem (mem_charsBetween.mpr ⟨UInt8.le_refl _, hfl⟩)

/-! ## Sizes and offsets without overflow -/

/-- The bytes of a node without its children. -/
def bodyLen (d : NodeData) : Nat :=
  (if indexHaschildren d then 2 + (d.last.toNat + 1 - d.first.toNat) * 4 else 0) +
    (if d.pfx ≠ [] then d.pfx.length + 1 else 0) +
    (if d.values ≠ [] then 4 + (d.values.map (fun v => 4 + (v.value.length + 1))).sum else 0)

/-- The bytes of a node with everything below it. -/
def byteLen : IndexNode → Nat
  | .null => 0
  | .node d children => bodyLen d + ((charsOf d).map (fun c => byteLen (children c))).sum

/-- Lay out one block per character, each of the given length, from an offset on. -/
def spread (block : UInt8 → Nat → List UInt8) (len : UInt8 → Nat) :
    List UInt8 → Nat → List UInt8
  | [], _ => []
  | c :: cs, off => block c off ++ spread block len cs (off + len c)

/-- The word for a child that is stored at `off`. -/
def childOffset : IndexNode → Nat → Nat
  | .null, _ => 0
  | .node d _, off => off ||| indexGetMask d

/-- The words for all children. -/
def childOffsets (children : UInt8 → IndexNode) : List UInt8 → Nat → List Nat
  | [], _ => []
  | c :: cs, off =>
    childOffset (children c) off :: childOffsets children cs (off + byteLen (children c))

/-- The bytes of a node with everything below it, stored at `off`. -/
def layout : IndexNode → Nat → List UInt8
  | .null, _ => []
  | .node d children, off =>
    writeNodeData d (childOffsets children (charsOf d) (off + bodyLen d)) ++
      spread (fun c => layout (children c)) (fun c => byteLen (children c)) (charsOf d)
        (off + bodyLen d)

@[simp] theorem length_childOffsets (children : UInt8 → IndexNode) (cs : List UInt8) (off : Nat) :
    (childOffsets children cs off).length = cs.length := by
  induction cs generalizing off with
  | nil => rfl
  | cons c cs ih => simp [childOffsets, ih]

theorem getElem?_childOffsets (children : UInt8 → IndexNode) (as : List UInt8) (c : UInt8)
    (bs : List UInt8) (off : Nat) :
    (childOffsets children (as ++ c :: bs) off)[as.length]?
      = some (childOffset (children c) (off + (as.map (fun c => byteLen (children c))).sum)) := by
  induction as generalizing off with
  | nil => simp [childOffsets]
  | cons a as ih => simpa [childOffsets, Nat.add_assoc] using ih (off + byteLen (children a))

theorem spread_append (block : UInt8 → Nat → List UInt8) (len : UInt8 → Nat) (as bs : List UInt8)
    (off : Nat) :
    spread block len (as ++ bs) off
      = spread block len as off ++ spread block len bs (off + (as.map len).sum) := by
  induction as generalizing off with
  | nil => simp [spread]
  | cons a as ih => simp [spread, ih, Nat.add_assoc]

theorem length_spread {block : UInt8 → Nat → List UInt8} {len : UInt8 → Nat} {cs : List UInt8}
    (h : ∀ c ∈ cs, ∀ off, (block c off).length = len c) (off : Nat) :
    (spread block len cs off).length = (cs.map len).sum := by
  induction cs generalizing off with
  | nil => rfl
  | cons c cs ih =>
    unfold spread
    rw [List.length_append, h c (List.mem_cons_self ..),
      ih (fun x hx => h x (List.mem_cons_of_mem _ hx)), List.map_cons, List.sum_cons]

theorem length_flatMap_be32 (offs : List Nat) : (offs.flatMap be32).length = 4 * offs.length := by
  induction offs with
  | nil => rfl
  | cons o offs ih => simp only [List.flatMap_cons, List.length_append, length_be32, ih,
      List.length_cons]; omega

theorem length_flatMap_writeValue (values : List IndexValue) :
    (values.flatMap writeValue).length
      = (values.map (fun v => 4 + (v.value.length + 1))).sum := by
  induction values with
  | nil => rfl
  | cons v values ih =>
    simp only [List.flatMap_cons, List.length_append, ih, List.map_cons, List.sum_cons, writeValue,
      length_be32, List.length_singleton]
    omega

/-- A node's own bytes take the room the size pass reckons with. -/
theorem NodeOk.length_writeNodeData {d : NodeData} {children : UInt8 → IndexNode}
    (h : NodeOk d children) {offs : List Nat} (hlen : offs.length = (charsOf d).length) :
    (writeNodeData d offs).length = bodyLen d := by
  -- the three parts of the node: its children, its prefix and its values
  have hoffs : (if offs ≠ [] then d.first :: d.last :: offs.flatMap be32 else []).length
      = if indexHaschildren d then 2 + (d.last.toNat + 1 - d.first.toNat) * 4 else 0 := by
    have hiff : offs ≠ [] ↔ indexHaschildren d = true := by
      rw [← h.charsOf_ne_nil, ← List.length_pos_iff, hlen, List.length_pos_iff]
    by_cases hc : indexHaschildren d = true
    · rw [if_pos (hiff.mpr hc), if_pos hc, List.length_cons, List.length_cons,
        length_flatMap_be32, hlen, h.charsOf_eq, length_charsBetween]
      omega
    · rw [if_neg (fun hn => hc (hiff.mp hn)), if_neg hc]
      rfl
  have hpfx : (if d.pfx ≠ [] then d.pfx ++ [0] else []).length
      = if d.pfx ≠ [] then d.pfx.length + 1 else 0 := by
    split <;> simp
  have hval : (if d.values ≠ [] then be32 d.values.length ++ d.values.flatMap writeValue
      else []).length
      = if d.values ≠ [] then 4 + (d.values.map (fun v => 4 + (v.value.length + 1))).sum else 0 := by
    split
    · rw [List.length_append, length_be32, length_flatMap_writeValue]
    · rfl
  unfold writeNodeData
  rw [List.length_append, List.length_append, hoffs, hpfx, hval, bodyLen]
  omega

theorem length_layout {t : IndexNode} (h : Ok t) (off : Nat) :
    (layout t off).length = byteLen t := by
  induction t generalizing off with
  | null => rfl
  | node d children ih =>
    unfold layout
    rw [List.length_append, h.node.length_writeNodeData (length_childOffsets ..),
      length_spread (fun c _ => ih c (h.child c)), byteLen]

/-! ## The writer produces the layout -/

/-- `t'` is `t` with its sizes filled in, as far as its parent looks. -/
structure Sized (t t' : IndexNode) : Prop where
  total : t'.total = byteLen t
  offset : ∀ off, childOffset t' off = childOffset t off
  null : t'.isNull = t.isNull

theorem childOffs_eq {children children' : UInt8 → IndexNode} {cs : List UInt8}
    (h : ∀ c ∈ cs, Sized (children c) (children' c)) (off : Nat) :
    childOffs children' cs off = childOffsets children cs off := by
  induction cs generalizing off with
  | nil => rfl
  | cons c cs ih =>
    obtain ⟨htotal, hoff, _⟩ := h c (List.mem_cons_self ..)
    have ih' := ih (fun x hx => h x (List.mem_cons_of_mem _ hx))
    unfold childOffs childOffsets
    rw [← hoff, ← htotal]
    cases hc : children' c with
    | null => rw [← ih']; rfl
    | node d' _ => rw [← ih']; rfl

theorem writeChildren_eq {children' : UInt8 → IndexNode} (block : UInt8 → Nat → List UInt8)
    (len : UInt8 → Nat) :
    ∀ {cs : List UInt8} {off : Nat} (out : List UInt8), off + (cs.map len).sum < 2 ^ 32 →
      (∀ c ∈ cs, (children' c).total = len c ∧
        ∀ off, off + len c < 2 ^ 32 → indexWriteNode (children' c) off = block c off) →
      (cs.foldl (fun (off, out) c =>
        ((off + (children' c).total) % 2 ^ 32, out ++ indexWriteNode (children' c) off))
        (off, out)).2 = out ++ spread block len cs off := by
  intro cs
  induction cs with
  | nil => intro off out _ _; simp [spread]
  | cons c cs ih =>
    intro off out hlt h
    rw [List.map_cons, List.sum_cons] at hlt
    obtain ⟨htotal, hbytes⟩ := h c (List.mem_cons_self ..)
    rw [List.foldl_cons, spread]
    simp only
    rw [htotal, Nat.mod_eq_of_lt (by omega), hbytes off (by omega),
      ih _ (by omega) (fun x hx => h x (List.mem_cons_of_mem _ hx)), List.append_assoc]

theorem nodeSize_eq (d : NodeData) : nodeSize d = bodyLen d % 2 ^ 32 := rfl

/-- The children of a node after the size pass. -/
def sizedChildren (d : NodeData) (children : UInt8 → IndexNode) : UInt8 → IndexNode :=
  fun c => if c ∈ charsOf d then indexCalculateSize (children c) else children c

theorem sizedChildren_of_mem {d : NodeData} {c : UInt8} (h : c ∈ charsOf d)
    (children : UInt8 → IndexNode) : sizedChildren d children c = indexCalculateSize (children c) :=
  if_pos h

/-- What the writer makes of a node after the size pass. -/
theorem indexWriteNode_calculateSize (d : NodeData) (children : UInt8 → IndexNode) (off : Nat) :
    indexWriteNode (indexCalculateSize (.node d children)) off
      = writeNodeData d (childOffs (sizedChildren d children) (charsOf d)
          ((off + nodeSize d) % 2 ^ 32)) ++
        ((charsOf d).foldl (fun (off, out) c =>
          ((off + (sizedChildren d children c).total) % 2 ^ 32,
            out ++ indexWriteNode (sizedChildren d children c) off))
          ((off + nodeSize d) % 2 ^ 32, [])).2 := rfl

/-- **The two passes of the writer agree**: with no more bytes than a 32-bit offset can count,
the tree with its sizes filled in is written as `layout` says. -/
theorem indexWriteNode_eq {t : IndexNode} (h : Ok t) (hlt : byteLen t < 2 ^ 32) :
    Sized t (indexCalculateSize t) ∧
      ∀ off, off + byteLen t < 2 ^ 32 → indexWriteNode (indexCalculateSize t) off =
        layout t off := by
  induction t with
  | null => exact ⟨⟨rfl, fun _ => rfl, rfl⟩, fun _ _ => rfl⟩
  | node d children ih =>
    unfold byteLen at hlt
    have hsum : ∀ c ∈ charsOf d, byteLen (children c)
        ≤ ((charsOf d).map (fun c => byteLen (children c))).sum := fun c hc =>
      List.single_le_sum (fun _ _ => Nat.zero_le _) _ (List.mem_map_of_mem hc)
    -- no child is larger than the node, so none overflows
    have hih : ∀ c ∈ charsOf d, Sized (children c) (indexCalculateSize (children c)) ∧
        ∀ off, off + byteLen (children c) < 2 ^ 32 →
          indexWriteNode (indexCalculateSize (children c)) off = layout (children c) off :=
      fun c hc => ih c (h.child c) (Nat.lt_of_le_of_lt (hsum c hc) (by omega))
    have hsize : nodeSize d = bodyLen d := by
      rw [nodeSize_eq, Nat.mod_eq_of_lt (by omega)]
    have htotal : ∀ c ∈ charsOf d, (sizedChildren d children c).total = byteLen (children c) := by
      intro c hc
      rw [sizedChildren_of_mem hc, (hih c hc).1.total]
    refine ⟨⟨?_, fun _ => rfl, rfl⟩, fun off hoff => ?_⟩
    · show (((charsOf d).map (fun c => (sizedChildren d children c).total)).sum + nodeSize d)
        % 2 ^ 32 = _
      rw [List.map_congr_left htotal, hsize, byteLen, Nat.mod_eq_of_lt (by omega), Nat.add_comm]
    · unfold byteLen at hoff
      -- the children begin right behind the node
      have hstart : (off + nodeSize d) % 2 ^ 32 = off + bodyLen d := by
        rw [hsize, Nat.mod_eq_of_lt (by omega)]
      rw [indexWriteNode_calculateSize, hstart, layout,
        childOffs_eq (fun c hc => by rw [sizedChildren_of_mem hc]; exact (hih c hc).1),
        writeChildren_eq (fun c => layout (children c))
          (fun c => byteLen (children c)) [] (by omega) (fun c hc => by
            rw [sizedChildren_of_mem hc]; exact ⟨(hih c hc).1.total, (hih c hc).2⟩)]
      rfl

/-! ## The length of the file

However large the tree, the file is as long as `byteLen` says: an overflow makes
offsets wrong, not the number of bytes.
-/

theorem length_childOffs (children : UInt8 → IndexNode) (cs : List UInt8) (off : Nat) :
    (childOffs children cs off).length = cs.length := by
  induction cs generalizing off with
  | nil => rfl
  | cons c cs ih =>
    unfold childOffs
    cases children c with
    | null => simp [ih]
    | node d _ => simp [ih]

theorem length_writeChildren {children' : UInt8 → IndexNode} {len : UInt8 → Nat} :
    ∀ {cs : List UInt8} (off : Nat) (out : List UInt8),
      (∀ c ∈ cs, ∀ off, (indexWriteNode (children' c) off).length = len c) →
      (cs.foldl (fun (off, out) c =>
        ((off + (children' c).total) % 2 ^ 32, out ++ indexWriteNode (children' c) off))
        (off, out)).2.length = out.length + (cs.map len).sum := by
  intro cs
  induction cs with
  | nil => intro off out _; simp
  | cons c cs ih =>
    intro off out h
    rw [List.foldl_cons, ih _ _ (fun x hx => h x (List.mem_cons_of_mem _ hx)), List.length_append,
      h c (List.mem_cons_self ..), List.map_cons, List.sum_cons, Nat.add_assoc]

theorem length_indexWriteNode {t : IndexNode} (h : Ok t) (off : Nat) :
    (indexWriteNode (indexCalculateSize t) off).length = byteLen t := by
  induction t generalizing off with
  | null => rfl
  | node d children ih =>
    have hchild : ∀ c ∈ charsOf d, ∀ off,
        (indexWriteNode (sizedChildren d children c) off).length = byteLen (children c) := by
      intro c hc off
      rw [sizedChildren_of_mem hc]
      exact ih c (h.child c) off
    rw [indexWriteNode_calculateSize, List.length_append,
      h.node.length_writeNodeData (length_childOffs ..), length_writeChildren _ [] hchild, byteLen]
    simp

theorem length_indexWrite {d : NodeData} {children : UInt8 → IndexNode}
    (h : Ok (.node d children)) :
    (indexWrite (.node d children)).length = 12 + byteLen (.node d children) := by
  rw [← length_indexWriteNode h 12]
  show (be32 _ ++ be32 _ ++ be32 _ ++ _).length = _
  simp only [List.length_append, length_be32]
  rfl

/-! ## Stored nodes -/

/-- The node stands in the file at `off`, with everything below it. -/
structure Stored (file : List UInt8) (off : Nat) (t : IndexNode) : Prop where
  pos : 0 < off
  fits : off + byteLen t ≤ file.length
  bytes : ∃ rest, file.drop off = layout t off ++ rest

/-- **A child of a stored node is stored**, at the offset that the node records for it. -/
theorem Stored.child {file : List UInt8} {off : Nat} {d : NodeData} {children : UInt8 → IndexNode}
    (h : Stored file off (.node d children)) (hok : Ok (.node d children)) {c : UInt8}
    (h1 : d.first ≤ c) (h2 : c ≤ d.last) :
    ∃ o, Stored file o (children c) ∧
      (childOffsets children (charsOf d) (off + bodyLen d))[c.toNat - d.first.toNat]?
        = some (childOffset (children c) o) := by
  obtain ⟨as, bs, hcs, hlen⟩ := charsBetween_split h1 h2
  rw [← hok.node.charsOf_eq] at hcs
  have hsum : ((charsOf d).map (fun c => byteLen (children c))).sum
      = (as.map (fun c => byteLen (children c))).sum +
        (byteLen (children c) + (bs.map (fun c => byteLen (children c))).sum) := by
    rw [hcs, List.map_append, List.sum_append, List.map_cons, List.sum_cons]
  obtain ⟨hpos, hfits, rest, hbytes⟩ := h
  unfold byteLen at hfits
  rw [hsum] at hfits
  refine ⟨off + bodyLen d + (as.map (fun c => byteLen (children c))).sum,
    ⟨by omega, by omega, ?_⟩, ?_⟩
  · -- skip the node itself and the children before `c`
    have hskip : file.drop (off + bodyLen d + (as.map (fun c => byteLen (children c))).sum)
        = ((file.drop off).drop (bodyLen d)).drop (as.map (fun c => byteLen (children c))).sum := by
      rw [List.drop_drop, List.drop_drop, Nat.add_assoc]
    have hbody := hok.node.length_writeNodeData
      (length_childOffsets children (charsOf d) (off + bodyLen d))
    have hspread : (spread (fun c => layout (children c)) (fun c => byteLen (children c)) as
        (off + bodyLen d)).length = (as.map (fun c => byteLen (children c))).sum :=
      length_spread (fun x _ => length_layout (hok.child x)) _
    rw [hskip, hbytes, layout, List.append_assoc, List.drop_left' hbody, hcs, spread_append,
      List.append_assoc, List.drop_left' hspread, spread, List.append_assoc]
    exact ⟨_, rfl⟩
  · rw [hcs, ← hlen]
    exact getElem?_childOffsets children as c bs _

/-- What `index_write` produces, as long as it stays within 32 bits. -/
theorem indexWrite_eq {d : NodeData} {children : UInt8 → IndexNode} (h : Ok (.node d children))
    (hlt : 12 + byteLen (.node d children) < 2 ^ 32) :
    indexWrite (.node d children) = be32 INDEX_MAGIC ++ be32 INDEX_VERSION ++
      be32 (12 ||| indexGetMask d) ++ layout (.node d children) 12 := by
  obtain ⟨_, hbytes⟩ := indexWriteNode_eq h (by omega)
  rw [← hbytes 12 hlt]
  rfl

end Kmod.Index
