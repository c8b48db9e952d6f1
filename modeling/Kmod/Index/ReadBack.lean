import Kmod.Index.Layout
import Kmod.Index.Read

/-!
# Reading back what was written

A reader *represents* a tree if each of its nodes shows the fields of a node of
the tree and its children show the children (`Represents`). Traversals are proved
against that notion, so it is established once for each of the two readers: in a
file smaller than `2 ^ 28` bytes every offset fits below the flag bits.

The readers differ in one point. The mapping shows the values of a node in the
order of the file; the stream reader inserts them by priority again.
-/

namespace Kmod.Index

open Bytes

/-! ## What it is to show a tree -/

/--
The nodes of `r` that are related by `R` to nodes of a tree show these nodes;
`g` is what becomes of a node's list of values.
-/
structure Represents {N : Type} (r : Reader N) (g : List IndexValue → List IndexValue)
    (R : N → NodeData → (UInt8 → IndexNode) → Prop) : Prop where
  nil : g [] = []
  ok : ∀ {x d ch}, R x d ch → NodeOk d ch
  pfx : ∀ {x d ch}, R x d ch → r.pfx x = d.pfx
  first : ∀ {x d ch}, R x d ch → r.first x = d.first
  last : ∀ {x d ch}, R x d ch → r.last x = d.last
  hasValues : ∀ {x d ch}, R x d ch → r.hasValues x = !d.values.isEmpty
  values : ∀ {x d ch}, R x d ch → r.values x = .ok (g d.values)
  firstValue : ∀ {x d ch}, R x d ch → d.values ≠ [] →
    ∃ v, (g d.values).head? = some v ∧ r.firstValue x = .ok v.value
  null : ∀ {x d ch}, R x d ch → ∀ {c}, ch c = .null → r.readchild x c = .ok none
  child : ∀ {x d ch}, R x d ch → ∀ {c d' ch'}, ch c = .node d' ch' →
    ∃ y, r.readchild x c = .ok (some y) ∧ R y d' ch'

section Child

variable {N σ : Type} {r : Reader N} {g : List IndexValue → List IndexValue}
  {R : N → NodeData → (UInt8 → IndexNode) → Prop} (hR : Represents r g R) {x : N} {d : NodeData}
  {children : UInt8 → IndexNode} (hx : R x d children) {c : UInt8}
include hR hx

theorem Represents.withChild_null (hc : children c = .null) (s : σ) (next : N → Except Fault σ) :
    r.withChild x c s next = .ok s := by
  unfold Reader.withChild
  rw [hR.null hx hc]
  rfl

theorem Represents.withChild_node {d' : NodeData} {children' : UInt8 → IndexNode}
    (hc : children c = .node d' children') (s : σ) :
    ∃ y, R y d' children' ∧ ∀ next : N → Except Fault σ, r.withChild x c s next = next y := by
  obtain ⟨y, hy, hRy⟩ := hR.child hx hc
  refine ⟨y, hRy, fun next => ?_⟩
  unfold Reader.withChild
  rw [hy]
  rfl

end Child

/-- A root that was read shows the root of a tree; an empty tree need not have one. -/
def ShowsRoot {N : Type} (R : N → NodeData → (UInt8 → IndexNode) → Prop) (root : Option N)
    (d : NodeData) (children : UInt8 → IndexNode) : Prop :=
  match root with
  | none => d.values = [] ∧ d.pfx = [] ∧ ∀ c, children c = .null
  | some x => R x d children

/-! ## Flags and offsets -/

/-- The flags of a node, as a number of its own. -/
def flagBits (d : NodeData) : Nat :=
  (if indexHaschildren d then 2 else 0) + (if d.pfx ≠ [] then 8 else 0) +
    (if d.values ≠ [] then 4 else 0)

theorem indexGetMask_eq (d : NodeData) : indexGetMask d = 2 ^ 28 * flagBits d := by
  unfold indexGetMask flagBits
  split <;> split <;> split <;> decide

theorem flagBits_lt (d : NodeData) : flagBits d < 2 ^ 4 := by
  unfold flagBits
  split <;> split <;> split <;> decide

section Word

variable {off : Nat} (h : off < 2 ^ 28) (d : NodeData)
include h

theorem word_lt : off ||| indexGetMask d < 2 ^ 32 := by
  rw [indexGetMask_eq]
  exact or_lt h (flagBits_lt d)

theorem word_address : (off ||| indexGetMask d) &&& INDEX_NODE_MASK = off := by
  rw [indexGetMask_eq]
  exact or_and_low h

theorem word_pfx : (off ||| indexGetMask d) &&& INDEX_NODE_PREFIX ≠ 0 ↔ d.pfx ≠ [] := by
  rw [indexGetMask_eq, show INDEX_NODE_PREFIX = 2 ^ (28 + 3) from rfl, or_and_flag h 3, flagBits]
  by_cases h1 : d.pfx = []
  · simp only [h1, ne_eq, not_true_eq_false, if_false, iff_false]
    split <;> split <;> decide
  · simp only [h1, ne_eq, not_false_eq_true, if_true, iff_true]
    split <;> split <;> decide

theorem word_childs :
    (off ||| indexGetMask d) &&& INDEX_NODE_CHILDS ≠ 0 ↔ indexHaschildren d = true := by
  rw [indexGetMask_eq, show INDEX_NODE_CHILDS = 2 ^ (28 + 1) from rfl, or_and_flag h 1, flagBits]
  cases indexHaschildren d with
  | true => simp only [if_true, iff_true]; split <;> split <;> decide
  | false =>
    simp only [Bool.false_eq_true, if_false, iff_false]
    split <;> split <;> decide

theorem word_values : (off ||| indexGetMask d) &&& INDEX_NODE_VALUES ≠ 0 ↔ d.values ≠ [] := by
  rw [indexGetMask_eq, show INDEX_NODE_VALUES = 2 ^ (28 + 2) from rfl, or_and_flag h 2, flagBits]
  by_cases h1 : d.values = []
  · simp only [h1, ne_eq, not_true_eq_false, if_false, iff_false]
    split <;> split <;> decide
  · simp only [h1, ne_eq, not_false_eq_true, if_true, iff_true]
    split <;> split <;> decide

end Word

/-! ## Decoding the parts of a node -/

theorem Clean.no_nul {s : CStr} (h : Clean s) : 0 ∉ s := fun h0 => (h 0 h0).1 rfl

/-- The word at position `i` of a table of words. -/
theorem takeBe32_drop {offs : List Nat} {i o : Nat} (h : offs[i]? = some o) (rest : List UInt8) :
    ∃ rest', takeBe32 ((offs.flatMap be32 ++ rest).drop (4 * i)) = some (o % 2 ^ 32, rest') := by
  obtain ⟨hi, he⟩ := List.getElem?_eq_some_iff.mp h
  have hsplit : offs = offs.take i ++ o :: offs.drop (i + 1) := by
    rw [← he, List.cons_getElem_drop_succ, List.take_append_drop]
  have hlen : ((offs.take i).flatMap be32).length = 4 * i := by
    rw [length_flatMap_be32, List.length_take, Nat.min_eq_left (by omega)]
  rw [hsplit, List.flatMap_append, List.append_assoc, List.drop_left' hlen, List.flatMap_cons,
    List.append_assoc, takeBe32_be32]
  exact ⟨_, rfl⟩

/-- What follows a node's prefix. -/
def afterPfx (d : NodeData) (offs : List Nat) (rest : List UInt8) : List UInt8 :=
  (if offs ≠ [] then d.first :: d.last :: offs.flatMap be32 else []) ++
    ((if d.values ≠ [] then be32 d.values.length ++ d.values.flatMap writeValue else []) ++ rest)

/-- What follows a node's table of children. -/
def afterChilds (d : NodeData) (rest : List UInt8) : List UInt8 :=
  (if d.values ≠ [] then be32 d.values.length ++ d.values.flatMap writeValue else []) ++ rest

theorem writeNodeData_append (d : NodeData) (offs : List Nat) (rest : List UInt8) :
    writeNodeData d offs ++ rest
      = (if d.pfx ≠ [] then d.pfx ++ [0] else []) ++ afterPfx d offs rest := by
  simp [writeNodeData, afterPfx]

/-- The bytes of a stored node, up to its prefix. -/
theorem Stored.bytes_eq {file : List UInt8} {off : Nat} {d : NodeData}
    {children : UInt8 → IndexNode}
    (h : Stored file off (.node d children)) :
    ∃ rest, file.drop off = (if d.pfx ≠ [] then d.pfx ++ [0] else []) ++
      afterPfx d (childOffsets children (charsOf d) (off + bodyLen d)) rest := by
  obtain ⟨rest, hbytes⟩ := h.bytes
  unfold layout at hbytes
  rw [List.append_assoc, writeNodeData_append] at hbytes
  exact ⟨_, hbytes⟩

section Childs

variable {d : NodeData} {children : UInt8 → IndexNode} (hok : NodeOk d children) {offs : List Nat}
include hok

theorem NodeOk.afterPfx_of_childs (hc : indexHaschildren d = true)
    (hlen : offs.length = (charsOf d).length) (rest : List UInt8) :
    afterPfx d offs rest = d.first :: d.last :: offs.flatMap be32 ++ afterChilds d rest := by
  have hne : offs ≠ [] := by
    rw [← List.length_pos_iff, hlen, List.length_pos_iff]
    exact hok.charsOf_ne_nil.mpr hc
  unfold afterPfx
  rw [if_pos hne]
  rfl

theorem NodeOk.no_childs (hc : indexHaschildren d = false)
    (hlen : offs.length = (charsOf d).length) :
    offs = [] ∧ d.first = INDEX_CHILDMAX ∧ d.last = 0 := by
  refine ⟨?_, ?_⟩
  · rw [← List.length_eq_zero_iff, hlen, charsOf, hc]
    rfl
  · rcases hok.bounds with hb | ⟨_, hfl, hl⟩
    · exact hb
    · exact absurd hc (by simpa [indexHaschildren] using UInt8.lt_of_le_of_lt hfl hl)

end Childs

theorem bodyLen_values (d : NodeData) : d.values.length ≤ bodyLen d := by
  have hsum : ∀ values : List IndexValue,
      values.length ≤ (values.map (fun v => 4 + (v.value.length + 1))).sum := by
    intro values
    induction values with
    | nil => simp
    | cons v values ih => simp only [List.length_cons, List.map_cons, List.sum_cons]; omega
  unfold bodyLen
  have := hsum d.values
  by_cases hv : d.values = []
  · simp [hv]
  · rw [if_pos hv]; omega

theorem bodyLen_pos {d : NodeData} {children : UInt8 → IndexNode} (h : Used (.node d children)) :
    0 < bodyLen d := by
  unfold bodyLen
  rcases h with hv | hc
  · rw [if_pos hv]; omega
  · rw [if_pos hc]; omega

/-! ## The mapping -/

/-- A node of the mapping shows a stored node. -/
structure MmNode (idx : IndexMm) (x : IndexMmNode) (d : NodeData) (children : UInt8 → IndexNode) :
    Prop where
  ok : Ok (.node d children)
  pfx : x.pfx = d.pfx
  first : x.first = d.first
  last : x.last = d.last
  valueCount : x.valueCount = d.values.length
  values : ∃ rest, x.values = d.values.flatMap writeValue ++ rest
  children : ∃ off rest, Stored idx.mm off (.node d children) ∧
    x.children = (childOffsets children (charsOf d) (off + bodyLen d)).flatMap be32 ++ rest

theorem readRangeMm_write {d : NodeData} {children : UInt8 → IndexNode} (hok : NodeOk d children)
    (hc : indexHaschildren d = true) {offs : List Nat} (hlen : offs.length = (charsOf d).length)
    (rest : List UInt8) :
    readRangeMm (d.first :: d.last :: offs.flatMap be32 ++ rest)
      = .ok (some (d.first, d.last, offs.flatMap be32 ++ rest, rest)) := by
  rcases hok.bounds with ⟨hf, _⟩ | ⟨_, hfl, hl⟩
  · exact absurd hc (by simp [indexHaschildren, hf])
  · have hbad : ¬ (d.first > d.last ∨ d.first ≥ INDEX_CHILDMAX ∨ d.last ≥ INDEX_CHILDMAX) := by
      rintro (h | h | h)
      · exact UInt8.not_lt.mpr hfl h
      · exact UInt8.not_lt.mpr h (UInt8.lt_of_le_of_lt hfl hl)
      · exact UInt8.not_lt.mpr h hl
    -- the table of offsets is skipped as a whole
    have hdrop : (offs.flatMap be32 ++ rest).drop (4 * (d.last.toNat + 1 - d.first.toNat)) = rest := by
      refine List.drop_left' ?_
      rw [length_flatMap_be32, hlen, hok.charsOf_eq, length_charsBetween]
    show (if _ then _ else _) = _
    rw [if_neg hbad]
    show Except.ok (some (_, _, _, (offs.flatMap be32 ++ rest).drop _)) = _
    rw [hdrop]
    rfl

/-- **A stored node is read back from the mapping.** -/
theorem indexMmReadNode_stored (idx : IndexMm) (hlt : idx.mm.length < 2 ^ 28) {off : Nat}
    {d : NodeData} {children : UInt8 → IndexNode} (hS : Stored idx.mm off (.node d children))
    (hok : Ok (.node d children)) (hpos : 0 < bodyLen d) :
    ∃ x, indexMmReadNode idx (off ||| indexGetMask d) = .ok (some x) ∧ MmNode idx x d children := by
  have hfits := hS.fits
  unfold byteLen at hfits
  have hoff : off < 2 ^ 28 := by omega
  obtain ⟨rest, hbytes⟩ := hS.bytes_eq
  have hlen := length_childOffsets children (charsOf d) (off + bodyLen d)
  generalize hoffs : childOffsets children (charsOf d) (off + bodyLen d) = offs at hbytes hlen
  -- the three parts, each present or not as its flag says
  have hpfx : readPfxMm (off ||| indexGetMask d) (idx.mm.drop off)
      = .ok (d.pfx, afterPfx d offs rest) := by
    rw [hbytes, readPfxMm]
    by_cases hp : d.pfx = []
    · rw [if_neg (fun h => (word_pfx hoff d).mp h hp), if_neg (not_not.mpr hp), hp]
      rfl
    · rw [if_pos ((word_pfx hoff d).mpr hp), if_pos hp, List.append_assoc, readCharsMm, mmRead,
        List.singleton_append, takeCstr_append hok.node.pfx.no_nul]
  have hchilds : ∃ p, readChildsMm (off ||| indexGetMask d) (afterPfx d offs rest)
      = .ok (some (d.first, d.last, offs.flatMap be32 ++ p, afterChilds d rest)) := by
    unfold readChildsMm
    cases hc : indexHaschildren d with
    | true =>
      rw [if_pos ((word_childs hoff d).mpr hc), hok.node.afterPfx_of_childs hc hlen,
        readRangeMm_write hok.node hc hlen]
      exact ⟨_, rfl⟩
    | false =>
      obtain ⟨hnil, hf, hl⟩ := hok.node.no_childs hc hlen
      rw [if_neg (fun h => by rw [word_childs hoff d, hc] at h; exact absurd h (by simp)), hnil, hf,
        hl]
      exact ⟨[], rfl⟩
  have hvalues : ∃ p, readCountMm (off ||| indexGetMask d) (afterChilds d rest)
      = .ok (d.values.length, d.values.flatMap writeValue ++ p) := by
    unfold readCountMm
    by_cases hv : d.values = []
    · rw [if_neg (fun h => (word_values hoff d).mp h hv), hv]
      exact ⟨[], rfl⟩
    · have hcount : d.values.length % 2 ^ 32 = d.values.length := by
        have := bodyLen_values d
        exact Nat.mod_eq_of_lt (by omega)
      rw [if_pos ((word_values hoff d).mpr hv), afterChilds, if_pos hv,
        List.append_assoc, readU32Mm,
        mmRead, takeBe32_be32, hcount]
      exact ⟨_, rfl⟩
  obtain ⟨pc, hchilds⟩ := hchilds
  obtain ⟨pv, hvalues⟩ := hvalues
  refine ⟨⟨d.pfx, d.first, d.last, offs.flatMap be32 ++ pc, d.values.length,
    d.values.flatMap writeValue ++ pv⟩, ?_, hok, rfl, rfl, rfl, rfl, ⟨pv, rfl⟩,
    ⟨off, pc, hS, by rw [hoffs]⟩⟩
  have hin : ¬ (off = 0 ∨ off ≥ idx.mm.length) := by
    have := hS.pos
    omega
  simp only [indexMmReadNode, word_address hoff d, if_neg hin, hpfx, hchilds, hvalues, bind,
    Except.bind]

theorem readValuesMm_write {values : List IndexValue} (h : ∀ v ∈ values, Clean v.value)
    (rest : List UInt8) :
    readValuesMm values.length (values.flatMap writeValue ++ rest) = .ok values := by
  induction values with
  | nil => rfl
  | cons v values ih =>
    have hv : readValueMm (writeValue v ++ (values.flatMap writeValue ++ rest))
        = .ok (v, values.flatMap writeValue ++ rest) := by
      have hprio : v.priority.toNat % 2 ^ 32 = v.priority.toNat :=
        Nat.mod_eq_of_lt v.priority.toNat_lt
      simp only [readValueMm, writeValue, List.append_assoc, readU32Mm, readCharsMm, mmRead,
        takeBe32_be32, List.singleton_append, takeCstr_append (h v (List.mem_cons_self ..)).no_nul,
        bind, Except.bind, hprio, UInt32.ofNat_toNat]
    have ih' := ih (fun x hx => h x (List.mem_cons_of_mem _ hx))
    rw [List.length_cons, List.flatMap_cons, List.append_assoc, readValuesMm]
    simp only [hv, ih', bind, Except.bind]

/-- Reading a child of a node of the mapping. -/
theorem MmNode.readchild {idx : IndexMm} {x : IndexMmNode} {d : NodeData}
    {children : UInt8 → IndexNode} (h : MmNode idx x d children) {c : UInt8} (h1 : d.first ≤ c)
    (h2 : c ≤ d.last) :
    ∃ o, Stored idx.mm o (children c) ∧
      indexMmReadchild idx x c = indexMmReadNode idx (childOffset (children c) o % 2 ^ 32) := by
  obtain ⟨off, rest, hS, hx⟩ := h.children
  obtain ⟨o, hSo, ho⟩ := hS.child h.ok h1 h2
  obtain ⟨rest', hread⟩ := takeBe32_drop ho rest
  refine ⟨o, hSo, ?_⟩
  unfold indexMmReadchild
  rw [h.first, h.last, if_pos ⟨h1, h2⟩, hx, readU32Mm, mmRead, hread]
  rfl

/-- **The mapping of a written file shows the tree**, value lists as they are. -/
theorem mmReader_represents {idx : IndexMm} (hlt : idx.mm.length < 2 ^ 28) :
    Represents (mmReader idx) id (MmNode idx) where
  nil := rfl
  ok := fun h => h.ok.node
  pfx := fun h => h.pfx
  first := fun h => h.first
  last := fun h => h.last
  hasValues := by
    intro x d ch h
    show decide (0 < x.valueCount) = _
    rw [h.valueCount]
    cases d.values <;> simp
  values := by
    intro x d ch h
    obtain ⟨rest, hx⟩ := h.values
    show readValuesMm x.valueCount x.values = _
    rw [h.valueCount, hx, readValuesMm_write h.ok.node.values]
    rfl
  -- the first value follows its priority
  firstValue := by
    intro x d ch h hne
    obtain ⟨rest, hx⟩ := h.values
    have hclean := h.ok.node.values
    cases hv : d.values with
    | nil => exact absurd hv hne
    | cons v values =>
      rw [hv] at hx hclean
      refine ⟨v, rfl, ?_⟩
      have hskip : x.values.drop 4 = v.value ++ 0 :: (values.flatMap writeValue ++ rest) := by
        rw [hx, List.flatMap_cons, writeValue, List.append_assoc, List.append_assoc,
          List.append_assoc, List.drop_left' (length_be32 _)]
        rfl
      show (readCharsMm (x.values.drop 4)).map Prod.fst = _
      rw [hskip, readCharsMm, mmRead, takeCstr_append (hclean v (List.mem_cons_self ..)).no_nul]
      rfl
  null := by
    intro x d ch h c hc
    by_cases hin : d.first ≤ c ∧ c ≤ d.last
    · obtain ⟨o, _, hread⟩ := h.readchild hin.1 hin.2
      show indexMmReadchild idx x c = _
      rw [hread, hc]
      simp [childOffset, indexMmReadNode]
    · show indexMmReadchild idx x c = _
      unfold indexMmReadchild
      rw [h.first, h.last, if_neg hin]
  child := by
    intro x d ch h c d' ch' hc
    obtain ⟨h1, h2⟩ := h.ok.node.range c (by rw [hc]; simp)
    obtain ⟨o, hSo, hread⟩ := h.readchild h1 h2
    rw [hc] at hSo hread
    have hused := h.ok.node.used c
    have hok := h.ok.child c
    rw [hc] at hused hok
    -- a child is used, so its node is not empty
    have hpos := bodyLen_pos hused
    have ho : o < 2 ^ 28 := by
      have := hSo.fits
      omega
    obtain ⟨y, hy, hrep⟩ := indexMmReadNode_stored idx hlt hSo hok hpos
    refine ⟨y, ?_, hrep⟩
    show indexMmReadchild idx x c = _
    rw [hread, childOffset, Nat.mod_eq_of_lt (word_lt ho d'), hy]

/-! ## The stream -/

/-- A node read from the stream shows a stored node, with its values inserted again. -/
structure FileNode (idx : IndexFile) (x : IndexNodeF) (d : NodeData)
    (children : UInt8 → IndexNode) :
    Prop where
  ok : Ok (.node d children)
  pfx : x.pfx = d.pfx
  first : x.first = d.first
  last : x.last = d.last
  values : x.values = addValues [] d.values
  children : ∃ off, Stored idx.file off (.node d children) ∧
    x.children = (childOffsets children (charsOf d) (off + bodyLen d)).map (· % 2 ^ 32)

theorem getdelim_append {s : CStr} (h : 0 ∉ s) (rest : List UInt8) :
    getdelim (s ++ 0 :: rest) = some (s, rest) := by
  have hcstr := takeCstr_append h rest
  cases hs : s ++ 0 :: rest with
  | nil => exact absurd hs (by simp)
  | cons b bs =>
    rw [hs] at hcstr
    unfold getdelim
    rw [hcstr]

theorem readU32s_flatMap (offs : List Nat) (rest : List UInt8) :
    readU32s offs.length (offs.flatMap be32 ++ rest) = some (offs.map (· % 2 ^ 32), rest) := by
  induction offs with
  | nil => rfl
  | cons o offs ih =>
    rw [List.length_cons, List.flatMap_cons, List.append_assoc, readU32s]
    simp only [takeBe32_be32, ih, bind, Option.bind, List.map_cons]

theorem readValues_write {values : List IndexValue} (h : ∀ v ∈ values, Clean v.value)
    (acc : List IndexValue) (rest : List UInt8) :
    readValues values.length acc (values.flatMap writeValue ++ rest)
      = some (addValues acc values) := by
  induction values generalizing acc with
  | nil => rfl
  | cons v values ih =>
    have hprio : v.priority.toNat % 2 ^ 32 = v.priority.toNat :=
      Nat.mod_eq_of_lt v.priority.toNat_lt
    have ih' := ih (fun x hx => h x (List.mem_cons_of_mem _ hx)) (addValue acc v.value v.priority)
    rw [List.length_cons, List.flatMap_cons, writeValue, readValues]
    simp only [List.append_assoc, takeBe32_be32, List.cons_append, List.nil_append,
      getdelim_append (h v (List.mem_cons_self ..)).no_nul, bind, Option.bind, hprio,
      UInt32.ofNat_toNat]
    exact ih'

theorem readRange_write {d : NodeData} {children : UInt8 → IndexNode} (hok : NodeOk d children)
    (hc : indexHaschildren d = true) {offs : List Nat} (hlen : offs.length = (charsOf d).length)
    (rest : List UInt8) :
    readRange (d.first :: d.last :: offs.flatMap be32 ++ rest)
      = some (d.first, d.last, offs.map (· % 2 ^ 32), rest) := by
  rcases hok.bounds with ⟨hf, _⟩ | ⟨_, hfl, _⟩
  · exact absurd hc (by simp [indexHaschildren, hf])
  · have hcount : d.last.toNat + 1 - d.first.toNat = offs.length := by
      rw [hlen, hok.charsOf_eq, length_charsBetween]
    simp only [readRange, List.cons_append, List.next?, bind, Option.bind,
      if_neg (UInt8.not_lt.mpr hfl), hcount, readU32s_flatMap]

/-- **A stored node is read back from the stream.** Unlike in the mapping, it may be empty. -/
theorem indexRead_stored (idx : IndexFile) (hlt : idx.file.length < 2 ^ 28) {off : Nat}
    {d : NodeData} {children : UInt8 → IndexNode} (hS : Stored idx.file off (.node d children))
    (hok : Ok (.node d children)) :
    ∃ x, indexRead idx (off ||| indexGetMask d) = some x ∧ FileNode idx x d children := by
  have hfits := hS.fits
  unfold byteLen at hfits
  have hoff : off < 2 ^ 28 := by omega
  obtain ⟨rest, hbytes⟩ := hS.bytes_eq
  have hlen := length_childOffsets children (charsOf d) (off + bodyLen d)
  generalize hoffs : childOffsets children (charsOf d) (off + bodyLen d) = offs at hbytes hlen
  have hpfx : readPfx (off ||| indexGetMask d) (idx.file.drop off)
      = some (d.pfx, afterPfx d offs rest) := by
    rw [hbytes, readPfx]
    by_cases hp : d.pfx = []
    · rw [if_neg (fun h => (word_pfx hoff d).mp h hp), if_neg (not_not.mpr hp), hp]
      rfl
    · rw [if_pos ((word_pfx hoff d).mpr hp), if_pos hp, List.append_assoc,
        List.singleton_append, getdelim_append hok.node.pfx.no_nul]
  have hchilds : readChilds (off ||| indexGetMask d) (afterPfx d offs rest)
      = some (d.first, d.last, offs.map (· % 2 ^ 32), afterChilds d rest) := by
    unfold readChilds
    cases hc : indexHaschildren d with
    | true =>
      rw [if_pos ((word_childs hoff d).mpr hc), hok.node.afterPfx_of_childs hc hlen,
        readRange_write hok.node hc hlen]
    | false =>
      obtain ⟨hnil, hf, hl⟩ := hok.node.no_childs hc hlen
      rw [if_neg (fun h => by rw [word_childs hoff d, hc] at h; exact absurd h (by simp)), hnil, hf,
        hl]
      rfl
  have hvalues : readNodeValues (off ||| indexGetMask d) (afterChilds d rest)
      = some (addValues [] d.values) := by
    unfold readNodeValues
    by_cases hv : d.values = []
    · rw [if_neg (fun h => (word_values hoff d).mp h hv), hv]
      rfl
    · have hcount : d.values.length % 2 ^ 32 = d.values.length := by
        have := bodyLen_values d
        exact Nat.mod_eq_of_lt (by omega)
      rw [if_pos ((word_values hoff d).mpr hv), afterChilds, if_pos hv, List.append_assoc,
        takeBe32_be32, hcount]
      exact readValues_write hok.node.values [] rest
  refine ⟨⟨d.pfx, addValues [] d.values, d.first, d.last, offs.map (· % 2 ^ 32)⟩, ?_, hok, rfl, rfl,
    rfl, rfl, off, hS, by rw [hoffs]⟩
  have hpos := hS.pos
  simp only [indexRead, word_address hoff d, if_neg (show ¬ off = 0 by omega), hpfx, hchilds,
    hvalues, bind, Option.bind]

/-- Reading a child of a node from the stream. -/
theorem FileNode.readchild {idx : IndexFile} {x : IndexNodeF} {d : NodeData}
    {children : UInt8 → IndexNode} (h : FileNode idx x d children) {c : UInt8} (h1 : d.first ≤ c)
    (h2 : c ≤ d.last) :
    ∃ o, Stored idx.file o (children c) ∧
      indexReadchild idx x c = indexRead idx (childOffset (children c) o % 2 ^ 32) := by
  obtain ⟨off, hS, hx⟩ := h.children
  obtain ⟨o, hSo, ho⟩ := hS.child h.ok h1 h2
  refine ⟨o, hSo, ?_⟩
  unfold indexReadchild
  rw [h.first, h.last, if_pos ⟨h1, h2⟩, hx, List.getD_eq_getElem?_getD,
    List.getElem?_map, ho]
  rfl

/-- **The stream of a written file shows the tree**, each list of values inserted once more. -/
theorem fileReader_represents {idx : IndexFile} (hlt : idx.file.length < 2 ^ 28) :
    Represents (fileReader idx) (addValues []) (FileNode idx) where
  nil := rfl
  ok := fun h => h.ok.node
  pfx := fun h => h.pfx
  first := fun h => h.first
  last := fun h => h.last
  hasValues := by
    intro x d ch h
    show (!x.values.isEmpty) = _
    rw [h.values, Bool.not_inj_iff, Bool.eq_iff_iff, List.isEmpty_iff, List.isEmpty_iff,
      addValues_eq_nil]
  values := fun h => congrArg Except.ok h.values
  firstValue := by
    intro x d ch h hne
    rw [← h.values]
    cases hv : x.values with
    | nil => exact absurd (addValues_eq_nil.mp (h.values ▸ hv)) hne
    | cons v values =>
      refine ⟨v, rfl, ?_⟩
      simp only [fileReader, hv]
  null := by
    intro x d ch h c hc
    show Except.ok (indexReadchild idx x c) = _
    by_cases hin : d.first ≤ c ∧ c ≤ d.last
    · obtain ⟨o, _, hread⟩ := h.readchild hin.1 hin.2
      rw [hread, hc]
      simp [childOffset, indexRead]
    · unfold indexReadchild
      rw [h.first, h.last, if_neg hin]
  child := by
    intro x d ch h c d' ch' hc
    obtain ⟨h1, h2⟩ := h.ok.node.range c (by rw [hc]; simp)
    -- the offset in the parent leads to the stored child
    obtain ⟨o, hSo, hread⟩ := h.readchild h1 h2
    rw [hc] at hSo hread
    have hok := h.ok.child c
    have hused := h.ok.node.used c
    rw [hc] at hok hused
    have hpos := bodyLen_pos hused
    have ho : o < 2 ^ 28 := by
      have := hSo.fits
      unfold byteLen at this
      omega
    obtain ⟨y, hy, hrep⟩ := indexRead_stored idx hlt hSo hok
    refine ⟨y, ?_, hrep⟩
    show Except.ok (indexReadchild idx x c) = _
    rw [hread, childOffset, Nat.mod_eq_of_lt (word_lt ho d'), hy]

/-! ## Opening a written file -/

section Open

variable {d : NodeData} {children : UInt8 → IndexNode} (hok : Ok (.node d children))
  (hlt : (indexWrite (.node d children)).length < 2 ^ 28)
include hok hlt

theorem indexWrite_bytes : indexWrite (.node d children)
    = headerWith (12 ||| indexGetMask d) (layout (.node d children) 12) := by
  rw [length_indexWrite hok] at hlt
  rw [indexWrite_eq hok (by omega)]
  simp only [headerWith, List.append_assoc]

theorem root_stored : Stored (indexWrite (.node d children)) 12 (.node d children) where
  pos := by omega
  fits := by rw [length_indexWrite hok]
  bytes := by
    refine ⟨[], ?_⟩
    rw [indexWrite_bytes hok hlt, List.append_nil]
    rfl

/-- The header passes, and the root is what was written, unless nothing was written. -/
theorem indexMmOpen_written :
    ∃ idx root, indexMmOpen (indexWrite (.node d children)) = .ok idx ∧
      idx.mm.length < 2 ^ 28 ∧ indexMmReadNode idx idx.rootOffset = .ok root ∧
      ShowsRoot (MmNode idx) root d children := by
  have hlen := length_indexWrite hok
  have hopen : indexMmOpen (indexWrite (.node d children))
      = .ok ⟨indexWrite (.node d children), 12 ||| indexGetMask d⟩ := by
    rw [indexWrite_bytes hok hlt]
    exact indexMmOpen_headerWith (word_lt (by decide) d) _
  cases hpos : bodyLen d with
  | succ n =>
    obtain ⟨x, hx, hrep⟩ := indexMmReadNode_stored
      ⟨indexWrite (.node d children), 12 ||| indexGetMask d⟩ hlt (root_stored hok hlt) hok
      (by omega)
    exact ⟨_, some x, hopen, hlt, hx, hrep⟩
  | zero =>
    -- nothing follows the header, and the offset of the root points behind it
    have hnone : indexHaschildren d = false ∧ d.pfx = [] ∧ d.values = [] := by
      unfold bodyLen at hpos
      refine ⟨?_, ?_, ?_⟩
      · by_contra hc
        rw [if_pos (by simpa using hc)] at hpos
        omega
      · by_contra hp
        rw [if_pos hp] at hpos
        omega
      · by_contra hv
        rw [if_pos hv] at hpos
        omega
    have hnull : ∀ c, children c = .null := by
      intro c
      by_contra hne
      obtain ⟨_, hfl, hl⟩ := hok.node.bounds_of_child hne
      have : indexHaschildren d = true := by
        simpa [indexHaschildren] using UInt8.lt_of_le_of_lt hfl hl
      rw [hnone.1] at this
      exact absurd this (by simp)
    have hempty : byteLen (.node d children) = 0 := by
      unfold byteLen
      rw [hpos, charsOf, hnone.1]
      rfl
    refine ⟨_, none, hopen, hlt, ?_, hnone.2.2, hnone.2.1, hnull⟩
    unfold indexMmReadNode
    rw [word_address (by decide) d]
    refine if_pos (.inr ?_)
    show 12 ≥ (indexWrite (.node d children)).length
    omega

theorem indexFileOpen_written :
    ∃ idx x, indexFileOpen (indexWrite (.node d children)) = some idx ∧
      idx.file.length < 2 ^ 28 ∧ indexRead idx idx.rootOffset = some x ∧
      FileNode idx x d children := by
  have hopen : indexFileOpen (indexWrite (.node d children))
      = some ⟨indexWrite (.node d children), 12 ||| indexGetMask d⟩ := by
    rw [indexWrite_bytes hok hlt]
    exact indexFileOpen_headerWith (word_lt (by decide) d) _
  obtain ⟨x, hx, hrep⟩ := indexRead_stored
    ⟨indexWrite (.node d children), 12 ||| indexGetMask d⟩ hlt (root_stored hok hlt) hok
  exact ⟨_, x, hopen, hlt, hx, hrep⟩

end Open

end Kmod.Index
