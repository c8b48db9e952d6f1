import Kmod.Index.Read

/-!
# Exact lookups in a damaged index

`index_mm_read_node` compares the offset of a node with the size of the file, and
nothing else. All fields of a node stand behind its offset, one after the other,
and the flags in the offset say which of them there are. They are read wherever
they happen to be.

The fields are described here by their places in the file. A search goes down
from node to node, so it stays in the file exactly if, for every node that the key
leads to, what is read there does (`indexMmSearch_inside_iff`). A prefix with a byte
of eight bits stops it where `char` is signed, whatever the key.
-/

namespace Kmod.Index

open Bytes Relation

/-! ## Places -/

section Places

variable (file : List UInt8) (offset : Nat)

/-- Where a node begins. -/
def nodeAt : Nat := offset &&& INDEX_NODE_MASK

/-- The prefix of a node: the bytes up to a NUL. -/
def pfxAt : CStr :=
  if offset &&& INDEX_NODE_PREFIX ≠ 0 then (file.drop (nodeAt offset)).takeWhile (· ≠ 0) else []

/-- Where the range of children stands, behind the prefix. -/
def rangeAt : Nat :=
  nodeAt offset + if offset &&& INDEX_NODE_PREFIX ≠ 0 then (pfxAt file offset).length + 1 else 0

def firstAt : UInt8 :=
  if offset &&& INDEX_NODE_CHILDS ≠ 0 then file.getD (rangeAt file offset) 0 else INDEX_CHILDMAX

def lastAt : UInt8 :=
  if offset &&& INDEX_NODE_CHILDS ≠ 0 then file.getD (rangeAt file offset + 1) 0 else 0

/-- Where the offset of the child for a character stands. -/
def childAt (c : UInt8) : Nat :=
  rangeAt file offset + 2 + 4 * (c.toNat - (firstAt file offset).toNat)

/-- Where the number of values stands, behind the table of children. -/
def countAt : Nat :=
  rangeAt file offset + if offset &&& INDEX_NODE_CHILDS ≠ 0
    then 2 + 4 * ((lastAt file offset).toNat + 1 - (firstAt file offset).toNat) else 0

/-- The word at some place. -/
def wordAt (p : Nat) : Nat := ((takeBe32 (file.drop p)).map Prod.fst).getD 0

/-- The reader takes this offset for a node. -/
def InFile : Prop := 0 < nodeAt offset ∧ nodeAt offset < file.length

/-- The reader takes this range for one of children. -/
def RangeOk : Prop := offset &&& INDEX_NODE_CHILDS ≠ 0 →
  firstAt file offset ≤ lastAt file offset ∧ lastAt file offset < INDEX_CHILDMAX

/-- The parts that are read of every node are in the file. -/
structure NodeInside : Prop where
  pfx : offset &&& INDEX_NODE_PREFIX ≠ 0 → 0 ∈ file.drop (nodeAt offset)
  range : offset &&& INDEX_NODE_CHILDS ≠ 0 → rangeAt file offset + 2 ≤ file.length
  count : offset &&& INDEX_NODE_VALUES ≠ 0 → RangeOk file offset →
    countAt file offset + 4 ≤ file.length

end Places

/-- A key can have these characters in the place of a prefix. -/
def Comparable (host : Host) (pfx : CStr) : Prop := host.charSigned = true → ∀ p ∈ pfx, p < 128

instance (host : Host) (pfx : CStr) : Decidable (Comparable host pfx) :=
  inferInstanceAs (Decidable (_ → _))

/-- From a node with a rest of the key, the key leads to a child with a shorter rest. -/
inductive Descends (host : Host) (file : List UInt8) : Nat × CStr → Nat × CStr → Prop where
  | child {offset : Nat} {c : UInt8} {rest : CStr} : InFile file offset → RangeOk file offset →
      Comparable host (pfxAt file offset) → firstAt file offset ≤ c → c ≤ lastAt file offset →
      Descends host file (offset, pfxAt file offset ++ c :: rest)
        (wordAt file (childAt file offset c), rest)

/-- What is read at a node, with a rest of the key, is in the file. -/
structure VisitInside (host : Host) (file : List UInt8) (offset : Nat) (key : CStr) : Prop where
  node : NodeInside file offset
  child : RangeOk file offset → Comparable host (pfxAt file offset) →
    ∀ c rest, key = pfxAt file offset ++ c :: rest →
    firstAt file offset ≤ c → c ≤ lastAt file offset → childAt file offset c + 4 ≤ file.length
  value : RangeOk file offset → Comparable host (pfxAt file offset) →
    key = pfxAt file offset → offset &&& INDEX_NODE_VALUES ≠ 0 →
    0 < wordAt file (countAt file offset) → 0 ∈ file.drop (countAt file offset + 8)

/-- This holds of every node that the key leads to. -/
def SearchInside (host : Host) (file : List UInt8) (offset : Nat) (key : CStr) : Prop :=
  ∀ visit, ReflTransGen (Descends host file) (offset, key) visit → InFile file visit.1 →
    VisitInside host file visit.1 visit.2

/-! ## Reading a node -/

section ReadNode

variable (idx : IndexMm) (offset : Nat)

/-- The node at an offset, if its parts are in the file. -/
def nodeOf : IndexMmNode where
  pfx := pfxAt idx.mm offset
  first := firstAt idx.mm offset
  last := lastAt idx.mm offset
  children := if offset &&& INDEX_NODE_CHILDS ≠ 0 then idx.mm.drop (rangeAt idx.mm offset + 2) else []
  valueCount :=
    if offset &&& INDEX_NODE_VALUES ≠ 0 then wordAt idx.mm (countAt idx.mm offset) else 0
  values := if offset &&& INDEX_NODE_VALUES ≠ 0 then idx.mm.drop (countAt idx.mm offset + 4) else []

theorem readU32Mm_inside {file : List UInt8} {p : Nat} (h : p + 4 ≤ file.length) :
    readU32Mm (file.drop p) = .ok (wordAt file p, file.drop (p + 4)) := by
  obtain ⟨w, hw⟩ := takeBe32_of_le (s := file.drop p) (by rw [List.length_drop]; omega)
  rw [readU32Mm, mmRead, wordAt, hw, List.drop_drop]
  rfl

theorem readU32Mm_outside {file : List UInt8} {p : Nat} (h : file.length < p + 4) :
    readU32Mm (file.drop p) = .error .outOfBounds := by
  rw [readU32Mm, mmRead, takeBe32_of_lt (by rw [List.length_drop]; omega)]

theorem readPfxMm_inside {file : List UInt8}
    (h : offset &&& INDEX_NODE_PREFIX ≠ 0 → 0 ∈ file.drop (nodeAt offset)) :
    readPfxMm offset (file.drop (nodeAt offset))
      = .ok (pfxAt file offset, file.drop (rangeAt file offset)) := by
  unfold readPfxMm pfxAt rangeAt pfxAt
  split
  · rename_i hpfx
    rw [readCharsMm, mmRead, takeCstr_of_mem (h hpfx), List.drop_drop]
  · rw [Nat.add_zero]

theorem readPfxMm_outside {file : List UInt8}
    (h : ¬ (offset &&& INDEX_NODE_PREFIX ≠ 0 → 0 ∈ file.drop (nodeAt offset))) :
    readPfxMm offset (file.drop (nodeAt offset)) = .error .outOfBounds := by
  obtain ⟨hpfx, hnul⟩ := Classical.not_imp.mp h
  rw [readPfxMm, if_pos hpfx, readCharsMm, mmRead, takeCstr_of_notMem hnul]

theorem range_rejected_iff (first last : UInt8) :
    (first > last ∨ first ≥ INDEX_CHILDMAX ∨ last ≥ INDEX_CHILDMAX) ↔
      ¬ (first ≤ last ∧ last < INDEX_CHILDMAX) := by
  simp only [INDEX_CHILDMAX, gt_iff_lt, ge_iff_le, UInt8.lt_iff_toNat_lt, UInt8.le_iff_toNat_le]
  omega

theorem readRangeMm_inside {file : List UInt8} {p : Nat} (h : p + 2 ≤ file.length) :
    readRangeMm (file.drop p) =
      if file.getD p 0 ≤ file.getD (p + 1) 0 ∧ file.getD (p + 1) 0 < INDEX_CHILDMAX then
        .ok (some (file.getD p 0, file.getD (p + 1) 0, file.drop (p + 2),
          file.drop (p + (2 + 4 * ((file.getD (p + 1) 0).toNat + 1 - (file.getD p 0).toNat)))))
      else .ok none := by
  have hdrop : file.drop p = file.getD p 0 :: file.getD (p + 1) 0 :: file.drop (p + 2) := by
    rw [List.drop_eq_getElem_cons (by omega), List.drop_eq_getElem_cons (by omega),
      List.getD_eq_getElem _ _ (by omega), List.getD_eq_getElem _ _ (by omega)]
  rw [hdrop]
  simp only [readRangeMm, readCharMm, mmRead, List.next?, ok_bind, range_rejected_iff, ite_not,
    List.drop_drop, Nat.add_assoc]

theorem readRangeMm_outside {file : List UInt8} {p : Nat} (h : file.length < p + 2) :
    readRangeMm (file.drop p) = .error .outOfBounds := by
  have hlen : (file.drop p).length < 2 := by
    rw [List.length_drop]
    omega
  match file.drop p, hlen with
  | [], _ => rfl
  | [_], _ => rfl

instance (file : List UInt8) (offset : Nat) : Decidable (RangeOk file offset) :=
  inferInstanceAs (Decidable (_ → _))

theorem readChildsMm_inside {file : List UInt8}
    (h : offset &&& INDEX_NODE_CHILDS ≠ 0 → rangeAt file offset + 2 ≤ file.length) :
    readChildsMm offset (file.drop (rangeAt file offset)) =
      if RangeOk file offset then .ok (some (firstAt file offset, lastAt file offset,
        if offset &&& INDEX_NODE_CHILDS ≠ 0 then file.drop (rangeAt file offset + 2) else [],
        file.drop (countAt file offset)))
      else .ok none := by
  unfold readChildsMm RangeOk countAt firstAt lastAt
  by_cases hchilds : offset &&& INDEX_NODE_CHILDS ≠ 0
  · simp only [if_pos hchilds, readRangeMm_inside (h hchilds)]
    exact if_congr ⟨fun hrange _ => hrange, fun hrange => hrange hchilds⟩ rfl rfl
  · simp [hchilds]

theorem readChildsMm_outside {file : List UInt8}
    (h : ¬ (offset &&& INDEX_NODE_CHILDS ≠ 0 → rangeAt file offset + 2 ≤ file.length)) :
    readChildsMm offset (file.drop (rangeAt file offset)) = .error .outOfBounds := by
  obtain ⟨hchilds, hlen⟩ := Classical.not_imp.mp h
  rw [readChildsMm, if_pos hchilds, readRangeMm_outside (by omega)]

/-- **A node whose parts are in the file** is read as the file has it. -/
theorem indexMmReadNode_inside (hnode : InFile idx.mm offset) (h : NodeInside idx.mm offset) :
    indexMmReadNode idx offset
      = .ok (if RangeOk idx.mm offset then some (nodeOf idx offset) else none) := by
  have hin : ¬ (nodeAt offset = 0 ∨ nodeAt offset ≥ idx.mm.length) := by
    obtain ⟨hpos, hlt⟩ := hnode
    omega
  unfold indexMmReadNode
  rw [show offset &&& INDEX_NODE_MASK = nodeAt offset from rfl]
  dsimp only
  rw [if_neg hin, readPfxMm_inside offset h.pfx, ok_bind]
  dsimp only
  rw [readChildsMm_inside offset h.range]
  by_cases hrange : RangeOk idx.mm offset
  · rw [if_pos hrange, if_pos hrange, ok_bind]
    dsimp only
    unfold readCountMm nodeOf
    by_cases hvalues : offset &&& INDEX_NODE_VALUES ≠ 0
    · simp only [if_pos hvalues, readU32Mm_inside (h.count hvalues hrange), ok_bind]
    · simp only [if_neg hvalues, ok_bind]
  · rw [if_neg hrange, if_neg hrange, ok_bind]

/-- **A node with a part outside of the file** is read beyond the end. -/
theorem indexMmReadNode_outside (hnode : InFile idx.mm offset) (h : ¬ NodeInside idx.mm offset) :
    indexMmReadNode idx offset = .error .outOfBounds := by
  have hin : ¬ (nodeAt offset = 0 ∨ nodeAt offset ≥ idx.mm.length) := by
    obtain ⟨hpos, hlt⟩ := hnode
    omega
  unfold indexMmReadNode
  rw [show offset &&& INDEX_NODE_MASK = nodeAt offset from rfl]
  dsimp only
  rw [if_neg hin]
  by_cases hpfx : offset &&& INDEX_NODE_PREFIX ≠ 0 → 0 ∈ idx.mm.drop (nodeAt offset)
  · rw [readPfxMm_inside offset hpfx, ok_bind]
    dsimp only
    by_cases hchilds : offset &&& INDEX_NODE_CHILDS ≠ 0 → rangeAt idx.mm offset + 2 ≤ idx.mm.length
    · rw [readChildsMm_inside offset hchilds]
      -- so it is the number of values that is not there
      have hcount : ¬ (offset &&& INDEX_NODE_VALUES ≠ 0 → RangeOk idx.mm offset →
          countAt idx.mm offset + 4 ≤ idx.mm.length) := fun hcount => h ⟨hpfx, hchilds, hcount⟩
      obtain ⟨hvalues, hcount⟩ := Classical.not_imp.mp hcount
      obtain ⟨hrange, hlen⟩ := Classical.not_imp.mp hcount
      rw [if_pos hrange, ok_bind]
      dsimp only
      rw [readCountMm, if_pos hvalues, readU32Mm_outside (by omega), error_bind]
    · rw [readChildsMm_outside offset hchilds, error_bind]
  · rw [readPfxMm_outside offset hpfx, error_bind]

theorem indexMmReadNode_none (hnode : ¬ InFile idx.mm offset) :
    indexMmReadNode idx offset = .ok none := by
  have hin : nodeAt offset = 0 ∨ nodeAt offset ≥ idx.mm.length := by
    unfold InFile at hnode
    omega
  exact if_pos hin

end ReadNode

/-! ## The search -/

section Search

variable {N : Type} {host : Host} (r : Reader N)

/-- The prefix of a node is compared first. -/
theorem searchNode_pfx (node : N) {pfx : CStr} (rest : CStr) (h : Comparable host pfx) :
    searchNode host r node pfx (pfx ++ rest) = searchNode host r node [] rest := by
  induction pfx with
  | nil => rfl
  | cons p pfx ih =>
    have hp : sameChar host p p = true :=
      sameChar_iff.mpr ⟨rfl, fun hs => h hs p (List.mem_cons_self ..)⟩
    rw [List.cons_append, searchNode, if_pos hp]
    exact ih (fun hs q hq => h hs q (List.mem_cons_of_mem _ hq))

theorem searchNode_other (node : N) {pfx : CStr} :
    ∀ {key : CStr}, ¬ (Comparable host pfx ∧ pfx <+: key) →
      searchNode host r node pfx key = .ok none := by
  induction pfx with
  | nil => exact fun h => absurd ⟨fun _ p hp => (nomatch hp), List.nil_prefix⟩ h
  | cons p pfx ih =>
    intro key h
    cases key with
    | nil => rfl
    | cons k key =>
      rw [searchNode]
      by_cases hpk : sameChar host p k = true
      · obtain ⟨heq, hlt⟩ := sameChar_iff.mp hpk
        rw [if_pos hpk]
        refine ih (fun ⟨hcomp, hpre⟩ => h ⟨fun hs => ?_, List.cons_prefix_cons.mpr ⟨heq, hpre⟩⟩)
        exact List.forall_mem_cons.mpr ⟨hlt hs, hcomp hs⟩
      · rw [if_neg hpk]

/-- The search goes on at a child, if there is one. -/
theorem withChild_search (node : N) (c : UInt8) (rest : CStr) :
    r.withChild node c none (fun child => searchNode host r child (r.pfx child) rest)
      = r.readchild node c >>= fun child => search host r child rest := by
  unfold Reader.withChild
  cases r.readchild node c with
  | error e => rfl
  | ok child => cases child <;> rfl

end Search

/-- The search from the node at an offset on. -/
def searchFrom (host : Host) (idx : IndexMm) (offset : Nat) (key : CStr) :
    Except Fault (Option CStr) := do
  search host (mmReader idx) (← indexMmReadNode idx offset) key

section SearchFrom

variable {host : Host} {idx : IndexMm} {offset : Nat}

theorem searchFrom_inside (hnode : InFile idx.mm offset) (h : NodeInside idx.mm offset)
    (hrange : RangeOk idx.mm offset) (hcomp : Comparable host (pfxAt idx.mm offset))
    (rest : CStr) :
    searchFrom host idx offset (pfxAt idx.mm offset ++ rest)
      = searchNode host (mmReader idx) (nodeOf idx offset) [] rest := by
  rw [searchFrom, indexMmReadNode_inside idx offset hnode h, if_pos hrange, ok_bind]
  exact searchNode_pfx _ _ _ hcomp

/-- The key ends at a node: its first value is read. -/
theorem searchFrom_end (hnode : InFile idx.mm offset) (h : NodeInside idx.mm offset)
    (hrange : RangeOk idx.mm offset) (hcomp : Comparable host (pfxAt idx.mm offset)) :
    (∃ value, searchFrom host idx offset (pfxAt idx.mm offset) = .ok value) ↔
      (offset &&& INDEX_NODE_VALUES ≠ 0 → 0 < wordAt idx.mm (countAt idx.mm offset) →
        0 ∈ idx.mm.drop (countAt idx.mm offset + 8)) := by
  have hsearch := searchFrom_inside hnode h hrange hcomp []
  rw [List.append_nil, searchNode] at hsearch
  rw [hsearch]
  simp only [mmReader, nodeOf]
  by_cases hvalues : offset &&& INDEX_NODE_VALUES ≠ 0
  · by_cases hpos : 0 < wordAt idx.mm (countAt idx.mm offset)
    · simp only [if_pos hvalues, hpos, decide_true, if_true, readCharsMm, mmRead, List.drop_drop,
        Nat.add_assoc]
      by_cases hnul : 0 ∈ idx.mm.drop (countAt idx.mm offset + (4 + 4))
      · rw [takeCstr_of_mem hnul]
        exact ⟨fun _ _ _ => hnul, fun _ => ⟨_, rfl⟩⟩
      · rw [takeCstr_of_notMem hnul]
        exact ⟨fun ⟨_, hf⟩ => (nomatch hf), fun hf => absurd (hf hvalues trivial) hnul⟩
    · simp only [if_pos hvalues, hpos, decide_false, Bool.false_eq_true, if_false]
      exact ⟨fun _ _ hf => (nomatch hf), fun _ => ⟨_, rfl⟩⟩
  · simp only [if_neg hvalues, Nat.lt_irrefl, decide_false, Bool.false_eq_true, if_false]
    exact ⟨fun _ hf => absurd hf hvalues, fun _ => ⟨_, rfl⟩⟩

/-- The key goes on behind a node: the offset of a child is read, and the search goes on there. -/
theorem searchFrom_child (hnode : InFile idx.mm offset) (h : NodeInside idx.mm offset)
    (hrange : RangeOk idx.mm offset) (hcomp : Comparable host (pfxAt idx.mm offset)) (c : UInt8)
    (rest : CStr) :
    searchFrom host idx offset (pfxAt idx.mm offset ++ c :: rest) =
      if firstAt idx.mm offset ≤ c ∧ c ≤ lastAt idx.mm offset then
        if childAt idx.mm offset c + 4 ≤ idx.mm.length then
          searchFrom host idx (wordAt idx.mm (childAt idx.mm offset c)) rest
        else .error .outOfBounds
      else .ok none := by
  rw [searchFrom_inside hnode h hrange hcomp, searchNode, withChild_search]
  show (indexMmReadchild idx (nodeOf idx offset) c >>= _) = _
  unfold indexMmReadchild
  by_cases hin : firstAt idx.mm offset ≤ c ∧ c ≤ lastAt idx.mm offset
  · -- a node without children has an empty range
    have hchilds : offset &&& INDEX_NODE_CHILDS ≠ 0 := by
      intro hno
      simp only [firstAt, lastAt, hno, ne_eq, not_true_eq_false, if_false] at hin
      exact absurd (UInt8.le_trans hin.1 hin.2) (by decide)
    have hdrop : (nodeOf idx offset).children.drop (4 * (c.toNat - (nodeOf idx offset).first.toNat))
        = idx.mm.drop (childAt idx.mm offset c) := by
      simp only [nodeOf, if_pos hchilds, List.drop_drop, childAt]
    rw [if_pos hin, hdrop]
    rw [if_pos (show (nodeOf idx offset).first ≤ c ∧ c ≤ (nodeOf idx offset).last from hin)]
    by_cases hlen : childAt idx.mm offset c + 4 ≤ idx.mm.length
    · rw [if_pos hlen, readU32Mm_inside hlen, ok_bind]
      rfl
    · rw [if_neg hlen, readU32Mm_outside (by omega), error_bind, error_bind]
  · rw [if_neg hin,
      if_neg (show ¬ ((nodeOf idx offset).first ≤ c ∧ c ≤ (nodeOf idx offset).last) from hin), ok_bind]
    rfl

end SearchFrom

/-- The node itself, and the node that the key leads to from there. -/
theorem searchInside_iff {host : Host} {file : List UInt8} {offset : Nat} {key : CStr} :
    SearchInside host file offset key ↔
      (InFile file offset → VisitInside host file offset key) ∧
        ∀ next, Descends host file (offset, key) next → SearchInside host file next.1 next.2 := by
  refine ⟨fun h => ⟨h (offset, key) .refl, fun next hnext visit hvisit => ?_⟩,
    fun h visit hvisit => ?_⟩
  · exact h visit (.head hnext hvisit)
  · rcases ReflTransGen.cases_head hvisit with rfl | ⟨next, hnext, hrest⟩
    · exact h.1
    · exact h.2 next hnext visit hrest

/-- What a step down says about the key. -/
theorem Descends.inv {host : Host} {file : List UInt8} {offset : Nat} {key : CStr}
    {next : Nat × CStr} (h : Descends host file (offset, key) next) :
    InFile file offset ∧ RangeOk file offset ∧ Comparable host (pfxAt file offset) ∧
      ∃ c rest, key = pfxAt file offset ++ c :: rest ∧ firstAt file offset ≤ c ∧
        c ≤ lastAt file offset ∧ next = (wordAt file (childAt file offset c), rest) := by
  cases h with
  | child hnode hrange hcomp hfirst hlast =>
    exact ⟨hnode, hrange, hcomp, _, _, rfl, hfirst, hlast, rfl⟩

section Rules

variable {host : Host} {idx : IndexMm} {offset : Nat}

/-- Behind a node, everything depends on the child. -/
theorem searchFrom_cons_iff (hnode : InFile idx.mm offset) (hin : NodeInside idx.mm offset)
    (hrange : RangeOk idx.mm offset) (hcomp : Comparable host (pfxAt idx.mm offset)) {c : UInt8}
    {rest : CStr} (ih : ∀ off, (∃ value, searchFrom host idx off rest = .ok value) ↔
      SearchInside host idx.mm off rest) :
    (∃ value, searchFrom host idx offset (pfxAt idx.mm offset ++ c :: rest) = .ok value) ↔
      SearchInside host idx.mm offset (pfxAt idx.mm offset ++ c :: rest) := by
  rw [searchFrom_child hnode hin hrange hcomp, searchInside_iff]
  have hinj : ∀ {c' rest'}, pfxAt idx.mm offset ++ c :: rest = pfxAt idx.mm offset ++ c' :: rest' →
      c = c' ∧ rest = rest' := fun heq => List.cons.inj (List.append_cancel_left heq)
  have hvalue : pfxAt idx.mm offset ++ c :: rest ≠ pfxAt idx.mm offset := fun heq =>
    absurd (congrArg List.length heq) (by simp)
  by_cases hc : firstAt idx.mm offset ≤ c ∧ c ≤ lastAt idx.mm offset
  · rw [if_pos hc]
    by_cases hlen : childAt idx.mm offset c + 4 ≤ idx.mm.length
    · rw [if_pos hlen, ih]
      refine ⟨fun h => ⟨fun _ => ⟨hin, fun _ _ c' rest' heq _ _ => ?_,
        fun _ _ heq => absurd heq hvalue⟩, fun next hnext => ?_⟩,
        fun h => h.2 _ (.child hnode hrange hcomp hc.1 hc.2)⟩
      · obtain ⟨rfl, rfl⟩ := hinj heq
        exact hlen
      · obtain ⟨_, _, _, c', rest', heq, _, _, rfl⟩ := hnext.inv
        obtain ⟨rfl, rfl⟩ := hinj heq
        exact h
    · rw [if_neg hlen]
      refine ⟨fun ⟨_, hf⟩ => (nomatch hf), fun h => absurd ?_ hlen⟩
      exact (h.1 hnode).child hrange hcomp c rest rfl hc.1 hc.2
  · rw [if_neg hc]
    refine ⟨fun _ => ⟨fun _ => ⟨hin, fun _ _ c' rest' heq hfirst hlast => ?_,
      fun _ _ heq => absurd heq hvalue⟩, fun next hnext => ?_⟩, fun _ => ⟨_, rfl⟩⟩
    · obtain ⟨rfl, rfl⟩ := hinj heq
      exact absurd ⟨hfirst, hlast⟩ hc
    · obtain ⟨_, _, _, c', rest', heq, hfirst, hlast, _⟩ := hnext.inv
      obtain ⟨rfl, rfl⟩ := hinj heq
      exact absurd ⟨hfirst, hlast⟩ hc

/-- A search that ends at a node without a value has read no more than the node. -/
theorem searchInside_of_none {key : CStr} (hin : NodeInside idx.mm offset)
    (h : RangeOk idx.mm offset →
      ¬ (Comparable host (pfxAt idx.mm offset) ∧ pfxAt idx.mm offset <+: key)) :
    SearchInside host idx.mm offset key := by
  rw [searchInside_iff]
  refine ⟨fun _ => ⟨hin, fun hrange hcomp c rest heq => ?_, fun hrange hcomp heq => ?_⟩,
    fun next hnext => ?_⟩
  · exact absurd ⟨hcomp, _, heq.symm⟩ (h hrange)
  · exact absurd ⟨hcomp, [], by rw [List.append_nil, heq]⟩ (h hrange)
  · obtain ⟨_, hrange, hcomp, c, rest, heq, _⟩ := hnext.inv
    exact absurd ⟨hcomp, _, heq.symm⟩ (h hrange)

end Rules

theorem searchFrom_inside_iff (host : Host) (idx : IndexMm) (n : Nat) :
    ∀ (offset : Nat) (key : CStr), key.length < n →
      ((∃ value, searchFrom host idx offset key = .ok value) ↔
        SearchInside host idx.mm offset key) := by
  -- every step down takes a character off the key
  induction n with
  | zero => exact fun _ _ h => absurd h (Nat.not_lt_zero _)
  | succ n ih =>
    intro offset key hkey
    by_cases hnode : InFile idx.mm offset
    · by_cases hin : NodeInside idx.mm offset
      · by_cases hrange : RangeOk idx.mm offset
        · by_cases hmatch : Comparable host (pfxAt idx.mm offset) ∧ pfxAt idx.mm offset <+: key
          · obtain ⟨hcomp, rest, rfl⟩ := hmatch
            cases rest with
            | nil =>
              rw [List.append_nil, searchFrom_end hnode hin hrange hcomp, searchInside_iff]
              refine ⟨fun hvalue => ⟨fun _ => ⟨hin, fun _ _ c rest heq => ?_, fun _ _ _ => hvalue⟩,
                fun next hnext => ?_⟩, fun h => (h.1 hnode).value hrange hcomp rfl⟩
              · exact absurd (congrArg List.length heq) (by simp)
              · obtain ⟨_, _, _, c, rest, heq, _⟩ := hnext.inv
                exact absurd (congrArg List.length heq) (by simp)
            | cons c rest =>
              rw [List.length_append, List.length_cons] at hkey
              exact searchFrom_cons_iff hnode hin hrange hcomp (fun off => ih off rest (by omega))
          · refine ⟨fun _ => searchInside_of_none hin (fun _ => hmatch), fun _ => ⟨none, ?_⟩⟩
            rw [searchFrom, indexMmReadNode_inside idx offset hnode hin, if_pos hrange, ok_bind]
            exact searchNode_other _ _ hmatch
        · refine ⟨fun _ => searchInside_of_none hin (fun h => absurd h hrange), fun _ => ⟨none, ?_⟩⟩
          rw [searchFrom, indexMmReadNode_inside idx offset hnode hin, if_neg hrange]
          rfl
      · rw [searchFrom, indexMmReadNode_outside idx offset hnode hin, error_bind, searchInside_iff]
        exact ⟨fun ⟨_, hf⟩ => (nomatch hf), fun h => absurd (h.1 hnode).node hin⟩
    · rw [searchFrom, indexMmReadNode_none idx offset hnode, searchInside_iff]
      refine ⟨fun _ => ⟨fun h => absurd h hnode, fun next hnext => ?_⟩, fun _ => ⟨none, rfl⟩⟩
      exact absurd hnext.inv.1 hnode

theorem indexMmOpen_mm {file : List UInt8} {idx : IndexMm} (hopen : indexMmOpen file = .ok idx) :
    idx.mm = file := by
  unfold indexMmOpen at hopen
  split at hopen
  · cases hopen
  · split at hopen
    · cases hopen
    · split at hopen
      · cases hopen
      · split at hopen
        · cases hopen
        · split at hopen
          · cases hopen
          · split at hopen
            · cases hopen
            · rw [← Except.ok.inj hopen]

/--
**When an exact lookup stays inside the mapping.** On a file that `index_mm_open`
accepts, the search for a key ends with an answer, without a read outside of the
file, exactly if all that is read of the nodes the key leads to is in the file:
their prefixes with the NUL behind them, their ranges of children and numbers of
values, the offset of the next child, and the first value where the key ends.
-/
theorem indexMmSearch_inside_iff (host : Host) (file : List UInt8) (idx : IndexMm)
    (hopen : indexMmOpen file = .ok idx) (key : CStr) :
    (∃ value, indexMmSearch host idx key = .ok value) ↔
      SearchInside host file idx.rootOffset key := by
  rw [← indexMmOpen_mm hopen]
  exact searchFrom_inside_iff host idx (key.length + 1) idx.rootOffset key (Nat.lt_succ_self _)

/-- The root has the value `a`. -/
def valueFile : List UInt8 :=
  headerWith (12 ||| INDEX_NODE_VALUES) (be32 1 ++ be32 0 ++ cstr "a" ++ [0])

/-- The file ends within the prefix of the root. -/
def cutFile : List UInt8 := headerWith (12 ||| INDEX_NODE_PREFIX) (cstr "a")

theorem indexMmSearch_inside_valueFile :
    indexMmOpen valueFile = .ok ⟨valueFile, 12 ||| INDEX_NODE_VALUES⟩ ∧
      indexMmSearch littleHost ⟨valueFile, 12 ||| INDEX_NODE_VALUES⟩ [] = .ok (some (cstr "a")) ∧
      SearchInside littleHost valueFile (12 ||| INDEX_NODE_VALUES) [] := by
  have hopen : indexMmOpen valueFile = .ok ⟨valueFile, 12 ||| INDEX_NODE_VALUES⟩ :=
    indexMmOpen_headerWith (by decide) _
  have hfound : indexMmSearch littleHost ⟨valueFile, 12 ||| INDEX_NODE_VALUES⟩ []
      = .ok (some (cstr "a")) := by
    decide
  exact ⟨hopen, hfound,
    (indexMmSearch_inside_iff littleHost valueFile _ hopen []).mp ⟨_, hfound⟩⟩

-- a prefix with a byte of eight bits stops the search before a value is missed, but only where
-- `char` is signed
example :
    indexMmSearch littleHost ⟨headerWith (12 ||| INDEX_NODE_PREFIX ||| INDEX_NODE_VALUES)
      (195 :: 0 :: be32 1), 12 ||| INDEX_NODE_PREFIX ||| INDEX_NODE_VALUES⟩ [195] = .ok none ∧
    indexMmSearch ⟨false, false⟩ ⟨headerWith (12 ||| INDEX_NODE_PREFIX ||| INDEX_NODE_VALUES)
      (195 :: 0 :: be32 1), 12 ||| INDEX_NODE_PREFIX ||| INDEX_NODE_VALUES⟩ [195]
        = .error .outOfBounds := by
  decide

theorem indexMmSearch_cutFile :
    indexMmOpen cutFile = .ok ⟨cutFile, 12 ||| INDEX_NODE_PREFIX⟩ ∧
      indexMmSearch littleHost ⟨cutFile, 12 ||| INDEX_NODE_PREFIX⟩ (cstr "a")
        = .error .outOfBounds :=
  ⟨indexMmOpen_headerWith (by decide) _, by decide⟩

end Kmod.Index
