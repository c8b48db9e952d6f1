import Kmod.Lib.ByteScan
import Kmod.Shared.Strbuf

/-!
# The information about a builtin module

`modules.builtin.modinfo` is a sequence of terminated records `modname.key=value`, in
which the records of a module stand together. `kmod_builtin_get_modinfo` reads records
until those of the module it looks for are over, and collects what stands behind the
first dot of them in a string buffer. The buffer's storage then becomes the result: it is
made larger, the text is moved to its end, and what is in front becomes a table of
pointers to the strings.

The table and the strings share one block, and a pointer is eight bytes of it. So the
result is right when the addresses in the table, read back, lead to the strings:
`readVector` is what a caller does with it.
-/

namespace Kmod

open Kmod.Bytes Kmod.ByteScan Kmod.Memory

/-! ## The source -/

/-- `INTPTR_MAX`. -/
def INTPTR_MAX : Nat := 9223372036854775807

/-- A file that is read: the bytes still to come, and the error they end with, if any. -/
structure Stream where
  rest : List UInt8
  error : Option Int

/-- `getdelim` with NUL: the buffer, in which a NUL is put behind what was read. -/
def getdelim (fp : Stream) : Option (List UInt8 × Stream) :=
  if fp.rest = [] then none
  else
    let n := (fp.rest.takeWhile (· != 0)).length + 1
    some (fp.rest.take n ++ [0], ⟨fp.rest.drop n, fp.error⟩)

def MODULES_BUILTIN_MODINFO : CStr := cstr "modules.builtin.modinfo"

/-- `kmod_builtin_info_init`: the open file, or the negative error. -/
def kmodBuiltinInfoInit (fopen : CStr → Except Int Stream) (dirname : CStr) : Except Int Stream :=
  if dirname.length + 1 + MODULES_BUILTIN_MODINFO.length + 1 ≥ PATH_MAX then .error (-ENAMETOOLONG)
  else
    match fopen (dirname ++ 47 :: MODULES_BUILTIN_MODINFO) with
    | .error errno => .error (-errno)
    | .ok fp => .ok fp

/-- `strncmp(line, modname, modlen) || line[modlen] != '.'` does not hold. -/
def isOfModule (modname : CStr) (buf : List UInt8) : Except Fault Bool := do
  let same ← inBlock (startsWithTail modname buf)
  if same then
    let c ← inBlock buf[modname.length]?
    .ok (c == 46)
  else .ok false

/-- `get_strings`: the count or a negative error, and the buffer. A round reads a record. -/
def getStrings (modname : CStr) : Nat → Stream → Strbuf → Nat → Except Fault (Int × Strbuf)
  | 0, _, _, _ => .error .outOfFuel
  | fuel + 1, fp, buf, count =>
    if count < INTPTR_MAX then
      match getdelim fp with
      | none => .ok (fp.error.elim (count : Int) (fun errno => -errno), buf)
      | some (line, fp) => do
        let text ← stringAt line 0
        match text.idxOf? 46 with
        | none => .ok (-EINVAL, buf)
        | some dot => do
          let same ← isOfModule modname line
          if same = false then
            -- with a record of the module before, no other one will follow
            if count = 0 then getStrings modname fuel fp buf count else .ok (count, buf)
          else
            let pushed := strbufPushchars buf (text.drop (dot + 1))
            if pushed.1 = 0 then .ok (-ENOMEM, pushed.2)
            else
              let ended := strbufPushchar pushed.2 0
              if ended.1 = false then .ok (-ENOMEM, ended.2)
              else getStrings modname fuel fp ended.2 (count + 1)
    else .ok (-ENOMEM, buf)

/-- A block on the heap and its address. -/
structure Block where
  base : Nat
  mem : List UInt8

/-- The loop of `strbuf_to_vector`, from the pointer `n` and the string `s` on. -/
def fillVector (base : Nat) : Nat → Nat → Nat → List UInt8 → Except Fault (List UInt8)
  | 0, n, _, mem => inBlock (putRange mem (8 * n) (bytesLe 8 0))
  | left + 1, n, s, mem => do
    let mem ← inBlock (putRange mem (8 * n) (bytesLe 8 (base + s)))
    let text ← stringAt mem s
    fillVector base left (n + 1) (s + (text.length + 1)) mem

/-- `strbuf_to_vector`; the block is given the address `base`. -/
def strbufToVector (heap : Allocator) (base : Nat) (buf : Strbuf) (count : Nat) :
    Except Fault (Option Block) :=
  if count + 1 > SIZE_MAX ∨ 8 * (count + 1) > SIZE_MAX ∨
      buf.used + 8 * (count + 1) > SIZE_MAX then .ok none
  else if buf.heap = false then .error .outOfBounds
  else
    match heap.realloc buf.bytes (buf.used + 8 * (count + 1)) with
    | none => .ok none
    | some vector => do
      let text ← inBlock (getRange vector 0 buf.used)
      let vector ← inBlock (putRange vector (8 * (count + 1)) text)
      let vector ← fillVector base count 0 (8 * (count + 1)) vector
      .ok (some ⟨base, vector⟩)

/-- `kmod_builtin_get_modinfo`: what it returns, and `*modinfo` then. -/
def kmodBuiltinGetModinfo (heap : Allocator) (base : Nat) (fopen : CStr → Except Int Stream)
    (dirname modname : CStr) (modinfo : Option Block) : Except Fault (Int × Option Block) :=
  match kmodBuiltinInfoInit fopen dirname with
  | .error err => .ok (err, modinfo)
  | .ok fp => do
    let r ← getStrings modname (fp.rest.length + 1) fp declareStrbuf 0
    if r.1 = 0 then .ok (r.1, none)
    else if r.1 > 0 then
      match ← strbufToVector heap base r.2 r.1.toNat with
      | none => .ok (-ENOMEM, none)
      | some block => .ok (r.1, some block)
    else .ok (r.1, modinfo)

/-! ## Records -/

/-- A module's name: there is no dot and no NUL in it. -/
structure ModName where
  name : CStr
  dotless : 46 ∉ name
  nulFree : 0 ∉ name
  deriving DecidableEq

theorem ModName.ext {m n : ModName} (h : m.name = n.name) : m = n := by
  cases m
  cases n
  cases h
  rfl

/-- A record `modname.key=value`. -/
structure InfoRecord where
  modname : ModName
  key : CStr
  value : CStr
  keyNulFree : 0 ∉ key
  valueNulFree : 0 ∉ value

namespace InfoRecord

/-- What stands behind the dot. -/
def text (r : InfoRecord) : CStr := r.key ++ 61 :: r.value

def bytes (r : InfoRecord) : List UInt8 := r.modname.name ++ 46 :: (r.text ++ [0])

end InfoRecord

/-- The content of the file. -/
def contentOf (rs : List InfoRecord) : List UInt8 := rs.flatMap InfoRecord.bytes

/-- Between two records of a module there are only records of that module. -/
def Contiguous (rs : List InfoRecord) : Prop :=
  ∀ i j k : Fin rs.length, i ≤ j → j ≤ k → rs[i].modname = rs[k].modname →
    rs[j].modname = rs[i].modname

/-- The texts of a module's records, in the order of the file. -/
def textsOf (n : ModName) (rs : List InfoRecord) : List CStr :=
  (rs.filter (·.modname = n)).map InfoRecord.text

/-- Terminated strings, one behind the other. -/
def terminated (texts : List CStr) : List UInt8 := texts.flatMap (· ++ [0])

/-- The bytes a vector of strings takes, with its pointers. -/
def vectorSize (texts : List CStr) : Nat := (terminated texts).length + 8 * (texts.length + 1)

/-- The strings of a vector that is ended by NULL, from the pointer at `p` on. -/
def readVector (block : Block) : Nat → Nat → Except Fault (List CStr)
  | 0, _ => .error .outOfFuel
  | fuel + 1, p => do
    let q := uintLe (← inBlock (getRange block.mem p 8))
    if q = 0 then .ok []
    else if q < block.base then .error .outOfBounds
    else do
      let text ← stringAt block.mem (q - block.base)
      let texts ← readVector block fuel (p + 8)
      .ok (text :: texts)

/-! ## One record -/

section Record

variable {n : ModName} {r : InfoRecord}

namespace InfoRecord

theorem nul_not_mem_text (r : InfoRecord) : 0 ∉ r.text := by
  unfold text
  rw [List.mem_append, List.mem_cons, not_or, not_or]
  exact ⟨r.keyNulFree, by decide, r.valueNulFree⟩

theorem text_length_pos (r : InfoRecord) : 0 < r.text.length := by
  unfold text
  rw [List.length_append, List.length_cons]
  omega

/-- The record without its terminator. -/
theorem nul_not_mem (r : InfoRecord) : 0 ∉ r.modname.name ++ 46 :: r.text := by
  rw [List.mem_append, List.mem_cons, not_or, not_or]
  exact ⟨r.modname.nulFree, by decide, r.nul_not_mem_text⟩

theorem bytes_eq (r : InfoRecord) : r.bytes = (r.modname.name ++ 46 :: r.text) ++ [0] := by
  simp [bytes]

end InfoRecord

theorem getdelim_bytes (r : InfoRecord) (rest : List UInt8) :
    getdelim ⟨r.bytes ++ rest, none⟩ = some (r.bytes ++ [0], ⟨rest, none⟩) := by
  have hlen : ((r.bytes ++ rest).takeWhile (· != 0)).length + 1 = r.bytes.length := by
    have hall : ∀ c ∈ r.modname.name ++ 46 :: r.text, (c != 0) = true := by
      intro c hc
      rw [bne_iff_ne]
      rintro rfl
      exact r.nul_not_mem hc
    rw [r.bytes_eq, List.append_assoc, List.takeWhile_append_of_pos hall, List.singleton_append,
      List.takeWhile_cons_of_neg (by decide), List.append_nil]
    exact (List.length_append : (r.modname.name ++ 46 :: r.text ++ [0]).length = _).symm
  have hne : r.bytes ++ rest ≠ [] := by
    rw [r.bytes_eq]
    simp
  unfold getdelim
  rw [if_neg hne]
  dsimp only
  rw [hlen, List.take_left, List.drop_left]

/-- A name in front of a dot is the record's module, not a part of it and not more than it. -/
theorem isOfModule_bytes (n : ModName) (r : InfoRecord) :
    isOfModule n.name (r.bytes ++ [0]) = .ok (decide (r.modname = n)) := by
  have hnul : 0 ∈ r.bytes ++ [0] := List.mem_append_right _ List.mem_cons_self
  have hline : r.bytes ++ [0] = r.modname.name ++ 46 :: (r.text ++ [0, 0]) := by
    simp [InfoRecord.bytes]
  have hstart : startsWithTail n.name (r.bytes ++ [0]) =
      some (decide (n.name <+: r.bytes ++ [0])) :=
    startsWithTail_eq (fun h => n.nulFree (h.1.mem hnul))
  unfold isOfModule
  rw [hstart, inBlock_some, ok_bind]
  by_cases hpre : n.name <+: r.bytes ++ [0]
  · obtain ⟨rest, hrest⟩ := hpre
    cases rest with
    | nil =>
      rw [List.append_nil] at hrest
      exact absurd (hrest ▸ hnul) n.nulFree
    | cons c rest =>
      rw [decide_eq_true ⟨c :: rest, hrest⟩, if_pos rfl, ← hrest,
        List.getElem?_append_right (Nat.le_refl _), Nat.sub_self, List.getElem?_cons_zero,
        inBlock_some, ok_bind]
      rw [hline] at hrest
      refine congrArg Except.ok ?_
      rw [← Bool.coe_iff_coe, beq_iff_eq, decide_eq_true_eq]
      constructor
      · -- up to the first dot, both are the name
        rintro rfl
        exact ModName.ext (delimiter_inj n.dotless r.modname.dotless hrest).1.symm
      · rintro rfl
        exact (List.cons.inj (List.append_cancel_left hrest)).1
  · rw [decide_eq_false hpre, if_neg (by decide)]
    have hne : r.modname ≠ n := by
      rintro rfl
      exact hpre ⟨_, hline.symm⟩
    rw [decide_eq_false hne]

/-- What `get_strings` takes from a record. -/
theorem stringAt_bytes (r : InfoRecord) :
    stringAt (r.bytes ++ [0]) 0 = .ok (r.modname.name ++ 46 :: r.text) := by
  have hat := stringAt_append [] [0] r.nul_not_mem
  rw [r.bytes_eq, List.append_assoc]
  exact hat

theorem drop_dot (r : InfoRecord) :
    (r.modname.name ++ 46 :: r.text).drop (r.modname.name.length + 1) = r.text := by
  rw [← List.drop_drop, List.drop_left]
  rfl

/-- A record of another module: the loop goes on if it found none of the module yet. -/
theorem getStrings_other (hne : r.modname ≠ n) (count : Nat)
    (hcount : count < INTPTR_MAX) (fuel : Nat)
    (rest : List UInt8) (buf : Strbuf) :
    getStrings n.name (fuel + 1) ⟨r.bytes ++ rest, none⟩ buf count =
      if count = 0 then getStrings n.name fuel ⟨rest, none⟩ buf count else .ok (count, buf) := by
  rw [getStrings, if_pos hcount, getdelim_bytes]
  dsimp only
  rw [stringAt_bytes, ok_bind, idxOf?_delimiter r.modname.dotless]
  dsimp only
  rw [isOfModule_bytes, ok_bind, decide_eq_false hne, if_pos rfl]

/-- A record of the module adds its text. -/
theorem getStrings_same (r : InfoRecord) (count : Nat) (hcount : count < INTPTR_MAX) (fuel : Nat)
    (rest : List UInt8) {buf : Strbuf} (hheap : buf.heap = true)
    (hsize : buf.used + (r.text.length + 1) < SIZE_MAX - BUF_STEP) :
    ∃ buf', getStrings r.modname.name (fuel + 1) ⟨r.bytes ++ rest, none⟩ buf count =
        getStrings r.modname.name fuel ⟨rest, none⟩ buf' (count + 1) ∧
      buf'.contents = buf.contents ++ (r.text ++ [0]) ∧ buf'.heap = true := by
  obtain ⟨buf₁, hpush, hcontents₁⟩ := strbufPushchars_ok buf r.text (by omega)
  have hused : buf₁.used = buf.used + r.text.length := by
    rw [← buf₁.length_contents, hcontents₁, List.length_append, buf.length_contents]
  obtain ⟨buf₂, hend, hcontents₂⟩ := strbufPushchar_ok buf₁ 0 (by omega)
  have hheap₁ := heap_strbufPushchars r.text hheap
  rw [hpush] at hheap₁
  have hheap₂ := heap_strbufPushchar 0 hheap₁
  rw [hend] at hheap₂
  refine ⟨buf₂, ?_, ?_, hheap₂⟩
  · have hpos := r.text_length_pos
    rw [getStrings, if_pos hcount, getdelim_bytes]
    dsimp only
    rw [stringAt_bytes, ok_bind, idxOf?_delimiter r.modname.dotless]
    dsimp only
    rw [isOfModule_bytes, ok_bind, decide_eq_true rfl, if_neg (by decide), drop_dot, hpush]
    dsimp only
    rw [if_neg (by omega), hend]
    rfl
  · rw [hcontents₂, hcontents₁, List.append_assoc]

end Record

/-! ## All records -/

theorem terminated_cons (t : CStr) (texts : List CStr) :
    terminated (t :: texts) = (t ++ [0]) ++ terminated texts := rfl

/-- The loop over records of the module, with what it does behind them. -/
theorem getStrings_during {n : ModName} (fuel : Nat) (rest : List UInt8) (rs : List InfoRecord) :
    ∀ (buf : Strbuf) (count : Nat), (∀ r ∈ rs, r.modname = n) → buf.heap = true →
      buf.used + (terminated (rs.map InfoRecord.text)).length < SIZE_MAX - BUF_STEP →
      count + rs.length ≤ INTPTR_MAX →
      ∃ buf', getStrings n.name (fuel + rs.length) ⟨contentOf rs ++ rest, none⟩ buf count =
          getStrings n.name fuel ⟨rest, none⟩ buf' (count + rs.length) ∧
        buf'.contents = buf.contents ++ terminated (rs.map InfoRecord.text) ∧ buf'.heap = true := by
  induction rs with
  | nil =>
    intro buf count _ hheap _ _
    exact ⟨buf, rfl, (List.append_nil _).symm, hheap⟩
  | cons r rs ih =>
    intro buf count hall hheap hsize hcount
    obtain ⟨rfl, hall⟩ := List.forall_mem_cons.mp hall
    rw [List.map_cons, terminated_cons, List.length_append, List.length_append,
      List.length_singleton] at hsize
    rw [List.length_cons] at hcount
    obtain ⟨buf₁, hstep, hcontents₁, hheap₁⟩ :=
      getStrings_same r count (by omega) (fuel + rs.length) (contentOf rs ++ rest) hheap (by omega)
    have hused : buf₁.used = buf.used + (r.text.length + 1) := by
      rw [← buf₁.length_contents, hcontents₁, List.length_append, buf.length_contents,
        List.length_append, List.length_singleton]
    obtain ⟨buf₂, hrun, hcontents₂, hheap₂⟩ := ih buf₁ (count + 1) hall hheap₁ (by omega) (by omega)
    refine ⟨buf₂, ?_, ?_, hheap₂⟩
    · rw [List.length_cons, show count + (rs.length + 1) = count + 1 + rs.length by omega, ← hrun,
        ← hstep]
      simp [contentOf, Nat.add_assoc]
    · rw [hcontents₂, hcontents₁, List.append_assoc]
      rfl

/-- The loop over records of other modules, as long as it found none. -/
theorem getStrings_before {n : ModName} (fuel : Nat) (rest : List UInt8) (buf : Strbuf)
    (rs : List InfoRecord) (hall : ∀ r ∈ rs, r.modname ≠ n) :
    getStrings n.name (fuel + rs.length) ⟨contentOf rs ++ rest, none⟩ buf 0 =
      getStrings n.name fuel ⟨rest, none⟩ buf 0 := by
  induction rs with
  | nil => rfl
  | cons r rs ih =>
    obtain ⟨hne, hall⟩ := List.forall_mem_cons.mp hall
    have hstep := getStrings_other hne 0 (by decide) (fuel + rs.length) (contentOf rs ++ rest) buf
    rw [if_pos rfl, ih hall] at hstep
    rw [← hstep]
    simp [contentOf, Nat.add_assoc]

theorem Contiguous.between {rs a b c d : List InfoRecord} {x y z : InfoRecord} (h : Contiguous rs)
    (hrs : rs = a ++ x :: (b ++ y :: (c ++ z :: d))) (hxz : x.modname = z.modname) :
    y.modname = x.modname := by
  subst hrs
  have hx : (a ++ x :: (b ++ y :: (c ++ z :: d)))[a.length]? = some x := by simp
  have hy : (a ++ x :: (b ++ y :: (c ++ z :: d)))[a.length + (b.length + 1)]? = some y := by simp
  have hz : (a ++ x :: (b ++ y :: (c ++ z :: d)))[a.length + (b.length + (c.length + 1) + 1)]? =
      some z := by
    rw [List.getElem?_append_right (Nat.le_add_right _ _), Nat.add_sub_cancel_left,
      List.getElem?_cons_succ, List.getElem?_append_right (Nat.le_add_right _ _),
      Nat.add_sub_cancel_left, List.getElem?_cons_succ, List.getElem?_append_right (Nat.le_refl _),
      Nat.sub_self, List.getElem?_cons_zero]
  obtain ⟨hi, hx⟩ := List.getElem?_eq_some_iff.mp hx
  obtain ⟨hj, hy⟩ := List.getElem?_eq_some_iff.mp hy
  obtain ⟨hk, hz⟩ := List.getElem?_eq_some_iff.mp hz
  have hends := (congrArg InfoRecord.modname hx).trans
    (hxz.trans (congrArg InfoRecord.modname hz).symm)
  have hsame := h ⟨_, hi⟩ ⟨_, hj⟩ ⟨_, hk⟩ (Nat.le_add_right _ _)
    (Nat.add_le_add_left (Nat.add_le_add_right (Nat.le_add_right _ _) _) _) hends
  exact (congrArg InfoRecord.modname hy).symm.trans (hsame.trans (congrArg InfoRecord.modname hx))

/-- A list from which the first part that has a property is cut. -/
theorem exists_cut {α : Type} (p : α → Prop) [DecidablePred p] (l : List α) :
    ∃ a b, l = a ++ b ∧ (∀ x ∈ a, p x) ∧ ∀ x t, b = x :: t → ¬ p x := by
  refine ⟨l.takeWhile p, l.dropWhile p, List.takeWhile_append_dropWhile.symm, ?_, ?_⟩
  · intro x hx
    exact of_decide_eq_true (List.mem_takeWhile_imp (p := fun y => decide (p y)) hx)
  · intro x t hxt
    have hhead := List.head?_dropWhile_not (fun y => decide (p y)) l
    rw [hxt] at hhead
    simpa using hhead

/-- Contiguous records: those of the module are in the middle. -/
theorem Contiguous.split {rs : List InfoRecord} (h : Contiguous rs) (n : ModName) :
    ∃ before during after, rs = before ++ (during ++ after) ∧ (∀ r ∈ before, r.modname ≠ n) ∧
      (∀ r ∈ during, r.modname = n) ∧ (∀ r ∈ after, r.modname ≠ n) ∧
        (during = [] → after = []) := by
  obtain ⟨before, rest, rfl, hbefore, hrest⟩ := exists_cut (fun r : InfoRecord => r.modname ≠ n) rs
  obtain ⟨during, after, rfl, hduring, hafter⟩ :=
    exists_cut (fun r : InfoRecord => r.modname = n) rest
  refine ⟨before, during, after, rfl, hbefore, hduring, ?_, ?_⟩
  · intro z hz hzn
    -- the first record of the module, the first one behind its records, and this one
    cases during with
    | nil =>
      cases after with
      | nil => cases hz
      | cons y after => exact hafter y after rfl (not_not.mp (hrest y after rfl))
    | cons x during =>
      cases after with
      | nil => cases hz
      | cons y after =>
        have hxn := hduring x List.mem_cons_self
        have hyn := hafter y after rfl
        have hz : z ∈ after := (List.mem_cons.mp hz).resolve_left (fun he => hyn (he ▸ hzn))
        obtain ⟨c, d, rfl⟩ := List.append_of_mem hz
        exact hyn ((h.between rfl (hxn.trans hzn.symm)).trans hxn)
  · rintro rfl
    cases after with
    | nil => rfl
    | cons y after => exact absurd (not_not.mp (hrest y after rfl)) (hafter y after rfl)

theorem textsOf_split {n : ModName} {before during after : List InfoRecord}
    (hbefore : ∀ r ∈ before, r.modname ≠ n) (hduring : ∀ r ∈ during, r.modname = n)
    (hafter : ∀ r ∈ after, r.modname ≠ n) :
    textsOf n (before ++ (during ++ after)) = during.map InfoRecord.text := by
  have hnone : ∀ l : List InfoRecord, (∀ r ∈ l, r.modname ≠ n) → l.filter (·.modname = n) = [] := by
    intro l hl
    rw [List.filter_eq_nil_iff]
    intro r hr
    simpa using hl r hr
  have hall : during.filter (·.modname = n) = during := by
    rw [List.filter_eq_self]
    intro r hr
    simpa using hduring r hr
  unfold textsOf
  rw [List.filter_append, List.filter_append, hnone before hbefore, hall, hnone after hafter,
    List.nil_append, List.append_nil]

theorem length_le_contentOf (rs : List InfoRecord) : rs.length ≤ (contentOf rs).length := by
  induction rs with
  | nil => exact Nat.le_refl 0
  | cons r rs ih =>
    have hr : (contentOf (r :: rs)).length = r.bytes.length + (contentOf rs).length :=
      List.length_append
    rw [hr, r.bytes_eq, List.length_append, List.length_singleton, List.length_cons]
    omega

theorem getStrings_nil (modname : CStr) (fuel : Nat) (buf : Strbuf) {count : Nat}
    (h : count < INTPTR_MAX) :
    getStrings modname (fuel + 1) ⟨[], none⟩ buf count = .ok ((count : Int), buf) := by
  rw [getStrings, if_pos h]
  rfl

/-- **`get_strings` collects the texts of the module's records.** -/
theorem getStrings_contentOf {n : ModName} {rs : List InfoRecord} (h : Contiguous rs)
    (hsize : (terminated (textsOf n rs)).length < SIZE_MAX - BUF_STEP)
    (hcount : (textsOf n rs).length < INTPTR_MAX) :
    ∃ buf, getStrings n.name ((contentOf rs).length + 1) ⟨contentOf rs, none⟩ declareStrbuf 0 =
        .ok (((textsOf n rs).length : Int), buf) ∧
      buf.contents = terminated (textsOf n rs) ∧ buf.heap = true := by
  have hlen := length_le_contentOf rs
  obtain ⟨before, during, after, hrs, hbefore, hduring, hafter, hnone⟩ := h.split n
  have htexts := textsOf_split hbefore hduring hafter
  rw [← hrs] at htexts
  rw [htexts] at hsize hcount ⊢
  rw [List.length_map] at hcount ⊢
  obtain ⟨k, hk⟩ : ∃ k, (contentOf rs).length + 1 = k + 1 + during.length + before.length := by
    rw [hrs, List.length_append, List.length_append] at hlen
    exact ⟨(contentOf rs).length - during.length - before.length, by rw [hrs]; omega⟩
  have hcontent : contentOf rs = contentOf before ++ (contentOf during ++ contentOf after) := by
    rw [hrs]
    simp [contentOf]
  obtain ⟨buf, hrun, hcontents, hheap⟩ := getStrings_during (k + 1) (contentOf after) during
    declareStrbuf 0 hduring rfl (by rwa [show declareStrbuf.used = 0 from rfl, Nat.zero_add]) (by omega)
  refine ⟨buf, ?_, by rwa [contents_declareStrbuf, List.nil_append] at hcontents, hheap⟩
  rw [hk, hcontent, getStrings_before _ _ _ _ hbefore, hrun, Nat.zero_add]
  cases after with
  | nil => exact getStrings_nil _ _ _ hcount
  | cons r after =>
    have hother := getStrings_other (hafter r List.mem_cons_self) during.length hcount k
      (contentOf after) buf
    have hfound : during.length ≠ 0 := by
      intro h0
      cases hnone (List.length_eq_zero_iff.mp h0)
    rw [if_neg hfound] at hother
    exact hother

/-! ## The vector -/

/-- Pointers to strings that stand one behind the other, the first of them at `s`. -/
def pointersTo (base : Nat) : Nat → List CStr → List UInt8
  | _, [] => bytesLe 8 0
  | s, t :: texts => bytesLe 8 (base + s) ++ pointersTo base (s + (t.length + 1)) texts

theorem length_pointersTo (base : Nat) (texts : List CStr) :
    ∀ s, (pointersTo base s texts).length = 8 * (texts.length + 1) := by
  induction texts with
  | nil =>
    intro s
    exact length_bytesLe 8 0
  | cons t texts ih =>
    intro s
    rw [pointersTo, List.length_append, length_bytesLe, ih, List.length_cons]
    omega

/-- The loop writes the pointers, from where the table ends. -/
theorem fillVector_eq (base : Nat) (texts : List CStr) (hnul : ∀ t ∈ texts, 0 ∉ t) :
    ∀ (table slots mid : List UInt8) (n : Nat), table.length = 8 * n →
      slots.length = 8 * (texts.length + 1) →
      fillVector base texts.length n (table.length + slots.length + mid.length)
          (table ++ (slots ++ (mid ++ terminated texts))) =
        .ok (table ++ (pointersTo base (table.length + slots.length + mid.length) texts ++
          (mid ++ terminated texts))) := by
  induction texts with
  | nil =>
    intro table slots mid n htable hslots
    have hslots : slots.length = 8 := hslots
    have hput := putRange_front table slots (mid ++ terminated []) (bytesLe 8 0)
      (by rw [length_bytesLe, hslots])
    rw [length_bytesLe, List.drop_of_length_le (Nat.le_of_eq hslots), List.nil_append] at hput
    rw [List.length_nil, fillVector, ← htable, hput, inBlock_some, pointersTo]
  | cons t texts ih =>
    intro table slots mid n htable hslots
    obtain ⟨ht, hnul⟩ := List.forall_mem_cons.mp hnul
    rw [List.length_cons] at hslots
    generalize hs : table.length + slots.length + mid.length = s
    have hptr : (bytesLe 8 (base + s)).length = 8 := length_bytesLe _ _
    have hput := putRange_front table slots (mid ++ terminated (t :: texts)) (bytesLe 8 (base + s))
      (by rw [hptr]; omega)
    rw [hptr] at hput
    have hslots' : (slots.drop 8).length = 8 * (texts.length + 1) := by
      rw [List.length_drop, hslots]
      omega
    have htext : stringAt (table ++ (bytesLe 8 (base + s) ++
        (slots.drop 8 ++ (mid ++ terminated (t :: texts))))) s = .ok t := by
      refine stringAt_of_eq (table ++ (bytesLe 8 (base + s) ++ (slots.drop 8 ++ mid)))
        (terminated texts) ?_ ?_ ht
      · simp [terminated]
      · simp only [List.length_append]
        omega
    have hrest := ih hnul (table ++ bytesLe 8 (base + s)) (slots.drop 8) (mid ++ (t ++ [0])) (n + 1)
      (by rw [List.length_append]; omega) hslots'
    have hnext : (table ++ bytesLe 8 (base + s)).length + (slots.drop 8).length +
        (mid ++ (t ++ [0])).length = s + (t.length + 1) := by
      simp only [List.length_append, List.length_singleton]
      omega
    rw [hnext] at hrest
    rw [List.length_cons, fillVector, ← htable, hput, inBlock_some, ok_bind, htext,
      ok_bind, pointersTo]
    have hsame : table ++ (bytesLe 8 (base + s) ++ (slots.drop 8 ++ (mid ++ terminated (t :: texts)))) =
        table ++ bytesLe 8 (base + s) ++ (slots.drop 8 ++ (mid ++ (t ++ [0]) ++ terminated texts)) := by
      simp [terminated]
    rw [hsame, hrest]
    simp [terminated]

/-- Reading the pointers gives the strings. -/
theorem readVector_eq {base : Nat} (hbase : 0 < base) (texts : List CStr)
    (hnul : ∀ t ∈ texts, 0 ∉ t) :
    ∀ (table mid : List UInt8) (s : Nat),
      s = table.length + (8 * (texts.length + 1) + mid.length) →
      base + s + (terminated texts).length ≤ 2 ^ 64 →
      readVector ⟨base, table ++ (pointersTo base s texts ++ (mid ++ terminated texts))⟩
        (texts.length + 1) table.length = .ok texts := by
  induction texts with
  | nil =>
    intro table mid s _ _
    have hget := getRange_append table (bytesLe 8 0) (mid ++ terminated [])
    rw [length_bytesLe] at hget
    rw [List.length_nil, readVector, pointersTo, hget, inBlock_some, ok_bind,
      uintLe_bytesLe 8 0 (by decide), if_pos rfl]
  | cons t texts ih =>
    intro table mid s hs hfits
    obtain ⟨ht, hnul⟩ := List.forall_mem_cons.mp hnul
    rw [terminated_cons, List.length_append, List.length_append, List.length_singleton] at hfits
    rw [List.length_cons] at hs
    have hlt : base + s < 256 ^ 8 := by omega
    have hptr : (bytesLe 8 (base + s)).length = 8 := length_bytesLe _ _
    have hrest := ih hnul (table ++ bytesLe 8 (base + s)) (mid ++ (t ++ [0])) (s + (t.length + 1))
      (by simp only [List.length_append, List.length_singleton, hptr]; omega) (by omega)
    have hmem : table ++ bytesLe 8 (base + s) ++
          (pointersTo base (s + (t.length + 1)) texts ++ (mid ++ (t ++ [0]) ++ terminated texts)) =
        table ++ (pointersTo base s (t :: texts) ++ (mid ++ terminated (t :: texts))) := by
      simp [pointersTo, terminated]
    rw [hmem, List.length_append, hptr] at hrest
    have hget := getRange_append table (bytesLe 8 (base + s))
      (pointersTo base (s + (t.length + 1)) texts ++ (mid ++ terminated (t :: texts)))
    have hmem' : table ++ (bytesLe 8 (base + s) ++ (pointersTo base (s + (t.length + 1)) texts ++
          (mid ++ terminated (t :: texts)))) =
        table ++ (pointersTo base s (t :: texts) ++ (mid ++ terminated (t :: texts))) := by
      simp [pointersTo]
    rw [hmem', hptr] at hget
    have htext : stringAt (table ++ (pointersTo base s (t :: texts) ++
        (mid ++ terminated (t :: texts)))) s = .ok t := by
      refine stringAt_of_eq (table ++ (pointersTo base s (t :: texts) ++ mid))
        (terminated texts) ?_ ?_ ht
      · simp [terminated]
      · rw [List.length_append, List.length_append, length_pointersTo, List.length_cons]
        omega
    rw [List.length_cons, readVector]
    dsimp only
    rw [hget, inBlock_some, ok_bind, uintLe_bytesLe 8 _ hlt, if_neg (by omega), if_neg (by omega),
      Nat.add_sub_cancel_left, htext, ok_bind, hrest, ok_bind]

/-- `strbuf_to_vector`: the block holds the pointers, and the strings behind them. -/
theorem strbufToVector_ok {heap : Allocator} (hheap : heap.Bounded) (base : Nat) {buf : Strbuf}
    {texts : List CStr} (hnul : ∀ t ∈ texts, 0 ∉ t) (hcontents : buf.contents = terminated texts)
    (hbuf : buf.heap = true) (hgrants : heap.grants (vectorSize texts) = true) :
    strbufToVector heap base buf texts.length =
      .ok (some ⟨base, pointersTo base (8 * (texts.length + 1)) texts ++ terminated texts⟩) := by
  have hused : buf.used = (terminated texts).length := by rw [← buf.length_contents, hcontents]
  have hsize : buf.used + 8 * (texts.length + 1) = vectorSize texts := by rw [hused, vectorSize]
  have hbound := hheap _ hgrants
  have hmax : PTRDIFF_MAX < SIZE_MAX := by decide
  have hover : ¬ (texts.length + 1 > SIZE_MAX ∨ 8 * (texts.length + 1) > SIZE_MAX ∨
      buf.used + 8 * (texts.length + 1) > SIZE_MAX) := by omega
  unfold strbufToVector Allocator.realloc
  rw [if_neg hover, if_neg (by rw [hbuf]; decide), hsize, if_pos hgrants]
  dsimp only
  generalize hblock : buf.bytes.take (vectorSize texts) ++
    (List.range (vectorSize texts - buf.bytes.length)).map heap.junk = block
  have hlen : block.length = vectorSize texts := by
    rw [← hblock, List.length_append, List.length_take, List.length_map, List.length_range]
    omega
  -- the text is still in front
  have htext : block.take buf.used = terminated texts := by
    have hfits := buf.fits
    rw [← hblock, List.take_append_of_le_length (by rw [List.length_take]; omega), List.take_take,
      Nat.min_eq_left (by omega), ← hcontents]
    rfl
  have hget : getRange block 0 buf.used = some (terminated texts) := by
    unfold getRange
    rw [if_pos (by omega), List.drop_zero, htext]
  have hput : putRange block (8 * (texts.length + 1)) (terminated texts) =
      some (block.take (8 * (texts.length + 1)) ++ terminated texts) := by
    unfold putRange
    rw [if_pos (by omega), List.drop_of_length_le (by omega), List.append_nil]
  have hslots : (block.take (8 * (texts.length + 1))).length = 8 * (texts.length + 1) := by
    rw [List.length_take]
    omega
  have hfill := fillVector_eq base texts hnul [] (block.take (8 * (texts.length + 1))) [] 0 rfl hslots
  simp only [List.nil_append, List.length_nil, hslots, Nat.zero_add, Nat.add_zero] at hfill
  rw [hget, inBlock_some, ok_bind, hput, inBlock_some, ok_bind, hfill, ok_bind]

theorem length_le_terminated (texts : List CStr) : texts.length ≤ (terminated texts).length := by
  induction texts with
  | nil => exact Nat.le_refl 0
  | cons t texts ih =>
    rw [terminated_cons, List.length_append, List.length_append, List.length_singleton,
      List.length_cons]
    omega

/--
**The information about a builtin module is what its records say.** The texts of the
module's records are returned in the order of the file, as a vector that is ended by NULL
and lies with its strings in one block; without a record, 0 and NULL.
-/
theorem kmodBuiltinGetModinfo_records {heap : Allocator} (hheap : heap.Bounded) {base : Nat}
    (hbase : 0 < base) {fopen : CStr → Except Int Stream} {dirname : CStr} {rs : List InfoRecord}
    (hdirname : dirname.length + 1 + MODULES_BUILTIN_MODINFO.length + 1 < PATH_MAX)
    (hopen : fopen (dirname ++ 47 :: MODULES_BUILTIN_MODINFO) = .ok ⟨contentOf rs, none⟩)
    (hrs : Contiguous rs) (n : ModName) (modinfo : Option Block)
    (hgrants : textsOf n rs ≠ [] → heap.grants (vectorSize (textsOf n rs)) = true ∧
      base + vectorSize (textsOf n rs) ≤ 2 ^ 64) :
    ∃ modinfo', kmodBuiltinGetModinfo heap base fopen dirname n.name modinfo =
        .ok (((textsOf n rs).length : Int), modinfo') ∧
      (textsOf n rs = [] → modinfo' = none) ∧
      (textsOf n rs ≠ [] → ∃ mem, modinfo' = some ⟨base, mem⟩ ∧
        mem.length = vectorSize (textsOf n rs) ∧
        readVector ⟨base, mem⟩ ((textsOf n rs).length + 1) 0 = .ok (textsOf n rs)) := by
  have hnul : ∀ t ∈ textsOf n rs, 0 ∉ t := by
    intro t ht
    obtain ⟨r, -, rfl⟩ := List.mem_map.mp ht
    exact r.nul_not_mem_text
  have hinit : kmodBuiltinInfoInit fopen dirname = .ok ⟨contentOf rs, none⟩ := by
    unfold kmodBuiltinInfoInit
    rw [if_neg (by omega), hopen]
  have hsize : (terminated (textsOf n rs)).length < PTRDIFF_MAX := by
    by_cases hnil : textsOf n rs = []
    · rw [hnil]
      decide
    · have hbound := hheap _ (hgrants hnil).1
      unfold vectorSize at hbound
      omega
  have hlen := length_le_terminated (textsOf n rs)
  obtain ⟨buf, hstrings, hcontents, hbuf⟩ := getStrings_contentOf (n := n) hrs
    (hsize.trans (by decide)) (Nat.lt_of_le_of_lt hlen hsize)
  unfold kmodBuiltinGetModinfo
  rw [hinit]
  dsimp only
  rw [hstrings, ok_bind]
  by_cases hnil : textsOf n rs = []
  · rw [hnil]
    exact ⟨none, rfl, fun _ => rfl, fun h => absurd rfl h⟩
  · have hpos := List.length_pos_iff.mpr hnil
    obtain ⟨hgrant, hfits⟩ := hgrants hnil
    have hvector := strbufToVector_ok hheap base hnul hcontents hbuf hgrant
    have hread := readVector_eq hbase (textsOf n rs) hnul [] [] (8 * ((textsOf n rs).length + 1))
      (by simp) (by unfold vectorSize at hfits; omega)
    refine ⟨_, ?_, fun h => absurd h hnil, fun _ => ⟨_, rfl, ?_, hread⟩⟩
    · rw [if_neg (by omega), if_pos (by omega)]
      dsimp only
      rw [Int.toNat_natCast, hvector]
      rfl
    · simp only [List.nil_append, List.length_append, length_pointersTo, vectorSize]
      omega

/-- A file in which the name of a module begins the names of the modules around it. -/
def prefixRecords : List InfoRecord :=
  [⟨⟨cstr "snd_pcm", by decide, by decide⟩, cstr "license", cstr "GPL", by decide, by decide⟩,
    ⟨⟨cstr "snd", by decide, by decide⟩, cstr "license", cstr "GPL v2", by decide, by decide⟩,
    ⟨⟨cstr "snd", by decide, by decide⟩, cstr "file", cstr "sound/snd.o", by decide, by decide⟩,
    ⟨⟨cstr "sndbase", by decide, by decide⟩, cstr "license", cstr "GPL", by decide, by decide⟩]

def prefixFile (_ : CStr) : Except Int Stream := .ok ⟨contentOf prefixRecords, none⟩

theorem kmodBuiltinGetModinfo_records_prefixes :
    ∃ mem, kmodBuiltinGetModinfo largeAllocator 4096 prefixFile (cstr "/lib/modules/6.1")
        (cstr "snd") none = .ok (2, some ⟨4096, mem⟩) ∧
      readVector ⟨4096, mem⟩ 3 0 = .ok [cstr "license=GPL v2", cstr "file=sound/snd.o"] := by
  have htexts : textsOf ⟨cstr "snd", by decide, by decide⟩ prefixRecords =
      [cstr "license=GPL v2", cstr "file=sound/snd.o"] := by decide
  obtain ⟨modinfo, hrun, -, hvector⟩ := kmodBuiltinGetModinfo_records largeAllocator_bounded
    (show 0 < 4096 by decide)
    (show (cstr "/lib/modules/6.1").length + 1 + MODULES_BUILTIN_MODINFO.length + 1 < PATH_MAX by
      decide)
    (show prefixFile _ = .ok ⟨contentOf prefixRecords, none⟩ from rfl)
    (show Contiguous prefixRecords by unfold Contiguous; decide)
      ⟨cstr "snd", by decide, by decide⟩ none
    (fun _ => by rw [htexts]; decide)
  obtain ⟨mem, rfl, -, hread⟩ := hvector (by rw [htexts]; decide)
  rw [htexts] at hrun hread
  exact ⟨mem, hrun, hread⟩

end Kmod
