import Kmod.Libkmod.ConfigWords
import Kmod.Lib.Memory
import Kmod.Lib.ByteScan

/-!
# The two passes over a dependency list

`kmod_config_add_softdep` and `kmod_config_add_weakdep` go over a text twice, with a
pointer `s` that moves on by one each time and a pointer `p` to where the current word
starts. The first pass counts the words and their bytes, then one block is allocated, and
the second pass writes a pointer and a string for each word. Here both passes work on
memory: the text is a block of bytes, and so is what was allocated, and an access outside
of either is a fault.

The argument is in three steps. `p` never passes `s` (`scanFrom_eq`), so that the loop is
the scanner of `Kmod.Libkmod.Config`, in which a word is what stands between the two. Both
passes are then folds over the same words. And the block that was counted out consists of
the slots and the bytes of those words, one after the other, so the second pass fills it
from end to end.
-/

namespace Kmod

open Kmod.Memory Kmod.ByteScan

/-- A string in memory; no block is larger than `PTRDIFF_MAX`. -/
structure CText where
  chars : CStr
  nulFree : 0 ∉ chars
  fits : chars.length < PTRDIFF_MAX

/-- Its bytes, with the NUL. -/
def CText.mem (t : CText) : List UInt8 := t.chars ++ [0]

/-- How a function ends early: with a fault, or with `return err`. -/
abbrev Early := Fault ⊕ Int

/-- An access outside a block is a fault. -/
def access {α : Type} (x : Option α) : Except Early α := x.elim (.error (.inl .outOfBounds)) .ok

@[simp] theorem access_some {α : Type} (x : α) : access (some x) = .ok x := rfl

/-! ## The scan -/

/-- `s - p` as a `size_t`. -/
def ptrSub (s p : Nat) : Nat := if p ≤ s then s - p else 2 ^ 64 - (p - s)

theorem ptrSub_of_le {s p : Nat} (h : p ≤ s) : ptrSub s p = s - p := if_pos h

/--
The loop over the text, from the pointers `p` and `s` on. `step` gets the two pointers, and
the answer to `*s != '\0' || (*s == '\0' && !was_space)`. Every round moves `s`.
-/
def scanFrom {σ : Type} (mem : List UInt8) (step : σ → Nat → Nat → Bool → Except Early σ) :
    Nat → Nat → Nat → Bool → σ → Except Early σ
  | 0, _, _, _, _ => .error (.inl .outOfFuel)
  | fuel + 1, p, s, wasSpace, st => do
    let c ← access mem[s]?
    if c ≠ 0 then
      if !isspace c then scanFrom mem step fuel p (s + 1) false st
      else if wasSpace then scanFrom mem step fuel (s + 1) (s + 1) true st
      else if p ≥ s then scanFrom mem step fuel p (s + 1) true st
      else do
        let st ← step st p s true
        scanFrom mem step fuel (s + 1) (s + 1) true st
    else step st p s (!wasSpace)

/-- `for (p = s = line;; s++)` -/
def scanText {σ : Type} (line : CText) (step : σ → Nat → Nat → Bool → Except Early σ) (st : σ) :
    Except Early σ :=
  scanFrom line.mem step (line.chars.length + 1) 0 0 false st

/-- `plen == strlen(kw) && strstartswith(p, kw)` -/
def keywordAt (mem : List UInt8) (kw : CStr) (p plen : Nat) : Except Early Bool :=
  if plen = kw.length then access (startsWithTail kw (mem.drop p)) else .ok false

/-! ## The two passes of a softdep -/

/-- One round of the first pass. -/
def softdepCountAt (mem : List UInt8) (n : SoftdepCount) (p s : Nat) (counts : Bool) :
    Except Early SoftdepCount := do
  let plen := ptrSub s p
  if ← keywordAt mem (cstr "pre:") p plen then .ok { n with mode := .pre }
  else if ← keywordAt mem (cstr "post:") p plen then .ok { n with mode := .post }
  else if counts then
    let buflen := (n.buflen + (plen + 1)) % 2 ^ 64
    match n.mode with
    | .none => .ok n
    | .pre =>
      if n.nPre + 1 > UINT32_MAX then .error (.inr (-EINVAL))
      else .ok { n with nPre := n.nPre + 1, buflen := buflen }
    | .post =>
      if n.nPost + 1 > UINT32_MAX then .error (.inr (-EINVAL))
      else .ok { n with nPost := n.nPost + 1, buflen := buflen }
  else .ok n

/-- The first pass: "analyze and count". -/
def countSoftdep (line : CText) : Except Early SoftdepCount :=
  scanText line (softdepCountAt line.mem) ⟨.none, 0, 0, 0⟩

/-- `*slot = itr`, `memcpy(itr, p, plen)` and `itr[plen] = '\0'`; `base` is where the block lies. -/
def storeWord (line : List UInt8) (base slot itr p plen : Nat) (mem : List UInt8) :
    Except Early (List UInt8) := do
  let mem ← access (putRange mem slot (bytesLe 8 (base + itr)))
  let word ← access (getRange line p plen)
  let mem ← access (putRange mem itr word)
  access (putRange mem (itr + plen) [0])

/-- The variables of the second pass, and the block. -/
structure SoftdepStore where
  mode : SoftdepMode
  nPre : Nat
  nPost : Nat
  itr : Nat
  mem : List UInt8

/-- One round of the second pass; `pre` and `post` are the arrays in the block. -/
def softdepStoreAt (line : List UInt8) (base pre post : Nat) (st : SoftdepStore) (p s : Nat)
    (counts : Bool) : Except Early SoftdepStore := do
  let plen := ptrSub s p
  if ← keywordAt line (cstr "pre:") p plen then .ok { st with mode := .pre }
  else if ← keywordAt line (cstr "post:") p plen then .ok { st with mode := .post }
  else if counts then
    match st.mode with
    | .none => .ok st
    | .pre => do
      let mem ← storeWord line base (pre + 8 * st.nPre) st.itr p plen st.mem
      .ok { st with nPre := (st.nPre + 1) % 2 ^ 32, itr := st.itr + (plen + 1), mem := mem }
    | .post => do
      let mem ← storeWord line base (post + 8 * st.nPost) st.itr p plen st.mem
      .ok { st with nPost := (st.nPost + 1) % 2 ^ 32, itr := st.itr + (plen + 1), mem := mem }
  else .ok st

/-- The second pass: "copy strings". -/
def storeSoftdep (line : CText) (base pre post itr : Nat) (mem : List UInt8) :
    Except Early SoftdepStore :=
  scanText line (softdepStoreAt line.mem base pre post) ⟨.none, 0, 0, itr, mem⟩

/-- `uaddsz_overflow` and `umulsz_overflow`, with what the functions do then. -/
def sizeOk (size : Nat) : Except Early Nat :=
  if size > SIZE_MAX then .error (.inr (-ENOMEM)) else .ok size

/-- `malloc`, with what the functions do if it fails. -/
def mallocOk (heap : Allocator) (size : Nat) : Except Early (List UInt8) :=
  (heap.malloc size).elim (.error (.inr (-ENOMEM))) .ok

/--
A `struct kmod_softdep` with the block it is in. The members are in the first bytes of the
block; pointers are offsets.
-/
structure SoftdepMem where
  mem : List UInt8
  name : Nat
  pre : Nat
  post : Nat
  nPre : Nat
  nPost : Nat

/-- `kmod_config_add_softdep`, to where the softdep is put into the configuration. -/
def newSoftdep (heap : Allocator) (base : Nat) (modname line : CText) :
    Except Early SoftdepMem := do
  let modnamelen := modname.chars.length + 1
  let n ← countSoftdep line
  let size ← sizeOk (SIZEOF_SOFTDEP + modnamelen)
  let sizePre ← sizeOk (n.nPre * 8)
  let size ← sizeOk (size + sizePre)
  let sizePost ← sizeOk (n.nPost * 8)
  let size ← sizeOk (size + sizePost)
  let size ← sizeOk (size + n.buflen)
  let mem ← mallocOk heap size
  let pre := SIZEOF_SOFTDEP
  let post := pre + 8 * n.nPre
  let name := post + 8 * n.nPost
  let mem ← access (putRange mem name modname.mem)
  let st ← storeSoftdep line base pre post (name + modnamelen) mem
  .ok ⟨st.mem, name, pre, post, n.nPre, n.nPost⟩

/-! ## The two passes of a weakdep -/

/-- One round of the first pass: the number of words, and `buflen`. -/
def weakdepCountAt (n : Nat × Nat) (p s : Nat) (counts : Bool) : Except Early (Nat × Nat) :=
  let plen := ptrSub s p
  if counts then
    if n.1 + 1 > UINT32_MAX then .error (.inr (-EINVAL))
    else .ok (n.1 + 1, (n.2 + (plen + 1)) % 2 ^ 64)
  else .ok n

def countWeakdep (line : CText) : Except Early (Nat × Nat) := scanText line weakdepCountAt (0, 0)

/-- The variables of the second pass, and the block. -/
structure WeakdepStore where
  nWeak : Nat
  itr : Nat
  mem : List UInt8

/-- One round of the second pass. -/
def weakdepStoreAt (line : List UInt8) (base weak : Nat) (st : WeakdepStore) (p s : Nat)
    (counts : Bool) : Except Early WeakdepStore :=
  let plen := ptrSub s p
  if counts then do
    let mem ← storeWord line base (weak + 8 * st.nWeak) st.itr p plen st.mem
    .ok ⟨(st.nWeak + 1) % 2 ^ 32, st.itr + (plen + 1), mem⟩
  else .ok st

def storeWeakdep (line : CText) (base weak itr : Nat) (mem : List UInt8) :
    Except Early WeakdepStore :=
  scanText line (weakdepStoreAt line.mem base weak) ⟨0, itr, mem⟩

/-- A `struct kmod_weakdep` with the block it is in. -/
structure WeakdepMem where
  mem : List UInt8
  name : Nat
  weak : Nat
  nWeak : Nat

/-- `kmod_config_add_weakdep`, to where the weakdep is put into the configuration. -/
def newWeakdep (heap : Allocator) (base : Nat) (modname line : CText) :
    Except Early WeakdepMem := do
  let modnamelen := modname.chars.length + 1
  let n ← countWeakdep line
  let size ← sizeOk (SIZEOF_WEAKDEP + modnamelen)
  let sizeWeak ← sizeOk (n.1 * 8)
  let size ← sizeOk (size + sizeWeak)
  let size ← sizeOk (size + n.2)
  let mem ← mallocOk heap size
  let weak := SIZEOF_WEAKDEP
  let name := weak + 8 * n.1
  let mem ← access (putRange mem name modname.mem)
  let st ← storeWeakdep line base weak (name + modnamelen) mem
  .ok ⟨st.mem, name, weak, n.1⟩

/-! ## `p` does not pass `s` -/

section Scan

variable {σ : Type} {line : CText}

theorem CText.getElem?_mem (line : CText) {s : Nat} (h : s < line.chars.length) :
    line.mem[s]? = some line.chars[s] := by
  unfold CText.mem
  rw [List.getElem?_append_left h, List.getElem?_eq_getElem h]

theorem CText.getElem?_mem_length (line : CText) : line.mem[line.chars.length]? = some 0 := by
  unfold CText.mem
  rw [List.getElem?_append_right le_rfl, Nat.sub_self]
  rfl

/--
**The loop is the scanner.** What a round does with its pointers is given by the text
between them; they always enclose one.
-/
theorem scanFrom_eq {step : σ → Nat → Nat → Bool → Except Early σ}
    {tokStep : σ → CStr → Bool → Except Early σ}
    (hstep : ∀ st p s counts, p ≤ s → s ≤ line.chars.length →
      step st p s counts = tokStep st ((line.chars.take s).drop p) counts) :
    ∀ fuel p s wasSpace st, p ≤ s → s ≤ line.chars.length → line.chars.length - s < fuel →
      scanFrom line.mem step fuel p s wasSpace st =
        scanLine tokStep (line.chars.drop s) ((line.chars.take s).drop p) wasSpace st := by
  intro fuel
  induction fuel with
  | zero => exact fun _ _ _ _ _ _ h => absurd h (Nat.not_lt_zero _)
  | succ fuel ih =>
    intro p s wasSpace st hps hs hfuel
    rw [scanFrom]
    rcases Nat.lt_or_eq_of_le hs with hlt | heq
    · have hne : line.chars[s] ≠ 0 := fun h => line.nulFree (h ▸ List.getElem_mem hlt)
      have hnone : ((line.chars.take (s + 1)).drop (s + 1)) = [] :=
        List.drop_of_length_le (by simp)
      rw [line.getElem?_mem hlt, access_some, ok_bind, if_pos hne, List.drop_eq_getElem_cons hlt,
        scanLine]
      by_cases hspace : isspace line.chars[s] = true
      · have hnot : ¬ (!isspace line.chars[s]) = true := by simp [hspace]
        rw [if_neg hnot, if_neg hnot]
        by_cases hwas : wasSpace = true
        · rw [if_pos hwas, if_pos hwas, ih (s + 1) (s + 1) true st le_rfl hlt (by omega), hnone]
        · rw [if_neg hwas, if_neg hwas]
          by_cases hge : p ≥ s
          · -- `p` is at this space and stays there
            have hp : p = s := Nat.le_antisymm hps hge
            have htok : (line.chars.take s).drop p = [] :=
              List.drop_of_length_le (by rw [hp, List.length_take]; omega)
            have hnext : (line.chars.take (s + 1)).drop p = [line.chars[s]] := by
              rw [hp, List.take_add_one, List.getElem?_eq_getElem hlt,
                List.drop_append_of_le_length (by rw [List.length_take]; omega),
                List.drop_of_length_le (by rw [List.length_take]; omega)]
              rfl
            rw [if_pos hge, if_pos htok, ih p (s + 1) true st (by omega) hlt (by omega), hnext]
          · have htok : (line.chars.take s).drop p ≠ [] := by
              intro h
              have := congrArg List.length h
              rw [List.length_drop, List.length_take, List.length_nil] at this
              omega
            rw [if_neg hge, if_neg htok, hstep st p s true hps hs]
            refine bind_congr (fun st => ?_)
            rw [ih (s + 1) (s + 1) true st le_rfl hlt (by omega), hnone]
      · have hword : (!isspace line.chars[s]) = true := by simp [hspace]
        have hnext : (line.chars.take (s + 1)).drop p =
            (line.chars.take s).drop p ++ [line.chars[s]] := by
          rw [List.take_add_one, List.getElem?_eq_getElem hlt,
            List.drop_append_of_le_length (by rw [List.length_take]; omega)]
          rfl
        rw [if_pos hword, if_pos hword, ih p (s + 1) false st (by omega) hlt (by omega), hnext]
    · rw [heq, line.getElem?_mem_length, access_some, ok_bind, if_neg (by simp), ← heq,
        hstep st p s _ hps hs, heq, List.drop_length, scanLine]

/-- A pass is a fold over the words of the text. -/
theorem scanText_eq {step : σ → Nat → Nat → Bool → Except Early σ}
    {tokStep : σ → CStr → Bool → Except Early σ}
    (hstep : ∀ st p s counts, p ≤ s → s ≤ line.chars.length →
      step st p s counts = tokStep st ((line.chars.take s).drop p) counts)
    (hskip : ∀ st tok, BlankTok tok → tokStep st tok false = .ok st) (st : σ) :
    scanText line step st =
      (scanWords line.chars [] false).foldlM (fun st w => tokStep st w true) st := by
  unfold scanText
  rw [scanFrom_eq hstep _ 0 0 false st le_rfl (Nat.zero_le _) (by omega), ← scanLine_eq hskip]
  · rfl
  · exact fun h => absurd h (by simp)

/-- The pointers at which `plen` is computed, in order. -/
theorem scanText_pointers (line : CText) :
    ∃ visits, scanText line (fun log p s _ => .ok (log ++ [(p, s)])) [] = .ok visits ∧
      ∀ v ∈ visits, v.1 ≤ v.2 ∧ v.2 ≤ line.chars.length := by
  unfold scanText
  suffices h : ∀ fuel p s wasSpace (log : List (Nat × Nat)), p ≤ s → s ≤ line.chars.length →
      line.chars.length - s < fuel → (∀ v ∈ log, v.1 ≤ v.2 ∧ v.2 ≤ line.chars.length) →
      ∃ visits, scanFrom line.mem (fun log p s _ => .ok (log ++ [(p, s)])) fuel p s wasSpace log =
        .ok visits ∧ ∀ v ∈ visits, v.1 ≤ v.2 ∧ v.2 ≤ line.chars.length from
    h _ 0 0 false [] le_rfl (Nat.zero_le _) (by omega) (fun _ hv => absurd hv (by simp))
  intro fuel
  induction fuel with
  | zero => exact fun _ _ _ _ _ _ h => absurd h (Nat.not_lt_zero _)
  | succ fuel ih =>
    intro p s wasSpace log hps hs hfuel hlog
    have hadd : ∀ v ∈ log ++ [(p, s)], v.1 ≤ v.2 ∧ v.2 ≤ line.chars.length := by
      intro v hv
      rcases List.mem_append.mp hv with hv | hv
      · exact hlog v hv
      · rw [List.mem_singleton.mp hv]
        exact ⟨hps, hs⟩
    rw [scanFrom]
    rcases Nat.lt_or_eq_of_le hs with hlt | heq
    · have hne : line.chars[s] ≠ 0 := fun h => line.nulFree (h ▸ List.getElem_mem hlt)
      rw [line.getElem?_mem hlt, access_some, ok_bind, if_pos hne]
      split
      · exact ih _ _ _ _ (by omega) hlt (by omega) hlog
      · split
        · exact ih _ _ _ _ le_rfl hlt (by omega) hlog
        · split
          · exact ih _ _ _ _ (by omega) hlt (by omega) hlog
          · exact ih _ _ _ _ le_rfl hlt (by omega) hadd
    · rw [heq, line.getElem?_mem_length, access_some, ok_bind, if_neg (by simp)]
      exact ⟨_, rfl, heq ▸ hadd⟩

theorem length_slice {p s : Nat} (hs : s ≤ line.chars.length) :
    ((line.chars.take s).drop p).length = s - p := by
  rw [List.length_drop, List.length_take, Nat.min_eq_left hs]

/-- What is in memory from `p` on: the word between the pointers, and the rest with the NUL. -/
theorem drop_mem {p s : Nat} (hps : p ≤ s) (hs : s ≤ line.chars.length) :
    line.mem.drop p = (line.chars.take s).drop p ++ (line.chars.drop s ++ [0]) := by
  unfold CText.mem
  conv_lhs => rw [← List.take_append_drop s line.chars]
  rw [List.append_assoc, List.drop_append_of_le_length (by rw [List.length_take]; omega)]

theorem keywordAt_eq {p s : Nat} (hps : p ≤ s) (hs : s ≤ line.chars.length) {kw : CStr}
    (hkw : 0 ∉ kw) :
    keywordAt line.mem kw p (ptrSub s p) = .ok (decide ((line.chars.take s).drop p = kw)) := by
  unfold keywordAt
  rw [ptrSub_of_le hps, ← length_slice hs]
  by_cases hlen : ((line.chars.take s).drop p).length = kw.length
  · have hterm : 0 ∈ line.mem.drop p := by
      rw [drop_mem hps hs]
      simp
    have hpre : kw <+: line.mem.drop p ↔ (line.chars.take s).drop p = kw := by
      rw [drop_mem hps hs]
      refine ⟨fun h => ?_, fun h => h ▸ List.prefix_append _ _⟩
      exact (List.prefix_of_prefix_length_le h (List.prefix_append _ _)
        (Nat.le_of_eq hlen.symm)).eq_of_length hlen.symm |>.symm
    rw [if_pos hlen, startsWithTail_eq (fun h => hkw (h.1.mem hterm)), access_some]
    simp only [hpre]
  · rw [if_neg hlen, decide_eq_false (fun h => hlen (congrArg List.length h))]

theorem getRange_word {p s : Nat} (hps : p ≤ s) (hs : s ≤ line.chars.length) :
    getRange line.mem p (ptrSub s p) = some ((line.chars.take s).drop p) := by
  have hlen := length_slice (p := p) hs
  rw [ptrSub_of_le hps, getRange_eq (by unfold CText.mem; rw [List.length_append]; simp; omega)]
  unfold bytesAt
  rw [drop_mem hps hs, ← hlen, List.take_left]

end Scan

/-! ## The words of the two passes -/

/-- One word of the first pass, for a word of the text. -/
def countToken (n : SoftdepCount) (tok : CStr) (counts : Bool) : Except Early SoftdepCount :=
  if tok = cstr "pre:" then .ok { n with mode := .pre }
  else if tok = cstr "post:" then .ok { n with mode := .post }
  else if counts then
    match n.mode with
    | .none => .ok n
    | .pre =>
      if n.nPre + 1 > UINT32_MAX then .error (.inr (-EINVAL))
      else .ok { n with nPre := n.nPre + 1, buflen := (n.buflen + (tok.length + 1)) % 2 ^ 64 }
    | .post =>
      if n.nPost + 1 > UINT32_MAX then .error (.inr (-EINVAL))
      else .ok { n with nPost := n.nPost + 1, buflen := (n.buflen + (tok.length + 1)) % 2 ^ 64 }
  else .ok n

/-- The same for what is stored. -/
def storeToken (base slot itr : Nat) (tok : CStr) (mem : List UInt8) :
    Except Early (List UInt8) := do
  let mem ← access (putRange mem slot (bytesLe 8 (base + itr)))
  let mem ← access (putRange mem itr tok)
  access (putRange mem (itr + tok.length) [0])

/-- One word of the second pass. -/
def softdepStoreToken (base pre post : Nat) (st : SoftdepStore) (tok : CStr) (counts : Bool) :
    Except Early SoftdepStore :=
  if tok = cstr "pre:" then .ok { st with mode := .pre }
  else if tok = cstr "post:" then .ok { st with mode := .post }
  else if counts then
    match st.mode with
    | .none => .ok st
    | .pre => do
      let mem ← storeToken base (pre + 8 * st.nPre) st.itr tok st.mem
      .ok { st with nPre := (st.nPre + 1) % 2 ^ 32, itr := st.itr + (tok.length + 1), mem := mem }
    | .post => do
      let mem ← storeToken base (post + 8 * st.nPost) st.itr tok st.mem
      .ok { st with nPost := (st.nPost + 1) % 2 ^ 32, itr := st.itr + (tok.length + 1), mem := mem }
  else .ok st

section Tokens

variable {line : CText} {p s : Nat}

theorem softdepCountAt_eq (n : SoftdepCount) (counts : Bool) (hps : p ≤ s)
    (hs : s ≤ line.chars.length) :
    softdepCountAt line.mem n p s counts =
      countToken n ((line.chars.take s).drop p) counts := by
  unfold softdepCountAt countToken
  dsimp only
  rw [keywordAt_eq hps hs (by decide), ok_bind, keywordAt_eq hps hs (by decide), ok_bind]
  simp only [decide_eq_true_eq, length_slice hs, ptrSub_of_le hps]

theorem storeWord_eq (base slot itr : Nat) (mem : List UInt8) (hps : p ≤ s)
    (hs : s ≤ line.chars.length) :
    storeWord line.mem base slot itr p (ptrSub s p) mem =
      storeToken base slot itr ((line.chars.take s).drop p) mem := by
  unfold storeWord storeToken
  rw [getRange_word hps hs, length_slice hs, ptrSub_of_le hps]
  rfl

theorem softdepStoreAt_eq (base pre post : Nat) (st : SoftdepStore) (counts : Bool) (hps : p ≤ s)
    (hs : s ≤ line.chars.length) :
    softdepStoreAt line.mem base pre post st p s counts =
      softdepStoreToken base pre post st ((line.chars.take s).drop p) counts := by
  unfold softdepStoreAt softdepStoreToken
  dsimp only
  rw [keywordAt_eq hps hs (by decide), ok_bind, keywordAt_eq hps hs (by decide), ok_bind]
  simp only [decide_eq_true_eq, storeWord_eq _ _ _ _ hps hs]
  simp only [length_slice hs, ptrSub_of_le hps]

end Tokens

/-! ### The first pass -/

theorem length_weakWords_cons (w : CStr) (ws : List CStr) :
    (packed (weakWords (w :: ws))).length = w.length + 1 + (packed (weakWords ws)).length := by
  show (w ++ [0] ++ packed (weakWords ws)).length = _
  rw [List.length_append, List.length_append, List.length_singleton]

/-- The words with their NULs are not longer than the text with its own. -/
theorem length_scanWords (line : CStr) :
    ∀ tok wasSpace, (packed (weakWords (scanWords line tok wasSpace))).length ≤
      tok.length + line.length + 1 := by
  induction line with
  | nil =>
    intro tok wasSpace
    rw [scanWords]
    split
    · exact Nat.zero_le _
    · rw [length_weakWords_cons]
      exact Nat.le_refl _
  | cons c line ih =>
    intro tok wasSpace
    rw [scanWords, List.length_cons]
    split
    · have := ih (tok ++ [c]) false
      rw [List.length_append, List.length_singleton] at this
      omega
    · split
      · have := ih [] true
        rw [List.length_nil] at this
        omega
      · split
        · have := ih [c] true
          rw [List.length_singleton] at this
          omega
        · have := ih [] true
          rw [length_weakWords_cons, List.length_nil] at *
          omega

theorem countToken_eq {n : SoftdepCount} {tok : CStr}
    (hlen : n.buflen + (tok.length + 1) < 2 ^ 64) (counts : Bool) :
    countToken n tok counts = (softdepCount n tok counts).mapError .inr := by
  unfold countToken softdepCount
  rw [Nat.mod_eq_of_lt hlen]
  split
  · rfl
  · split
    · rfl
    · split
      · cases n.mode with
        | none => rfl
        | pre => dsimp only; split <;> rfl
        | post => dsimp only; split <;> rfl
      · rfl

theorem buflen_softdepCount {n n' : SoftdepCount} {tok : CStr} {counts : Bool}
    (h : softdepCount n tok counts = .ok n') : n'.buflen ≤ n.buflen + (tok.length + 1) := by
  unfold softdepCount at h
  split at h
  · cases h
    exact Nat.le_add_right _ _
  · split at h
    · cases h
      exact Nat.le_add_right _ _
    · split at h
      · split at h
        · cases h
          exact Nat.le_add_right _ _
        · split at h
          · cases h
          · cases h
            exact le_rfl
        · split at h
          · cases h
          · cases h
            exact le_rfl
      · cases h
        exact Nat.le_add_right _ _

/-- `buflen` does not wrap, so the first pass counts what the abstract one counts. -/
theorem countToken_words (ws : List CStr) :
    ∀ n : SoftdepCount, n.buflen + (packed (weakWords ws)).length < 2 ^ 64 →
      ws.foldlM (fun n w => countToken n w true) n =
        (ws.foldlM (fun n w => softdepCount n w true) n).mapError .inr := by
  induction ws with
  | nil => exact fun _ _ => rfl
  | cons w ws ih =>
    intro n hlen
    rw [length_weakWords_cons] at hlen
    rw [List.foldlM_cons, List.foldlM_cons, countToken_eq (by omega)]
    cases hr : softdepCount n w true with
    | error e => rfl
    | ok n' =>
      have hle := buflen_softdepCount hr
      exact ih n' (by omega)

theorem BlankTok.countToken {tok : CStr} (h : BlankTok tok) (n : SoftdepCount) :
    countToken n tok false = .ok n := by
  obtain ⟨h1, h2⟩ := h.not_keyword
  unfold Kmod.countToken
  rw [if_neg h1, if_neg h2]
  rfl

/-- The first pass of a softdep. -/
theorem countSoftdep_eq (line : CText) :
    countSoftdep line =
      if CountsFit 0 0 (softdepWords line.chars) then
        .ok ⟨(scanWords line.chars [] false).foldl SoftdepMode.next .none,
          (wordsIn .pre (softdepWords line.chars)).length,
          (wordsIn .post (softdepWords line.chars)).length,
          (packed (softdepWords line.chars)).length⟩
      else .error (.inr (-EINVAL)) := by
  have hlen := length_scanWords line.chars [] false
  have hfits := line.fits
  unfold countSoftdep
  rw [scanText_eq (fun n _ _ counts hps hs => softdepCountAt_eq n counts hps hs)
    (fun n _ htok => htok.countToken n), countToken_words, softdepCount_words]
  · simp only [Nat.zero_add]
    rw [show stored .none (scanWords line.chars [] false) = softdepWords line.chars from rfl]
    split <;> rfl
  · exact Nat.zero_le _
  · exact Nat.zero_le _
  · unfold PTRDIFF_MAX at hfits
    rw [List.length_nil] at hlen
    dsimp only
    omega

/-! ### The second pass -/

/-- What an array of pointers holds. -/
def slotBytes (base : Nat) (ps : List Nat) : List UInt8 :=
  ps.flatMap (fun p => bytesLe 8 (base + p))

theorem length_slotBytes (base : Nat) (ps : List Nat) :
    (slotBytes base ps).length = 8 * ps.length := by
  induction ps with
  | nil => rfl
  | cons p ps ih =>
    show (bytesLe 8 (base + p) ++ slotBytes base ps).length = _
    rw [List.length_append, length_bytesLe, ih, List.length_cons]
    omega

/-- The first part of what is left to write. -/
theorem exists_split {l : List UInt8} {m n : Nat} (h : l.length = m + n) :
    ∃ x y, l = x ++ y ∧ x.length = m ∧ y.length = n := by
  refine ⟨l.take m, l.drop m, (List.take_append_drop m l).symm, ?_, ?_⟩
  · rw [List.length_take, h]
    omega
  · rw [List.length_drop, h]
    omega

/-- One word gets its slot and its bytes, and nothing else is changed. -/
theorem storeToken_ok (base : Nat) {slot itr : Nat} {tok a x m y r : List UInt8}
    (hslot : slot = a.length) (hx : x.length = 8) (hitr : itr = (a ++ (x ++ m)).length)
    (hy : y.length = tok.length + 1) :
    storeToken base slot itr tok (a ++ (x ++ (m ++ (y ++ r)))) =
      .ok (a ++ (bytesLe 8 (base + itr) ++ (m ++ ((tok ++ [0]) ++ r)))) := by
  have hptr : (bytesLe 8 (base + itr)).length = 8 := length_bytesLe _ _
  have hput := putRange_front a x (m ++ (y ++ r)) (bytesLe 8 (base + itr)) (by omega)
  rw [hptr, List.drop_of_length_le (Nat.le_of_eq hx), List.nil_append] at hput
  obtain ⟨y, z, rfl, hy, hz⟩ := exists_split hy
  have hword := putRange_front (a ++ (bytesLe 8 (base + itr) ++ m)) y (z ++ r) tok (by omega)
  rw [List.drop_of_length_le (Nat.le_of_eq hy), List.nil_append] at hword
  obtain ⟨c, rfl⟩ := List.length_eq_one_iff.mp hz
  have hend := putRange_front (a ++ (bytesLe 8 (base + itr) ++ (m ++ tok))) [c] r [0] le_rfl
  rw [show [c].drop [(0 : UInt8)].length ++ r = r from rfl] at hend
  have hitr₁ : itr = (a ++ (bytesLe 8 (base + itr) ++ m)).length := by
    simp only [List.length_append, hptr, hx] at hitr ⊢
    exact hitr
  have hitr₂ : itr + tok.length = (a ++ (bytesLe 8 (base + itr) ++ (m ++ tok))).length := by
    simp only [List.length_append, hptr, hx] at hitr ⊢
    omega
  rw [← hitr₁] at hword
  rw [← hitr₂] at hend
  simp only [List.append_assoc] at hput hword hend ⊢
  unfold storeToken
  rw [hslot, hput, access_some, ok_bind, hword, access_some, ok_bind, hend, access_some]

theorem softdepStoreToken_keyword {w : CStr} (h : isKeyword w = true) (base pre post : Nat)
    (st : SoftdepStore) (counts : Bool) :
    softdepStoreToken base pre post st w counts = .ok { st with mode := st.mode.next w } := by
  unfold softdepStoreToken SoftdepMode.next
  rcases isKeyword_iff.mp h with hw | hw
  · rw [if_pos hw, if_pos hw]
  · have hne : w ≠ cstr "pre:" := by rw [hw]; decide
    rw [if_neg hne, if_pos hw, if_neg hne, if_pos hw]

theorem BlankTok.softdepStoreToken {tok : CStr} (h : BlankTok tok) (base pre post : Nat)
    (st : SoftdepStore) : softdepStoreToken base pre post st tok false = .ok st := by
  obtain ⟨h1, h2⟩ := h.not_keyword
  unfold Kmod.softdepStoreToken
  rw [if_neg h1, if_neg h2]
  rfl

/--
How far the second pass is: `a` and `b` are the slots that are filled, `t` is the text that is
written; `p` and `q` are the slots that are left.
-/
structure Filling (pre post nPre nPost itr : Nat) (a p b q t : List UInt8) : Prop where
  preSlot : pre + 8 * nPre = a.length
  postSlot : post + 8 * nPost = (a ++ (p ++ b)).length
  text : itr = (a ++ (p ++ (b ++ (q ++ t)))).length

section Filling

variable {base pre post nPre nPost itr : Nat} {a p b q t r x y : List UInt8} {w : CStr}

/-- A word of the `pre:` list goes to the next of its slots. -/
theorem Filling.pre_word (h : Filling pre post nPre nPost itr a (x ++ p) b q t)
    (hk : isKeyword w = false) (hx : x.length = 8) (hy : y.length = w.length + 1)
    (hfit : nPre + 1 ≤ UINT32_MAX) :
    softdepStoreToken base pre post
        ⟨.pre, nPre, nPost, itr, a ++ (x ++ p ++ (b ++ (q ++ (t ++ (y ++ r)))))⟩ w true =
      .ok ⟨.pre, nPre + 1, nPost, itr + (w.length + 1), a ++ bytesLe 8 (base + itr) ++
        (p ++ (b ++ (q ++ (t ++ (w ++ [0]) ++ r))))⟩ ∧
    Filling pre post (nPre + 1) nPost (itr + (w.length + 1)) (a ++ bytesLe 8 (base + itr)) p b q
      (t ++ (w ++ [0])) := by
  obtain ⟨hpre, hpost, hitr⟩ := h
  obtain ⟨hne1, hne2⟩ := not_keyword hk
  have htok := @storeToken_ok base (pre + 8 * nPre) itr w a x (p ++ (b ++ (q ++ t))) y r
    hpre hx (by rw [hitr]; simp only [List.append_assoc]) hy
  refine ⟨?_, ?_, ?_, ?_⟩
  · unfold UINT32_MAX at hfit
    rw [softdepStoreToken, if_neg hne1, if_neg hne2, if_pos rfl]
    simp only [List.append_assoc] at htok ⊢
    rw [htok, ok_bind, Nat.mod_eq_of_lt (by omega)]
  · rw [List.length_append, length_bytesLe]
    omega
  · simp only [List.length_append, length_bytesLe, hx] at hpost ⊢
    omega
  · simp only [List.length_append, length_bytesLe, hx, List.length_singleton] at hitr ⊢
    omega

/-- A word of the `post:` list. -/
theorem Filling.post_word (h : Filling pre post nPre nPost itr a p b (x ++ q) t)
    (hk : isKeyword w = false) (hx : x.length = 8) (hy : y.length = w.length + 1)
    (hfit : nPost + 1 ≤ UINT32_MAX) :
    softdepStoreToken base pre post
        ⟨.post, nPre, nPost, itr, a ++ (p ++ (b ++ (x ++ q ++ (t ++ (y ++ r)))))⟩ w true =
      .ok ⟨.post, nPre, nPost + 1, itr + (w.length + 1), a ++ (p ++ (b ++ bytesLe 8 (base + itr) ++
        (q ++ (t ++ (w ++ [0]) ++ r))))⟩ ∧
    Filling pre post nPre (nPost + 1) (itr + (w.length + 1)) a p (b ++ bytesLe 8 (base + itr)) q
      (t ++ (w ++ [0])) := by
  obtain ⟨hpre, hpost, hitr⟩ := h
  obtain ⟨hne1, hne2⟩ := not_keyword hk
  have htok := @storeToken_ok base (post + 8 * nPost) itr w (a ++ (p ++ b)) x (q ++ t) y r
    hpost hx (by rw [hitr]; simp only [List.append_assoc]) hy
  refine ⟨?_, hpre, ?_, ?_⟩
  · unfold UINT32_MAX at hfit
    rw [softdepStoreToken, if_neg hne1, if_neg hne2, if_pos rfl]
    simp only [List.append_assoc] at htok ⊢
    rw [htok, ok_bind, Nat.mod_eq_of_lt (by omega)]
  · simp only [List.length_append, length_bytesLe] at hpost ⊢
    omega
  · simp only [List.length_append, length_bytesLe, hx, List.length_singleton] at hitr ⊢
    omega

end Filling

/-- **The second pass fills the block**; `r` is the room for the text that is left. -/
theorem softdepStoreToken_words (base pre post : Nat) (ws : List CStr) :
    ∀ (mode : SoftdepMode) (nPre nPost itr : Nat) (a p b q t r : List UInt8),
      Filling pre post nPre nPost itr a p b q t →
      p.length = 8 * (wordsIn .pre (stored mode ws)).length →
      q.length = 8 * (wordsIn .post (stored mode ws)).length →
      r.length = (packed (stored mode ws)).length →
      CountsFit nPre nPost (stored mode ws) →
      ws.foldlM (fun st w => softdepStoreToken base pre post st w true)
          ⟨mode, nPre, nPost, itr, a ++ (p ++ (b ++ (q ++ (t ++ r))))⟩ =
        .ok ⟨ws.foldl SoftdepMode.next mode,
          nPre + (wordsIn .pre (stored mode ws)).length,
          nPost + (wordsIn .post (stored mode ws)).length,
          itr + (packed (stored mode ws)).length,
          a ++ (slotBytes base (pointers .pre itr (stored mode ws)) ++
            (b ++ (slotBytes base (pointers .post itr (stored mode ws)) ++
              (t ++ packed (stored mode ws)))))⟩ := by
  induction ws with
  | nil =>
    intro mode nPre nPost itr a p b q t r _ hp hq hr _
    have hp : p = [] := List.eq_nil_of_length_eq_zero hp
    have hq : q = [] := List.eq_nil_of_length_eq_zero hq
    have hr : r = [] := List.eq_nil_of_length_eq_zero hr
    rw [hp, hq, hr]
    rfl
  | cons w ws ih =>
    intro mode nPre nPost itr a p b q t r hfill hp hq hr hfit
    rw [List.foldlM_cons, List.foldl_cons]
    cases hk : isKeyword w with
    | true =>
      rw [stored_keyword hk, ← (next_of_keyword hk mode).1] at hp hq hr hfit ⊢
      rw [softdepStoreToken_keyword hk]
      exact ih _ _ _ _ _ _ _ _ _ _ hfill hp hq hr hfit
    | false =>
      rw [next_of_not_keyword hk]
      cases mode with
      | none =>
        obtain ⟨hne1, hne2⟩ := not_keyword hk
        rw [stored_dropped hk] at hp hq hr hfit ⊢
        unfold softdepStoreToken
        rw [if_neg hne1, if_neg hne2, if_pos rfl]
        exact ih _ _ _ _ _ _ _ _ _ _ hfill hp hq hr hfit
      | pre =>
        rw [stored_word hk (by decide : SoftdepMode.pre ≠ .none) ws] at hp hq hr hfit ⊢
        simp only [CountsFit, wordsIn_cons, if_true, reduceCtorEq, if_false, List.length_append,
          List.length_singleton, packed_cons, List.nil_append] at hp hq hr hfit
        obtain ⟨x, p, rfl, hx, hp⟩ := exists_split (show p.length = 8 + _ by rw [hp, Nat.mul_add])
        obtain ⟨y, r, rfl, hy, hr⟩ := exists_split (show r.length = (w.length + 1) + _ from hr)
        obtain ⟨hstep, hfill⟩ := hfill.pre_word hk hx hy (by omega)
        rw [hstep, ok_bind]
        refine (ih _ _ _ _ _ _ _ _ _ _ hfill hp hq hr ⟨by omega, hfit.2⟩).trans ?_
        simp [pointers, slotBytes, Nat.add_comm, Nat.add_left_comm]
      | post =>
        rw [stored_word hk (by decide : SoftdepMode.post ≠ .none) ws] at hp hq hr hfit ⊢
        simp only [CountsFit, wordsIn_cons, if_true, reduceCtorEq, if_false, List.length_append,
          List.length_singleton, packed_cons, List.nil_append] at hp hq hr hfit
        obtain ⟨x, q, rfl, hx, hq⟩ := exists_split (show q.length = 8 + _ by rw [hq, Nat.mul_add])
        obtain ⟨y, r, rfl, hy, hr⟩ := exists_split (show r.length = (w.length + 1) + _ from hr)
        obtain ⟨hstep, hfill⟩ := hfill.post_word hk hx hy (by omega)
        rw [hstep, ok_bind]
        refine (ih _ _ _ _ _ _ _ _ _ _ hfill hp hq hr ⟨hfit.1, by omega⟩).trans ?_
        simp [pointers, slotBytes, Nat.add_comm, Nat.add_left_comm]

/-! ### Weakdeps -/

/-- One word of the first pass of a weakdep. -/
def weakdepCountToken (n : Nat × Nat) (tok : CStr) (counts : Bool) : Except Early (Nat × Nat) :=
  if counts then
    if n.1 + 1 > UINT32_MAX then .error (.inr (-EINVAL))
    else .ok (n.1 + 1, (n.2 + (tok.length + 1)) % 2 ^ 64)
  else .ok n

/-- One word of the second pass of a weakdep. -/
def weakdepStoreToken (base weak : Nat) (st : WeakdepStore) (tok : CStr) (counts : Bool) :
    Except Early WeakdepStore :=
  if counts then do
    let mem ← storeToken base (weak + 8 * st.nWeak) st.itr tok st.mem
    .ok ⟨(st.nWeak + 1) % 2 ^ 32, st.itr + (tok.length + 1), mem⟩
  else .ok st

theorem weakdepCountToken_words (ws : List CStr) :
    ∀ n : Nat × Nat, n.1 ≤ UINT32_MAX → n.2 + (packed (weakWords ws)).length < 2 ^ 64 →
      ws.foldlM (fun n w => weakdepCountToken n w true) n =
        if n.1 + ws.length ≤ UINT32_MAX then
          .ok (n.1 + ws.length, n.2 + (packed (weakWords ws)).length)
        else .error (.inr (-EINVAL)) := by
  induction ws with
  | nil => exact fun n hn _ => (if_pos hn).symm
  | cons w ws ih =>
    intro n hn hlen
    rw [length_weakWords_cons] at hlen
    rw [List.foldlM_cons, List.length_cons, length_weakWords_cons]
    unfold weakdepCountToken
    rw [if_pos rfl]
    by_cases hmax : n.1 + 1 > UINT32_MAX
    · rw [if_pos hmax, if_neg (by omega)]
      rfl
    · rw [if_neg hmax, Nat.mod_eq_of_lt (by omega)]
      refine (ih (n.1 + 1, n.2 + (w.length + 1)) (by omega) (by dsimp only; omega)).trans ?_
      simp only [Nat.add_comm, Nat.add_left_comm]

/-- The first pass of a weakdep. -/
theorem countWeakdep_eq (line : CText) :
    countWeakdep line =
      if (scanWords line.chars [] false).length ≤ UINT32_MAX then
        .ok ((scanWords line.chars [] false).length,
          (packed (weakWords (scanWords line.chars [] false))).length)
      else .error (.inr (-EINVAL)) := by
  have hlen := length_scanWords line.chars [] false
  have hfits := line.fits
  have hstep : ∀ n p s counts, p ≤ s → s ≤ line.chars.length →
      weakdepCountAt n p s counts = weakdepCountToken n ((line.chars.take s).drop p) counts := by
    intro n p s counts hps hs
    unfold weakdepCountAt weakdepCountToken
    rw [length_slice hs, ptrSub_of_le hps]
  unfold countWeakdep
  rw [scanText_eq hstep (fun _ _ _ => rfl), weakdepCountToken_words _ (0, 0) (Nat.zero_le _)]
  · simp only [Nat.zero_add]
  · unfold PTRDIFF_MAX at hfits
    rw [List.length_nil] at hlen
    dsimp only
    omega

theorem weakdepStoreAt_eq {line : CText} {p s : Nat} (base weak : Nat) (st : WeakdepStore)
    (counts : Bool) (hps : p ≤ s) (hs : s ≤ line.chars.length) :
    weakdepStoreAt line.mem base weak st p s counts =
      weakdepStoreToken base weak st ((line.chars.take s).drop p) counts := by
  unfold weakdepStoreAt weakdepStoreToken
  dsimp only
  rw [storeWord_eq _ _ _ _ hps hs, length_slice hs, ptrSub_of_le hps]

/-- The second pass of a weakdep, with the names of `softdepStoreToken_words`. -/
theorem weakdepStoreToken_words (base weak : Nat) (ws : List CStr) :
    ∀ (nWeak itr : Nat) (a p t r : List UInt8),
      weak + 8 * nWeak = a.length → itr = (a ++ (p ++ t)).length → p.length = 8 * ws.length →
      r.length = (packed (weakWords ws)).length → nWeak + ws.length ≤ UINT32_MAX →
      ws.foldlM (fun st w => weakdepStoreToken base weak st w true)
          ⟨nWeak, itr, a ++ (p ++ (t ++ r))⟩ =
        .ok ⟨nWeak + ws.length, itr + (packed (weakWords ws)).length,
          a ++ (slotBytes base (pointers () itr (weakWords ws)) ++
            (t ++ packed (weakWords ws)))⟩ := by
  induction ws with
  | nil =>
    intro nWeak itr a p t r _ _ hp hr _
    have hp : p = [] := List.eq_nil_of_length_eq_zero hp
    have hr : r = [] := List.eq_nil_of_length_eq_zero hr
    rw [hp, hr]
    rfl
  | cons w ws ih =>
    intro nWeak itr a p t r hweak hitr hp hr hfit
    rw [length_weakWords_cons] at hr
    rw [List.length_cons] at hp hfit
    obtain ⟨x, p, rfl, hx, hp⟩ := exists_split (show p.length = 8 + 8 * ws.length by omega)
    obtain ⟨y, r, rfl, hy, hr⟩ := exists_split hr
    have htok := @storeToken_ok base (weak + 8 * nWeak) itr w a x (p ++ t) y r
      hweak hx (by rw [hitr]; simp only [List.append_assoc]) hy
    have hrest := ih (nWeak + 1) (itr + (w.length + 1)) (a ++ bytesLe 8 (base + itr)) p
      (t ++ (w ++ [0])) r
      (by rw [List.length_append, length_bytesLe]; omega)
      (by simp only [List.length_append, length_bytesLe, hx, List.length_singleton] at hitr ⊢
          omega) hp hr (by omega)
    simp only [List.append_assoc] at htok hrest ⊢
    unfold UINT32_MAX at hfit
    rw [List.foldlM_cons, List.length_cons, length_weakWords_cons]
    unfold weakdepStoreToken at hrest ⊢
    rw [if_pos rfl, htok, ok_bind]
    dsimp only
    rw [Nat.mod_eq_of_lt (by omega)]
    refine hrest.trans ?_
    simp [pointers, slotBytes, Nat.add_comm, Nat.add_left_comm]

/-! ## What was counted is what is stored -/

/-- The words are made of characters of the text. -/
theorem mem_scanWords {c : UInt8} (line : CStr) :
    ∀ tok wasSpace, ∀ w ∈ scanWords line tok wasSpace, c ∈ w → c ∈ tok ++ line := by
  induction line with
  | nil =>
    intro tok wasSpace w hw hc
    rw [scanWords] at hw
    split at hw
    · exact absurd hw (by simp)
    · rw [List.mem_singleton.mp hw] at hc
      exact List.mem_append_left _ hc
  | cons d line ih =>
    intro tok wasSpace w hw hc
    rw [scanWords] at hw
    split at hw
    · have := ih _ _ w hw hc
      rwa [List.append_assoc] at this
    · split at hw
      · exact List.mem_append_right _ (List.mem_cons_of_mem _ (ih [] _ w hw hc))
      · split at hw
        · exact List.mem_append_right _ (ih [d] _ w hw hc)
        · rcases List.mem_cons.mp hw with rfl | hw
          · exact List.mem_append_left _ hc
          · exact List.mem_append_right _ (List.mem_cons_of_mem _ (ih [] _ w hw hc))

theorem CText.nul_not_mem_words (line : CText) : ∀ w ∈ scanWords line.chars [] false, 0 ∉ w :=
  fun w hw h => line.nulFree (mem_scanWords line.chars [] false w hw h)

/--
The second pass of a softdep leaves what the first pass has counted: the slots of both
arrays hold pointers, each to its word, and the words fill the rest of the block.
-/
structure SoftdepStored (base : Nat) (head : List UInt8) (modname line : CText) (n : SoftdepCount)
    (st : SoftdepStore) : Prop where
  nPre : st.nPre = n.nPre
  nPost : st.nPost = n.nPost
  itr : st.itr = st.mem.length
  mem : ∃ pre post : List Nat, ∃ words : List UInt8,
    pre.length = n.nPre ∧ post.length = n.nPost ∧ words.length = n.buflen ∧
    st.mem = head ++ (slotBytes base pre ++ (slotBytes base post ++ (modname.mem ++ words))) ∧
    pre.map (cstrAt st.mem) = wordsIn .pre (softdepWords line.chars) ∧
    post.map (cstrAt st.mem) = wordsIn .post (softdepWords line.chars)

/-- The same for a weakdep, of which the first pass has counted `n`. -/
structure WeakdepStored (base : Nat) (head : List UInt8) (modname line : CText) (n : Nat × Nat)
    (st : WeakdepStore) : Prop where
  nWeak : st.nWeak = n.1
  itr : st.itr = st.mem.length
  mem : ∃ weak : List Nat, ∃ words : List UInt8, weak.length = n.1 ∧ words.length = n.2 ∧
    st.mem = head ++ (slotBytes base weak ++ (modname.mem ++ words)) ∧
    weak.map (cstrAt st.mem) = scanWords line.chars [] false

section Passes

variable (base : Nat) (modname line : CText)

theorem storeSoftdep_stored {n : SoftdepCount} (hn : countSoftdep line = .ok n)
    {head slots text : List UInt8} (hhead : head.length = SIZEOF_SOFTDEP)
    (hslots : slots.length = 8 * n.nPre + 8 * n.nPost) (htext : text.length = n.buflen) :
    ∃ st, storeSoftdep line base SIZEOF_SOFTDEP (SIZEOF_SOFTDEP + 8 * n.nPre)
        (SIZEOF_SOFTDEP + 8 * n.nPre + 8 * n.nPost + (modname.chars.length + 1))
        (head ++ (slots ++ (modname.mem ++ text))) = .ok st ∧
      SoftdepStored base head modname line n st := by
  rw [countSoftdep_eq] at hn
  split at hn
  · next hfit =>
    cases hn
    dsimp only at hslots htext ⊢
    obtain ⟨p, q, rfl, hp, hq⟩ := exists_split hslots
    generalize hitr : SIZEOF_SOFTDEP + 8 * (wordsIn .pre (softdepWords line.chars)).length +
      8 * (wordsIn .post (softdepWords line.chars)).length + (modname.chars.length + 1) = itr
    have hname : modname.mem.length = modname.chars.length + 1 := by
      rw [CText.mem, List.length_append, List.length_singleton]
    have hrun := softdepStoreToken_words base SIZEOF_SOFTDEP
      (SIZEOF_SOFTDEP + 8 * (wordsIn .pre (softdepWords line.chars)).length)
      (scanWords line.chars [] false) .none 0 0 itr head p [] q modname.mem text
      ⟨by omega, by rw [List.append_nil, List.length_append]; omega,
        by simp only [List.length_append, List.length_nil]; omega⟩ hp hq htext hfit
    rw [show stored .none (scanWords line.chars [] false) = softdepWords line.chars from rfl]
      at hrun
    simp only [List.nil_append] at hrun
    have hpres := length_pointers .pre (softdepWords line.chars) itr
    have hposts := length_pointers .post (softdepWords line.chars) itr
    have hlen : (head ++ (slotBytes base (pointers .pre itr (softdepWords line.chars)) ++
        (slotBytes base (pointers .post itr (softdepWords line.chars)) ++ modname.mem))).length =
          itr := by
      simp only [List.length_append, length_slotBytes]
      omega
    have hwords := fun mode => pointers_words mode (softdepWords line.chars)
      (head ++ (slotBytes base (pointers .pre itr (softdepWords line.chars)) ++
        (slotBytes base (pointers .post itr (softdepWords line.chars)) ++ modname.mem))) []
      (nul_of_stored line.nul_not_mem_words .none)
    simp only [hlen, List.append_nil, List.append_assoc] at hwords
    refine ⟨_, Eq.trans ?_ hrun, ?_⟩
    · unfold storeSoftdep
      rw [scanText_eq (fun st _ _ counts hps hs => softdepStoreAt_eq base _ _ st counts hps hs)
        (fun st _ htok => htok.softdepStoreToken base _ _ st)]
      simp only [List.append_assoc]
    · refine ⟨Nat.zero_add _, Nat.zero_add _, ?_, pointers .pre itr (softdepWords line.chars),
        pointers .post itr (softdepWords line.chars), packed (softdepWords line.chars), hpres,
        hposts, rfl, rfl, hwords .pre, hwords .post⟩
      simp only [List.length_append] at hlen ⊢
      omega
  · cases hn

theorem storeWeakdep_stored {n : Nat × Nat} (hn : countWeakdep line = .ok n)
    {head slots text : List UInt8} (hhead : head.length = SIZEOF_WEAKDEP)
    (hslots : slots.length = 8 * n.1) (htext : text.length = n.2) :
    ∃ st, storeWeakdep line base SIZEOF_WEAKDEP
        (SIZEOF_WEAKDEP + 8 * n.1 + (modname.chars.length + 1))
        (head ++ (slots ++ (modname.mem ++ text))) = .ok st ∧
      WeakdepStored base head modname line n st := by
  rw [countWeakdep_eq] at hn
  split at hn
  · next hfit =>
    cases hn
    dsimp only at hslots htext ⊢
    generalize hws : scanWords line.chars [] false = ws at *
    generalize hitr : SIZEOF_WEAKDEP + 8 * ws.length + (modname.chars.length + 1) = itr
    have hname : modname.mem.length = modname.chars.length + 1 := by
      rw [CText.mem, List.length_append, List.length_singleton]
    have hrun := weakdepStoreToken_words base SIZEOF_WEAKDEP ws 0 itr head slots modname.mem text
      (by omega) (by simp only [List.length_append]; omega) hslots htext (by omega)
    have hslot := length_pointers () (weakWords ws) itr
    rw [wordsIn_weakWords] at hslot
    have hlen : (head ++ (slotBytes base (pointers () itr (weakWords ws)) ++ modname.mem)).length =
        itr := by
      simp only [List.length_append, length_slotBytes]
      omega
    have hnul : ∀ e ∈ weakWords ws, 0 ∉ e.2 := by
      intro e he
      obtain ⟨w, hw, rfl⟩ := List.mem_map.mp he
      exact line.nul_not_mem_words w (hws ▸ hw)
    have hwords := pointers_words () (weakWords ws)
      (head ++ (slotBytes base (pointers () itr (weakWords ws)) ++ modname.mem)) [] hnul
    simp only [hlen, List.append_nil, List.append_assoc, wordsIn_weakWords] at hwords
    refine ⟨_, Eq.trans ?_ hrun, ?_⟩
    · unfold storeWeakdep
      rw [scanText_eq (fun st _ _ counts hps hs => weakdepStoreAt_eq base _ st counts hps hs)
        (fun _ _ _ => rfl), hws]
    · refine ⟨Nat.zero_add _, ?_, pointers () itr (weakWords ws), packed (weakWords ws), hslot,
        rfl, rfl, hwords.trans hws.symm⟩
      simp only [List.length_append] at hlen ⊢
      omega
  · cases hn

end Passes

/-! ## The functions -/

/-- The function returns, with an error or not. -/
def Returns {α : Type} (x : Except Early α) : Prop := ∀ f, x ≠ .error (.inl f)

section Returns

variable {α β : Type}

theorem returns_ok (a : α) : Returns (.ok a) := fun _ h => by cases h

theorem returns_error (err : Int) : Returns (.error (.inr err) : Except Early α) :=
  fun _ h => by cases h

theorem Returns.bind {x : Except Early α} {f : α → Except Early β} (hx : Returns x)
    (hf : ∀ a, x = .ok a → Returns (f a)) : Returns (x >>= f) := by
  cases x with
  | error e => exact fun g h => hx g (congrArg Except.error (Except.error.inj h))
  | ok a => exact hf a rfl

theorem returns_sizeOk (size : Nat) : Returns (sizeOk size) := by
  unfold sizeOk
  split
  · exact returns_error _
  · exact returns_ok _

theorem sizeOk_eq {size size' : Nat} (h : sizeOk size = .ok size') : size' = size := by
  unfold sizeOk at h
  split at h
  · cases h
  · exact (Except.ok.inj h).symm

theorem returns_mallocOk (heap : Allocator) (size : Nat) : Returns (mallocOk heap size) := by
  unfold mallocOk
  cases heap.malloc size with
  | none => exact returns_error _
  | some mem => exact returns_ok _

theorem length_mallocOk {heap : Allocator} {size : Nat} {mem : List UInt8}
    (h : mallocOk heap size = .ok mem) : mem.length = size := by
  unfold mallocOk Allocator.malloc at h
  split at h
  · cases h
    rw [List.length_map, List.length_range]
  · cases h

end Returns

/-- What is allocated is written as the parts it will have. -/
theorem putRange_modname (modname : CText) {mem : List UInt8} {m n k : Nat}
    (h : mem.length = m + (n + ((modname.chars.length + 1) + k))) :
    ∃ head slots text : List UInt8, head.length = m ∧ slots.length = n ∧ text.length = k ∧
      putRange mem (m + n) modname.mem = some (head ++ (slots ++ (modname.mem ++ text))) := by
  have hname : modname.mem.length = modname.chars.length + 1 := by
    rw [CText.mem, List.length_append, List.length_singleton]
  obtain ⟨head, rest, rfl, hhead, hrest⟩ := exists_split h
  obtain ⟨slots, rest, rfl, hslots, hrest⟩ := exists_split hrest
  obtain ⟨room, text, rfl, hroom, htext⟩ := exists_split hrest
  refine ⟨head, slots, text, hhead, hslots, htext, ?_⟩
  have hput := putRange_front (head ++ slots) room text modname.mem (by omega)
  rw [List.drop_of_length_le (by omega), List.nil_append, List.length_append, hhead, hslots,
    List.append_assoc, List.append_assoc] at hput
  exact hput

theorem newSoftdep_returns (heap : Allocator) (base : Nat) (modname line : CText) :
    Returns (newSoftdep heap base modname line) := by
  have hcount : Returns (countSoftdep line) := by
    rw [countSoftdep_eq]
    split
    · exact returns_ok _
    · exact returns_error _
  refine hcount.bind (fun n hn => ?_)
  refine (returns_sizeOk _).bind (fun size₁ h₁ => (returns_sizeOk _).bind (fun size₂ h₂ =>
    (returns_sizeOk _).bind (fun size₃ h₃ => (returns_sizeOk _).bind (fun size₄ h₄ =>
      (returns_sizeOk _).bind (fun size₅ h₅ => (returns_sizeOk _).bind (fun size h₆ =>
        (returns_mallocOk _ _).bind (fun mem hmem => ?_)))))))
  have hsize := length_mallocOk hmem
  rw [sizeOk_eq h₆, sizeOk_eq h₅, sizeOk_eq h₄, sizeOk_eq h₃, sizeOk_eq h₂, sizeOk_eq h₁] at hsize
  obtain ⟨head, slots, text, hhead, hslots, htext, hput⟩ := putRange_modname modname
    (show mem.length = SIZEOF_SOFTDEP + ((8 * n.nPre + 8 * n.nPost) +
      ((modname.chars.length + 1) + n.buflen)) by omega)
  obtain ⟨st, hst, -⟩ := storeSoftdep_stored base modname line hn hhead hslots htext
  rw [← Nat.add_assoc] at hput
  dsimp only
  rw [hput, access_some, ok_bind, hst]
  exact returns_ok _

theorem newWeakdep_returns (heap : Allocator) (base : Nat) (modname line : CText) :
    Returns (newWeakdep heap base modname line) := by
  have hcount : Returns (countWeakdep line) := by
    rw [countWeakdep_eq]
    split
    · exact returns_ok _
    · exact returns_error _
  refine hcount.bind (fun n hn => ?_)
  refine (returns_sizeOk _).bind (fun size₁ h₁ => (returns_sizeOk _).bind (fun size₂ h₂ =>
    (returns_sizeOk _).bind (fun size₃ h₃ => (returns_sizeOk _).bind (fun size h₄ =>
      (returns_mallocOk _ _).bind (fun mem hmem => ?_)))))
  have hsize := length_mallocOk hmem
  rw [sizeOk_eq h₄, sizeOk_eq h₃, sizeOk_eq h₂, sizeOk_eq h₁] at hsize
  obtain ⟨head, slots, text, hhead, hslots, htext, hput⟩ := putRange_modname modname
    (show mem.length = SIZEOF_WEAKDEP + (8 * n.1 + ((modname.chars.length + 1) + n.2)) by omega)
  obtain ⟨st, hst, -⟩ := storeWeakdep_stored base modname line hn hhead hslots htext
  dsimp only
  rw [hput, access_some, ok_bind, hst]
  exact returns_ok _

/--
**Both passes agree**, for every text. Wherever the length of a word is computed, the word
begins before it ends. The first pass fails just if a counter is too small for the words.
If it does not, the second pass stores as many pointers and bytes as were counted, into
whatever was in the block, and so neither function reads or writes outside of its blocks.
-/
theorem depPasses_agree (base : Nat) (modname line : CText) :
    (∃ visits, scanText line (fun log p s _ => .ok (log ++ [(p, s)])) [] = .ok visits ∧
      ∀ v ∈ visits, v.1 ≤ v.2 ∧ v.2 ≤ line.chars.length) ∧
    (countSoftdep line = .error (.inr (-EINVAL)) ↔ ¬ CountsFit 0 0 (softdepWords line.chars)) ∧
    (CountsFit 0 0 (softdepWords line.chars) →
      ∃ n, countSoftdep line = .ok n ∧ ∀ head slots text : List UInt8,
        head.length = SIZEOF_SOFTDEP → slots.length = 8 * n.nPre + 8 * n.nPost →
        text.length = n.buflen → ∃ st,
          storeSoftdep line base SIZEOF_SOFTDEP (SIZEOF_SOFTDEP + 8 * n.nPre)
            (SIZEOF_SOFTDEP + 8 * n.nPre + 8 * n.nPost + (modname.chars.length + 1))
            (head ++ (slots ++ (modname.mem ++ text))) = .ok st ∧
          SoftdepStored base head modname line n st) ∧
    (countWeakdep line = .error (.inr (-EINVAL)) ↔
      ¬ (scanWords line.chars [] false).length ≤ UINT32_MAX) ∧
    ((scanWords line.chars [] false).length ≤ UINT32_MAX →
      ∃ n, countWeakdep line = .ok n ∧ ∀ head slots text : List UInt8,
        head.length = SIZEOF_WEAKDEP → slots.length = 8 * n.1 → text.length = n.2 → ∃ st,
          storeWeakdep line base SIZEOF_WEAKDEP
            (SIZEOF_WEAKDEP + 8 * n.1 + (modname.chars.length + 1))
            (head ++ (slots ++ (modname.mem ++ text))) = .ok st ∧
          WeakdepStored base head modname line n st) ∧
    ∀ heap, Returns (newSoftdep heap base modname line) ∧
      Returns (newWeakdep heap base modname line) := by
  have hsoft := countSoftdep_eq line
  have hweak := countWeakdep_eq line
  refine ⟨scanText_pointers line, ?_, fun hfit => ?_, ?_, fun hfit => ?_, fun heap =>
    ⟨newSoftdep_returns heap base modname line, newWeakdep_returns heap base modname line⟩⟩
  · rw [hsoft]
    split
    · next hfit => exact iff_of_false (fun h => by cases h) (fun h => h hfit)
    · next hfit => exact iff_of_true rfl hfit
  · rw [if_pos hfit] at hsoft
    exact ⟨_, hsoft, fun _ _ _ => storeSoftdep_stored base modname line hsoft⟩
  · rw [hweak]
    split
    · next hfit => exact iff_of_false (fun h => by cases h) (fun h => h hfit)
    · next hfit => exact iff_of_true rfl hfit
  · rw [if_pos hfit] at hweak
    exact ⟨_, hweak, fun _ _ _ => storeWeakdep_stored base modname line hweak⟩

/-- The dependencies of `softdep m pre: a b post: c`. -/
def preAndPost : CText := ⟨cstr "pre: a b post: c", by decide, by decide⟩

def moduleM : CText := ⟨cstr "m", by decide, by decide⟩

/-- `a` and `b` are counted and stored as `pre`, `c` as `post`. -/
theorem depPasses_agree_preAndPost :
    ∃ n, countSoftdep preAndPost = .ok n ∧ n.nPre = 2 ∧ n.nPost = 1 ∧ n.buflen = 6 ∧
      ∃ st, storeSoftdep preAndPost 0 SIZEOF_SOFTDEP (SIZEOF_SOFTDEP + 8 * n.nPre)
          (SIZEOF_SOFTDEP + 8 * n.nPre + 8 * n.nPost + (moduleM.chars.length + 1))
          (List.replicate SIZEOF_SOFTDEP 0 ++ (List.replicate (8 * n.nPre + 8 * n.nPost) 0 ++
            (moduleM.mem ++ List.replicate n.buflen 0))) = .ok st ∧
        SoftdepStored 0 (List.replicate SIZEOF_SOFTDEP 0) moduleM preAndPost n st := by
  obtain ⟨-, -, hfits, -⟩ := depPasses_agree 0 moduleM preAndPost
  obtain ⟨n, hn, hstored⟩ := hfits (by decide)
  have hcount : n = ⟨.post, 2, 1, 6⟩ := by
    have hrun : countSoftdep preAndPost = .ok ⟨.post, 2, 1, 6⟩ := by rfl
    exact Except.ok.inj (hn.symm.trans hrun)
  refine ⟨n, hn, by rw [hcount], by rw [hcount], by rw [hcount], ?_⟩
  exact hstored _ _ _ List.length_replicate List.length_replicate List.length_replicate

end Kmod
