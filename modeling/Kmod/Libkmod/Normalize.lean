import Kmod.Lib.Memory
import Kmod.Libkmod.Aliases
import Kmod.Libkmod.ConfigWords

/-!
# The two normalisers

`underscores` works in place, on the lines of the configuration; `alias_normalize` writes to
a buffer, for lookups and for depmod. Both are written out here as they go through memory,
with the index that moves inside of brackets, and shown to compute what the functions on
strings do that the other modules use (`aliasNormalizeInto_spec`, `underscoresInPlace_spec`).

The functions on strings differ only in how much room there is, so on a string that fits into
the buffer the two agree (`normalisers_agree`).
-/

namespace Kmod

open Memory

/-! ## The model -/

/-- `strcspn` with one character to stop at. -/
def strcspnTail (reject : UInt8) : List UInt8 → Option Nat
  | [] => none
  | c :: s => if c = 0 ∨ c = reject then some 0 else (strcspnTail reject s).map (· + 1)

/-- The inner loop of `alias_normalize`; `room` is `PATH_MAX - 1 - i`. -/
def bracketLoop (alias_ : List UInt8) : Nat → Nat → List UInt8 → Except Fault (Nat × List UInt8)
  | 0, i, buf => .ok (i, buf)
  | room + 1, i, buf => do
    let c ← inBlock alias_[i]?
    if c ≠ 93 ∧ c ≠ 0 then do
      let buf ← inBlock (putRange buf i [c])
      bracketLoop alias_ room (i + 1) buf
    else .ok (i, buf)

/-- `alias_normalize` returns an error, or 0 and `*len`; and what the buffer holds then. -/
abbrev NormalizeResult := Except Fault (Except Int Nat × List UInt8)

/-- `finish` -/
def finishAlias (i : Nat) (buf : List UInt8) : NormalizeResult := do
  let buf ← inBlock (putRange buf i [0])
  .ok (.ok i, buf)

/-- After the inner loop: the bracket that closes. -/
def closeBracket (alias_ : List UInt8) (next : Nat → List UInt8 → NormalizeResult) (i : Nat)
    (buf : List UInt8) : NormalizeResult :=
  if PATH_MAX - 1 ≤ i then .ok (.error (-EINVAL), buf)
  else do
    let c ← inBlock alias_[i]?
    if c ≠ 93 then .ok (.error (-EINVAL), buf)
    else do
      let buf ← inBlock (putRange buf i [c])
      next (i + 1) buf

/-- The loop of `alias_normalize`. -/
def aliasLoop (alias_ : List UInt8) : Nat → Nat → List UInt8 → NormalizeResult
  | 0, _, _ => .error .outOfFuel
  | fuel + 1, i, buf =>
    if PATH_MAX - 1 ≤ i then finishAlias i buf
    else do
      let c ← inBlock alias_[i]?
      if c = 45 then do
        let buf ← inBlock (putRange buf i [95])
        aliasLoop alias_ fuel (i + 1) buf
      else if c = 93 then .ok (.error (-EINVAL), buf)
      else if c = 91 then do
        let (i, buf) ← bracketLoop alias_ (PATH_MAX - 1 - i) i buf
        closeBracket alias_ (aliasLoop alias_ fuel) i buf
      else if c = 0 then finishAlias i buf
      else do
        let buf ← inBlock (putRange buf i [c])
        aliasLoop alias_ fuel (i + 1) buf

/-- `alias_normalize` on a string in memory and a buffer. -/
def aliasNormalizeInto (alias_ buf : List UInt8) :
    NormalizeResult := aliasLoop alias_ PATH_MAX 0 buf

/-- In `underscores`, what follows a bracket; the index is an `unsigned int`. -/
def openBracket (next : Nat → List UInt8 → Except Fault (Int × List UInt8)) (i : Nat)
    (s : List UInt8) :
    Except Fault (Int × List UInt8) := do
  let n ← inBlock (strcspnTail 93 (s.drop i))
  let i := (i + n) % 2 ^ 32
  let c ← inBlock s[i]?
  if c = 0 then .ok (-EINVAL, s) else next ((i + 1) % 2 ^ 32) s

/-- The loop of `underscores`. -/
def underscoresAt : Nat → Nat → List UInt8 → Except Fault (Int × List UInt8)
  | 0, _, _ => .error .outOfFuel
  | fuel + 1, i, s => do
    let c ← inBlock s[i]?
    if c = 0 then .ok (0, s)
    else if c = 45 then do
      let s ← inBlock (putRange s i [95])
      underscoresAt fuel ((i + 1) % 2 ^ 32) s
    else if c = 93 then .ok (-EINVAL, s)
    else if c = 91 then openBracket (underscoresAt fuel) i s
    else underscoresAt fuel ((i + 1) % 2 ^ 32) s

/-- `underscores` on a string in memory; `none` is `NULL`. -/
def underscoresInPlace : Option (List UInt8) → Except Fault (Int × List UInt8)
  | none => .ok (-EINVAL, [])
  | some s => underscoresAt s.length 0 s

/-! ## Into a buffer -/

/-- The buffer holds the string, behind what was written before; or there is an error. -/
def Into (out : List UInt8) (res : NormalizeResult) : Option CStr → Prop
  | none => ∃ buf, res = .ok (.error (-EINVAL), buf)
  | some t => ∃ junk, res = .ok (.ok (out ++ t).length, (out ++ t) ++ 0 :: junk)

theorem Into.cons {out : List UInt8} {c : UInt8} {res : NormalizeResult} {r : Option CStr}
    (h : Into (out ++ [c]) res r) : Into out res (r.map (c :: ·)) := by
  cases r with
  | none => exact h
  | some t =>
    obtain ⟨junk, h⟩ := h
    refine ⟨junk, ?_⟩
    rw [List.append_assoc] at h
    exact h

/-- The next cell of the buffer. -/
theorem putRange_next {out junk : List UInt8} {i : Nat} (hi : out.length = i)
    (hjunk : 0 < junk.length)
    (c : UInt8) : putRange (out ++ junk) i [c] = some ((out ++ [c]) ++ junk.drop 1) := by
  subst hi
  rw [putRange_append out junk [c] hjunk, List.append_assoc]
  rfl

theorem into_finishAlias {out junk : List UInt8} {i : Nat} (hi : out.length = i)
    (hjunk : 0 < junk.length) : Into out (finishAlias i (out ++ junk)) (some []) := by
  refine ⟨junk.drop 1, ?_⟩
  unfold finishAlias
  rw [putRange_next hi hjunk, inBlock_some, ok_bind, List.append_nil, hi, List.append_assoc]
  rfl

/-- The loop is at the index `i`, with `room` before the end of the buffer, and `rest` to go. -/
structure AliasAt (alias_ rest out junk : List UInt8) (i room : Nat) : Prop where
  drop_eq : alias_.drop i = rest ++ [0]
  length_out : out.length = i
  sum : i + room = PATH_MAX - 1
  length_junk : room < junk.length
  nul : 0 ∉ rest

section Into

variable {alias_ rest out junk : List UInt8} {c : UInt8} {i room : Nat}

theorem getElem?_of_drop {l : List UInt8} (h : l.drop i = c :: rest) : l[i]? = some c := by
  have hget : (l.drop i)[0]? = l[i + 0]? := List.getElem?_drop
  rw [h] at hget
  exact hget.symm

theorem drop_succ_of_drop {l : List UInt8} (h : l.drop i = c :: rest) : l.drop (i + 1) = rest := by
  rw [← List.drop_drop, h]
  rfl

theorem AliasAt.read (h : AliasAt alias_ (c :: rest) out junk i room) : alias_[i]? = some c :=
  getElem?_of_drop h.drop_eq

theorem AliasAt.read_end (h : AliasAt alias_ [] out junk i room) : alias_[i]? = some 0 :=
  getElem?_of_drop h.drop_eq

theorem AliasAt.next (h : AliasAt alias_ (c :: rest) out junk i (room + 1)) (d : UInt8) :
    AliasAt alias_ rest (out ++ [d]) (junk.drop 1) (i + 1) room where
  drop_eq := drop_succ_of_drop h.drop_eq
  length_out := by simp [h.length_out]
  sum := by have := h.sum; omega
  length_junk := by have := h.length_junk; rw [List.length_drop]; omega
  nul := fun hmem => h.nul (List.mem_cons_of_mem _ hmem)

theorem AliasAt.put (h : AliasAt alias_ rest out junk i room) (d : UInt8) :
    putRange (out ++ junk) i [d] = some ((out ++ [d]) ++ junk.drop 1) :=
  putRange_next h.length_out (by have := h.length_junk; omega) d

theorem AliasAt.finish (h : AliasAt alias_ rest out junk i room) :
    Into out (finishAlias i (out ++ junk)) (some []) :=
  into_finishAlias h.length_out (by have := h.length_junk; omega)

/-- **The loop**, outside of brackets and inside. -/
theorem aliasLoop_spec (room : Nat) :
    ∀ {rest out junk : List UInt8} {i fuel : Nat},
      AliasAt alias_ rest out junk i room → room < fuel →
      Into out (aliasLoop alias_ fuel i (out ++ junk)) (aliasNormalizeLoop false room rest) ∧
      Into out (bracketLoop alias_ room i (out ++ junk) >>= fun r =>
        closeBracket alias_ (aliasLoop alias_ fuel) r.1 r.2)
          (aliasNormalizeLoop true room rest) := by
  induction room with
  | zero =>
    intro rest out junk i fuel h hfuel
    obtain ⟨fuel, rfl⟩ : ∃ n, fuel = n + 1 := ⟨fuel - 1, by omega⟩
    have hsum := h.sum
    constructor
    · rw [aliasLoop, if_pos (by omega)]
      exact h.finish
    · refine ⟨out ++ junk, ?_⟩
      rw [bracketLoop, ok_bind, closeBracket, if_pos (by omega)]
  | succ room ih =>
    intro rest out junk i fuel h hfuel
    obtain ⟨fuel, rfl⟩ : ∃ n, fuel = n + 1 := ⟨fuel - 1, by omega⟩
    have hroom : ¬ PATH_MAX - 1 ≤ i := by have := h.sum; omega
    have hwhole : PATH_MAX - 1 - i = room + 1 := by have := h.sum; omega
    cases rest with
    | nil =>
      constructor
      · rw [aliasLoop, if_neg hroom, h.read_end, inBlock_some, ok_bind]
        exact h.finish
      · refine ⟨out ++ junk, ?_⟩
        rw [bracketLoop, h.read_end, inBlock_some, ok_bind, if_neg (by decide),
          ok_bind, closeBracket,
          if_neg hroom, h.read_end, inBlock_some, ok_bind]
        rfl
    | cons c rest =>
      have hzero : c ≠ 0 := fun hc => h.nul (hc ▸ List.mem_cons_self)
      -- a character is copied, and the brackets go on
      have hcopy : ∀ fuel > room, c ≠ 93 →
          Into out (bracketLoop alias_ (room + 1) i (out ++ junk) >>= fun r =>
            closeBracket alias_ (aliasLoop alias_ fuel) r.1 r.2)
            ((aliasNormalizeLoop true room rest).map (c :: ·)) := by
        intro fuel hfuel hc
        rw [bracketLoop, h.read, inBlock_some, ok_bind, if_pos ⟨hc, hzero⟩, h.put c, inBlock_some,
          ok_bind]
        exact (ih (h.next c) hfuel).2.cons
      constructor
      · rw [aliasLoop, if_neg hroom, h.read, inBlock_some, ok_bind, aliasNormalizeLoop]
        by_cases hdash : c = 45
        · rw [if_pos hdash, if_pos hdash, h.put 95, inBlock_some, ok_bind]
          exact (ih (h.next 95) (by omega)).1.cons
        · rw [if_neg hdash, if_neg hdash]
          by_cases hclose : c = 93
          · rw [if_pos hclose, if_pos hclose]
            exact ⟨_, rfl⟩
          · rw [if_neg hclose, if_neg hclose]
            by_cases hopen : c = 91
            · rw [if_pos hopen, hwhole, decide_eq_true hopen]
              exact hcopy fuel (by omega) hclose
            · rw [if_neg hopen, if_neg hzero, h.put c, inBlock_some, ok_bind, decide_eq_false hopen]
              exact (ih (h.next c) (by omega)).1.cons
      · rw [aliasNormalizeLoop]
        by_cases hclose : c = 93
        · rw [bracketLoop, h.read, inBlock_some, ok_bind, if_neg (fun hne => hne.1 hclose), ok_bind,
            closeBracket, if_neg hroom, h.read, inBlock_some, ok_bind, if_neg (not_not.2 hclose),
            h.put c, inBlock_some, ok_bind, decide_eq_false (not_not.2 hclose)]
          exact (ih (h.next c) (by omega)).1.cons
        · rw [decide_eq_true hclose]
          exact hcopy (fuel + 1) (by omega) hclose

/-- **`alias_normalize`** writes what `aliasNormalize` says, behind it a NUL. -/
theorem aliasNormalizeInto_spec {s buf : List UInt8} (hs : 0 ∉ s) (hbuf : buf.length = PATH_MAX) :
    Into [] (aliasNormalizeInto (s ++ [0]) buf) (aliasNormalize s) := by
  have hstart : AliasAt (s ++ [0]) s [] buf 0 (PATH_MAX - 1) :=
    ⟨rfl, rfl, Nat.zero_add _, by rw [hbuf]; decide, hs⟩
  exact (aliasLoop_spec (PATH_MAX - 1) hstart (by decide)).1

end Into

/-! ## In place -/

/-- The string in memory is changed, behind what has been passed; or there is an error. -/
def InPlace (out : List UInt8) (res : Except Fault (Int × List UInt8)) : Option CStr → Prop
  | none => ∃ s, res = .ok (-EINVAL, s)
  | some t => res = .ok (0, out ++ (t ++ [0]))

theorem InPlace.append {out m : List UInt8} {res : Except Fault (Int × List UInt8)}
    {r : Option CStr}
    (h : InPlace (out ++ m) res r) : InPlace out res (r.map (m ++ ·)) := by
  cases r with
  | none => exact h
  | some t =>
    refine Eq.trans h ?_
    rw [List.append_assoc, List.append_assoc]

theorem strcspnTail_append {reject d : UInt8} {m : List UInt8} (hm : ∀ c ∈ m, c ≠ 0 ∧ c ≠ reject)
    (hd : d = 0 ∨ d = reject) (l : List UInt8) : strcspnTail reject (m ++ d :: l) =
      some m.length := by
  induction m with
  | nil => exact if_pos hd
  | cons c m ih =>
    obtain ⟨hzero, hreject⟩ := hm c List.mem_cons_self
    rw [List.cons_append, strcspnTail, if_neg (by simp [hzero, hreject]),
      ih (fun c hc => hm c (List.mem_cons_of_mem _ hc))]
    rfl

/-- Inside of brackets nothing changes, up to the one that closes. -/
theorem underscoresLoop_inside {m : CStr} (hm : 93 ∉ m) (r : CStr) :
    underscoresLoop true (m ++ 93 :: r) = (underscoresLoop false r).map (m ++ 93 :: ·) := by
  induction m with
  | nil => rfl
  | cons c m ih =>
    rw [List.mem_cons, not_or] at hm
    rw [List.cons_append, underscoresLoop, decide_eq_true (Ne.symm hm.1), ih hm.2, Option.map_map]
    rfl

theorem underscoresLoop_open {s : CStr} (hs : 93 ∉ s) : underscoresLoop true s = none := by
  induction s with
  | nil => rfl
  | cons c s ih =>
    rw [List.mem_cons, not_or] at hs
    rw [underscoresLoop, decide_eq_true (Ne.symm hs.1), ih hs.2]
    rfl

/-- **Brackets**: the loop goes on behind the one that closes. -/
theorem openBracket_spec {next : Nat → List UInt8 → Except Fault (Int × List UInt8)}
    {out s : List UInt8} (hlen : out.length + (s.length + 1) < 2 ^ 32) (hnul : 0 ∉ s)
    (hnext : ∀ m r, s = m ++ 93 :: r →
      InPlace (out ++ 91 :: (m ++ [93])) (next (out ++ 91 :: (m ++ [93])).length
        ((out ++ 91 :: (m ++ [93])) ++ (r ++ [0]))) (underscoresLoop false r)) :
    InPlace out (openBracket next out.length (out ++ (91 :: s ++ [0])))
      ((underscoresLoop true s).map (91 :: ·)) := by
  have hinside : ∀ m : List UInt8, 93 ∉ m → 0 ∉ m → ∀ c ∈ 91 :: m, c ≠ 0 ∧ c ≠ 93 := by
    intro m hm hzero c hc
    rcases List.mem_cons.1 hc with rfl | hc
    · decide
    · exact ⟨fun h => hzero (h ▸ hc), fun h => hm (h ▸ hc)⟩
  have hcell : ∀ (m l : List UInt8) (d : UInt8),
      (out ++ (91 :: m ++ d :: l))[out.length + (m.length + 1)]? = some d := by
    intro m l d
    rw [List.getElem?_append_right (Nat.le_add_right _ _), Nat.add_sub_cancel_left]
    simp
  unfold openBracket
  rw [List.drop_left]
  by_cases hmem : 93 ∈ s
  · obtain ⟨m, r, rfl, hm⟩ := List.eq_append_cons_of_mem hmem
    have hzero : 0 ∉ m := fun h => hnul (List.mem_append_left _ h)
    have hblock : out ++ (91 :: m ++ 93 :: (r ++ [0])) =
        (out ++ 91 :: (m ++ [93])) ++ (r ++ [0]) := by
      simp
    have htext : 91 :: (m ++ 93 :: r) ++ [0] = 91 :: m ++ 93 :: (r ++ [0]) := by simp
    have hindex : out.length + (m.length + 1) + 1 = (out ++ 91 :: (m ++ [93])).length := by
      simp only [List.length_append, List.length_cons, List.length_nil]
      omega
    have hrest := hnext m r rfl
    rw [List.length_append, List.length_cons] at hlen
    rw [htext, strcspnTail_append (hinside m hm hzero) (Or.inr rfl), inBlock_some, ok_bind,
      List.length_cons]
    dsimp only
    rw [Nat.mod_eq_of_lt (by omega), hcell, inBlock_some, ok_bind, if_neg (by decide),
      Nat.mod_eq_of_lt (by omega), hblock, hindex, underscoresLoop_inside hm, Option.map_map]
    have hall := hrest.append
    have hfun : (fun t => 91 :: (m ++ [93]) ++ t) = (91 :: ·) ∘ (m ++ 93 :: ·) := by
      funext t
      simp
    rw [hfun] at hall
    exact hall
  · rw [strcspnTail_append (hinside s hmem hnul) (Or.inl rfl), inBlock_some, ok_bind,
      List.length_cons]
    dsimp only
    rw [Nat.mod_eq_of_lt (by omega), hcell, inBlock_some, ok_bind, if_pos rfl,
      underscoresLoop_open hmem]
    exact ⟨_, rfl⟩

/-- **The loop of `underscores`.** -/
theorem underscoresAt_spec (fuel : Nat) :
    ∀ {out rest : List UInt8}, out.length + rest.length < 2 ^ 32 → 0 ∉ rest → rest.length < fuel →
      InPlace out (underscoresAt fuel out.length (out ++ (rest ++ [0])))
        (underscoresLoop false rest) := by
  induction fuel with
  | zero =>
    intro out rest _ _ hfuel
    omega
  | succ fuel ih =>
    intro out rest hlen hnul hfuel
    cases rest with
    | nil =>
      have hread : (out ++ ([] ++ [0]))[out.length]? = some 0 := getElem?_of_drop List.drop_left
      rw [underscoresAt, hread, inBlock_some, ok_bind]
      exact if_pos rfl
    | cons c rest =>
      rw [List.length_cons] at hlen hfuel
      rw [List.mem_cons, not_or] at hnul
      have hread : (out ++ (c :: rest ++ [0]))[out.length]? = some c :=
        getElem?_of_drop List.drop_left
      have hindex : (out.length + 1) % 2 ^ 32 = out.length + 1 := Nat.mod_eq_of_lt (by omega)
      -- one character on, when `d` stands in its place
      have hnext : ∀ d : UInt8, InPlace out
          (underscoresAt fuel ((out.length + 1) % 2 ^ 32) (out ++ (d :: rest ++ [0])))
          ((underscoresLoop false rest).map (d :: ·)) := by
        intro d
        have hrest : InPlace (out ++ [d]) _ _ :=
          ih (by rw [List.length_append, List.length_singleton]; omega) hnul.2 (by omega)
        rw [List.length_append, List.append_assoc] at hrest
        rw [hindex]
        exact hrest.append
      rw [underscoresAt, hread, inBlock_some, ok_bind, if_neg (Ne.symm hnul.1), underscoresLoop]
      by_cases hdash : c = 45
      · have hput : putRange (out ++ (c :: rest ++ [0])) out.length [95]
            = some (out ++ (95 :: rest ++ [0])) :=
          putRange_append out (c :: rest ++ [0]) [95] (by simp)
        rw [if_pos hdash, if_pos hdash, hput, inBlock_some, ok_bind]
        exact hnext 95
      · rw [if_neg hdash, if_neg hdash]
        by_cases hclose : c = 93
        · rw [if_pos hclose, if_pos hclose]
          exact ⟨_, rfl⟩
        · rw [if_neg hclose, if_neg hclose]
          by_cases hopen : c = 91
          · subst hopen
            rw [if_pos rfl, decide_eq_true rfl]
            refine openBracket_spec (by omega) hnul.2 (fun m r hrest => ?_)
            subst hrest
            rw [List.length_append, List.length_cons] at hlen hfuel
            refine ih ?_ (fun h => hnul.2 ?_) (by omega)
            · simp only [List.length_append, List.length_cons, List.length_nil]
              omega
            · exact List.mem_append_right _ (List.mem_cons_of_mem _ h)
          · rw [if_neg hopen, decide_eq_false hopen]
            exact hnext c

/-- **`underscores`** changes the string to what `underscores` on strings says. -/
theorem underscoresInPlace_spec {s : List UInt8} (hs : 0 ∉ s) (hlen : s.length < 2 ^ 32) :
    InPlace [] (underscoresInPlace (some (s ++ [0]))) (underscores (some s)) := by
  unfold underscoresInPlace
  have hall : InPlace [] (underscoresAt (s ++ [0]).length ([] : List UInt8).length ([] ++ (s ++ [0])))
      (underscoresLoop false s) :=
    underscoresAt_spec _ (by simpa using hlen) hs (by simp)
  exact hall

/-! ## What both compute -/

/-- In a buffer with room for the string there is no difference. -/
theorem aliasNormalizeLoop_eq (room : Nat) :
    ∀ {inside : Bool} {s : CStr}, s.length ≤ room →
      aliasNormalizeLoop inside room s = underscoresLoop inside s := by
  induction room with
  | zero =>
    intro inside s hs
    rw [List.eq_nil_of_length_eq_zero (Nat.le_zero.1 hs)]
    cases inside with
    | false => rfl
    | true => rfl
  | succ room ih =>
    intro inside s hs
    cases s with
    | nil =>
      cases inside with
      | false => rfl
      | true => rfl
    | cons c s =>
      have hrest : ∀ inside, aliasNormalizeLoop inside room s = underscoresLoop inside s :=
        fun inside => ih (Nat.le_of_succ_le_succ hs)
      cases inside with
      | false => rw [aliasNormalizeLoop, underscoresLoop, hrest, hrest]
      | true => rw [aliasNormalizeLoop, underscoresLoop, hrest]

/-- A place between a bracket that opens and the one that closes. -/
def InBrackets (s : CStr) (p : Nat) : Prop :=
  ∃ q < p, s[q]? = some 91 ∧ ∀ r, q < r → r < p → s[r]? ≠ some 93

/-- The same, where the string may start inside of brackets. -/
def InsideFrom (inside : Bool) (s : CStr) (p : Nat) : Prop :=
  (inside = true ∧ ∀ r < p, s[r]? ≠ some 93) ∨ InBrackets s p

theorem insideFrom_zero (inside : Bool) (s : CStr) : InsideFrom inside s 0 ↔ inside = true := by
  refine ⟨fun h => h.elim And.left ?_, fun h => Or.inl ⟨h, fun r hr => absurd hr (Nat.not_lt_zero r)⟩⟩
  rintro ⟨q, hq, -⟩
  exact absurd hq (Nat.not_lt_zero q)

theorem forall_lt_succ_cons {c : UInt8} {s : CStr} {p : Nat} :
    (∀ r < p + 1, (c :: s)[r]? ≠ some 93) ↔ c ≠ 93 ∧ ∀ r < p, s[r]? ≠ some 93 := by
  constructor
  · exact fun h => ⟨fun hc => h 0 (Nat.succ_pos p) (hc ▸ rfl), fun r hr => h (r + 1) (by omega)⟩
  · rintro ⟨hc, h⟩ r hr
    cases r with
    | zero => exact fun heq => hc (Option.some.inj heq)
    | succ r => exact h r (by omega)

theorem inBrackets_succ {c : UInt8} {s : CStr} {p : Nat} :
    InBrackets (c :: s) (p + 1) ↔ (c = 91 ∧ ∀ r < p, s[r]? ≠ some 93) ∨ InBrackets s p := by
  constructor
  · rintro ⟨q, hq, hopen, hclosed⟩
    cases q with
    | zero => exact Or.inl ⟨Option.some.inj hopen,
        fun r hr => hclosed (r + 1) (by omega) (by omega)⟩
    | succ q => exact Or.inr ⟨q, by omega, hopen, fun r hqr hr => hclosed (r + 1)
        (by omega) (by omega)⟩
  · rintro (⟨rfl, hclosed⟩ | ⟨q, hq, hopen, hclosed⟩)
    · refine ⟨0, by omega, rfl, fun r hr hrp => ?_⟩
      obtain ⟨r, rfl⟩ : ∃ n, r = n + 1 := ⟨r - 1, by omega⟩
      exact hclosed r (by omega)
    · refine ⟨q + 1, by omega, hopen, fun r hr hrp => ?_⟩
      obtain ⟨r, rfl⟩ : ∃ n, r = n + 1 := ⟨r - 1, by omega⟩
      exact hclosed r (by omega) (by omega)

/-- The state of the loops says whether they are inside. -/
theorem insideFrom_succ {inside : Bool} {c : UInt8} {s : CStr} {p : Nat} :
    InsideFrom inside (c :: s) (p + 1)
      ↔ InsideFrom (if inside then decide (c ≠ 93) else decide (c = 91)) s p := by
  unfold InsideFrom
  rw [forall_lt_succ_cons, inBrackets_succ]
  cases inside with
  | false => simp
  | true =>
    by_cases hopen : c = 91
    · subst hopen
      simp
    · simp [hopen]

/-- **Every character** is kept, but for the dashes outside of brackets. -/
theorem underscoresLoop_getElem? {s : CStr} :
    ∀ {inside : Bool} {t : CStr}, underscoresLoop inside s = some t → ∀ p,
      (s[p]? = some 45 → ¬ InsideFrom inside s p → t[p]? = some 95) ∧
      (¬ (s[p]? = some 45 ∧ ¬ InsideFrom inside s p) → t[p]? = s[p]?) := by
  induction s with
  | nil =>
    intro inside t h p
    cases inside with
    | false =>
      cases h
      exact ⟨fun hp => by simp at hp, fun _ => rfl⟩
    | true => cases h
  | cons c s ih =>
    intro inside t h p
    -- what is written for `c`, and the state behind it
    have hstep : ∀ {d : UInt8} {inside' : Bool}, (underscoresLoop inside' s).map (d :: ·) = some t →
        inside' = (if inside then decide (c ≠ 93) else decide (c = 91)) →
        (c = 45 → inside = false → d = 95) → (¬ (c = 45 ∧ inside = false) → d = c) →
        (((c :: s)[p]? = some 45 → ¬ InsideFrom inside (c :: s) p → t[p]? = some 95) ∧
          (¬ ((c :: s)[p]? = some 45 ∧ ¬ InsideFrom inside (c :: s) p) →
          t[p]? = (c :: s)[p]?)) := by
      intro d inside' hmap hstate hdash hkeep
      obtain ⟨t', ht', rfl⟩ := Option.map_eq_some_iff.mp hmap
      cases p with
      | zero =>
        rw [insideFrom_zero]
        refine ⟨fun hc hout => ?_, fun hnot => ?_⟩
        · exact congrArg some (hdash (Option.some.inj hc) (by simpa using hout))
        · exact congrArg some (hkeep (fun hboth => hnot ⟨congrArg some hboth.1, by simp [hboth.2]⟩))
      | succ p =>
        rw [insideFrom_succ, ← hstate]
        exact ih ht' p
    cases inside with
    | true => exact hstep h (by simp) (fun _ hfalse => by cases hfalse) (fun _ => rfl)
    | false =>
      unfold underscoresLoop at h
      split at h
      · next hc =>
        subst hc
        exact hstep h rfl (fun _ _ => rfl) (fun hnot => absurd ⟨rfl, rfl⟩ hnot)
      · next hdash =>
        split at h
        · cases h
        · exact hstep h rfl (fun hc => absurd hc hdash) (fun _ => rfl)

/--
**The two normalisers agree** on every string that fits into the buffer: both refuse it, or
both give the string with underscores for the dashes outside of brackets, which both then
leave as it is.
-/
theorem normalisers_agree {s : CStr} (hnul : 0 ∉ s) (hlen : s.length < PATH_MAX) {buf : List UInt8}
    (hbuf : buf.length = PATH_MAX) :
    (∃ buf' s', aliasNormalizeInto (s ++ [0]) buf = .ok (.error (-EINVAL), buf') ∧
      underscoresInPlace (some (s ++ [0])) = .ok (-EINVAL, s')) ∨
    ∃ t junk, aliasNormalizeInto (s ++ [0]) buf = .ok (.ok t.length, t ++ 0 :: junk) ∧
      underscoresInPlace (some (s ++ [0])) = .ok (0, t ++ [0]) ∧
      t.length = s.length ∧ 0 ∉ t ∧
      (∀ p, (s[p]? = some 45 → ¬ InBrackets s p → t[p]? = some 95) ∧
        (¬ (s[p]? = some 45 ∧ ¬ InBrackets s p) → t[p]? = s[p]?)) ∧
      (∀ buf, buf.length = PATH_MAX →
        ∃ junk, aliasNormalizeInto (t ++ [0]) buf = .ok (.ok t.length, t ++ 0 :: junk)) ∧
      underscoresInPlace (some (t ++ [0])) = .ok (0, t ++ [0]) := by
  have hmax : PATH_MAX < 2 ^ 32 := by decide
  have hsame : ∀ {u : CStr}, u.length < PATH_MAX → aliasNormalize u = underscoresLoop false u :=
    fun hu => aliasNormalizeLoop_eq _ (Nat.le_pred_of_lt hu)
  have hinto := aliasNormalizeInto_spec hnul hbuf
  have hplace : InPlace [] _ (underscoresLoop false s) := underscoresInPlace_spec hnul (by omega)
  rw [hsame hlen] at hinto
  cases ht : underscoresLoop false s with
  | none =>
    rw [ht] at hinto hplace
    obtain ⟨buf', hinto⟩ := hinto
    obtain ⟨s', hplace⟩ := hplace
    exact Or.inl ⟨buf', s', hinto, hplace⟩
  | some t =>
    rw [ht] at hinto hplace
    obtain ⟨junk, hinto⟩ := hinto
    have hlent := underscoresLoop_length ht
    have hnult := underscoresLoop_nul hnul ht
    -- what is normal already stays
    have hagain : underscoresLoop false t = some t :=
      (aliasNormalizeLoop_normal s.length ((aliasNormalizeLoop_eq _ (Nat.le_refl _)).trans ht)).1
    refine Or.inr ⟨t, junk, hinto, hplace, hlent, hnult, fun p => ?_, fun buf hbuf => ?_, ?_⟩
    · have hp := underscoresLoop_getElem? ht p
      have hinside : InsideFrom false s p ↔ InBrackets s p := by simp [InsideFrom]
      rw [hinside] at hp
      exact hp
    · have hinto' := aliasNormalizeInto_spec hnult hbuf
      rw [hsame (by omega), hagain] at hinto'
      exact hinto'
    · have hplace' : InPlace [] _ (underscoresLoop false t) :=
        underscoresInPlace_spec hnult (by omega)
      rw [hagain] at hplace'
      exact hplace'

theorem normalisers_agree_brackets :
    ∃ junk, aliasNormalizeInto (cstr "a-[b-c]-" ++ [0]) (List.replicate PATH_MAX 1)
      = .ok (.ok 8, cstr "a_[b-c]_" ++ 0 :: junk) := by
  have hplace : underscoresInPlace (some (cstr "a-[b-c]-" ++ [0]))
      = .ok (0, cstr "a_[b-c]_" ++ [0]) := by
    decide +kernel
  rcases normalisers_agree (by decide : 0 ∉ cstr "a-[b-c]-") (by decide)
      (List.length_replicate : (List.replicate PATH_MAX (1 : UInt8)).length = PATH_MAX)
    with ⟨-, s', -, herr⟩ | ⟨t, junk, hinto, hok, -⟩
  · rw [hplace] at herr
    cases herr
  · rw [hplace] at hok
    have ht : cstr "a_[b-c]_" ++ [0] = t ++ [0] := congrArg Prod.snd (Except.ok.inj hok)
    have ht := List.append_cancel_right ht
    subst ht
    exact ⟨junk, hinto⟩

end Kmod
