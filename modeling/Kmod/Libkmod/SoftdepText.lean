import Kmod.Lib.Memory
import Kmod.Lib.Bytes
import Kmod.Libkmod.ConfigWords

/-!
# Printing softdeps

`softdep_to_char` makes a text of a softdep by copying the part of the block that
lies between the first and the last word of a list, and writing spaces for the NULs
in it. The words of the other list that lie in between are copied with it, and no
space is written between the text of the `pre` list and `post: `.

So the text has the lists of the softdep if one of them is empty, and otherwise not:
the last word of the `pre` list swallows the keyword, and everything is a `pre` word
(`softdepToChar_reparse_iff`). The buffer is always large enough.
-/

namespace Kmod

open Kmod.Bytes Kmod.Memory

/-! ## The program -/

/-- `strlen` of the string a pointer points to. -/
def strlenAt (mem : List UInt8) (p : Nat) : Except Fault Nat :=
  inBlock ((takeCstr (mem.drop p)).map (fun r => r.1.length))

/-- From the first word of a list to the end of the last one. -/
def listSize (text : List UInt8) (list : List Nat) : Except Fault Nat :=
  match list.head?, list.getLast? with
  | some start, some last => do
    let n ← strlenAt text last
    .ok (last + n - start)
  | _, _ => .ok 0

/-- Writes the words of a list behind its keyword, unless there are none; `itr` is moved. -/
def printList (text : List UInt8) (key : CStr) (list : List Nat) (sz : Nat) (s : List UInt8)
    (itr : Nat) : Except Fault (List UInt8 × Nat) :=
  if sz = 0 then .ok (s, itr)
  else do
    let s ← inBlock (putRange s itr key)
    let itr := itr + key.length
    let start ← inBlock list.head?
    -- include last '\0'
    let words ← inBlock (getRange text start (sz + 1))
    let s ← inBlock (putRange s itr words)
    let s ← inBlock (mapRange (fun c => if c = 0 then 32 else c) s itr sz)
    .ok (s, itr + sz)

/--
`softdep_to_char`: the buffer it returns, unless it cannot
be allocated; `junk` is what is in it at first.
-/
def softdepToChar (junk : Nat → UInt8) (dep : SoftdepBlock) :
    Except Fault (Option (List UInt8)) := do
  let szPre ← listSize dep.text dep.pre
  let szPost ← listSize dep.text dep.post
  let sz := (1 + (if dep.pre = [] then 0 else szPre + (cstr "pre: ").length) +
    (if dep.post = [] then 0 else szPost + (cstr "post: ").length)) % (SIZE_MAX + 1)
  if sz > PTRDIFF_MAX then .ok none
  else do
    let s := (List.range sz).map junk
    let (s, itr) ← printList dep.text (cstr "pre: ") dep.pre szPre s 0
    let (s, itr) ← printList dep.text (cstr "post: ") dep.post szPost s itr
    let s ← inBlock (putRange s itr [0])
    .ok (some s)

/-! ## The words of a stored softdep -/

/-- All words scanned, except perhaps the first, are words. -/
theorem isWord_of_scanned (line : CStr) :
    ∀ (tok : CStr) (wasSpace : Bool),
      (∀ w ∈ (scanWords line tok wasSpace).tail, IsWord w) ∧
        ((wasSpace = true ∧ tok = []) ∨ (wasSpace = false ∧ IsWord tok) →
          ∀ w ∈ scanWords line tok wasSpace, IsWord w) := by
  induction line with
  | nil =>
    intro tok wasSpace
    unfold scanWords
    cases wasSpace with
    | true => simp
    | false => simp
  | cons c line ih =>
    intro tok wasSpace
    have hgood := (ih [] true).2 (.inl ⟨rfl, rfl⟩)
    unfold scanWords
    split
    · next hc =>
      have hc : isspace c = false := by simpa using hc
      refine ⟨(ih _ _).1, fun h => (ih _ _).2 (.inr ⟨rfl, by simp, ?_⟩)⟩
      intro d hd
      rcases List.mem_append.mp hd with hd | hd
      · rcases h with ⟨_, rfl⟩ | ⟨_, htok⟩
        · exact absurd hd (by simp)
        · exact htok.2 d hd
      · rw [List.mem_singleton.mp hd]
        exact hc
    · split
      · exact ⟨fun w hw => hgood w (List.mem_of_mem_tail hw), fun _ => hgood⟩
      · next hspace =>
        split
        · next htok =>
          refine ⟨(ih _ _).1, fun h => ?_⟩
          rcases h with ⟨hw, _⟩ | ⟨_, hw⟩
          · exact absurd hw hspace
          · exact absurd htok hw.1
        · refine ⟨hgood, fun h w hw => ?_⟩
          rcases List.mem_cons.mp hw with rfl | hw
          · rcases h with ⟨hw, _⟩ | ⟨_, hw⟩
            · exact absurd hw hspace
            · exact hw
          · exact hgood w hw

/-- A word that can be stored: it has a list, and it is a word but no keyword. -/
structure Storable (e : SoftdepMode × CStr) : Prop where
  listed : e.1 ≠ .none
  isWord : IsWord e.2
  plain : isKeyword e.2 = false

theorem storable_of_stored {ws : List CStr} (hws : ∀ w ∈ ws, IsWord w) :
    ∀ mode, ∀ e ∈ stored mode ws, Storable e := by
  induction ws with
  | nil => intro mode e he; exact absurd he (by simp [stored])
  | cons w ws ih =>
    intro mode e he
    rw [stored, List.mem_append] at he
    rcases he with he | he
    · split at he
      · exact absurd he (by simp)
      · next hmode =>
        rw [List.mem_singleton] at he
        rw [Bool.or_eq_true, not_or] at hmode
        rw [he]
        exact ⟨by simpa using hmode.2, hws w (List.mem_cons_self ..), by simpa using hmode.1⟩
    · exact ih (fun w hw => hws w (List.mem_cons_of_mem _ hw)) _ e he

/-- **What a softdep stores** are words; the first word of a text is never stored. -/
theorem storable_of_line (line : CStr) : ∀ e ∈ softdepWords line, Storable e := by
  have htail := (isWord_of_scanned line [] false).1
  unfold softdepWords
  cases hws : scanWords line [] false with
  | nil => intro e he; exact absurd he (by simp [stored])
  | cons w ws =>
    rw [hws] at htail
    intro e he
    rw [stored, List.mem_append] at he
    rcases he with he | he
    · exact absurd he (by simp)
    · exact storable_of_stored htail _ e he

/-! ## The part of the block that is copied -/

/-- The words of a list lie between its first and its last one. -/
structure Span (tag : SoftdepMode) (st before inner : List (SoftdepMode × CStr))
    (last : SoftdepMode × CStr) (after : List (SoftdepMode × CStr)) : Prop where
  eq : st = before ++ ((inner ++ [last]) ++ after)
  first_tag : (inner ++ [last]).head?.map Prod.fst = some tag
  last_tag : last.1 = tag
  before_nil : wordsIn tag before = []
  after_nil : wordsIn tag after = []

theorem exists_span {tag : SoftdepMode} {st : List (SoftdepMode × CStr)} (h : wordsIn tag st ≠ []) :
    ∃ before inner last after, Span tag st before inner last after := by
  induction st with
  | nil => exact absurd rfl h
  | cons e st ih =>
    by_cases hrest : wordsIn tag st = []
    · have he : e.1 = tag := by
        by_contra hne
        rw [wordsIn_cons, if_neg hne, hrest] at h
        exact h rfl
      exact ⟨[], [], e, st, rfl, congrArg some he, he, rfl, hrest⟩
    · obtain ⟨before, inner, last, after, hspan⟩ := ih hrest
      by_cases he : e.1 = tag
      · refine ⟨[], e :: (before ++ inner), last, after, ?_, congrArg some he, hspan.last_tag, rfl,
          hspan.after_nil⟩
        rw [hspan.eq]
        simp
      · refine ⟨e :: before, inner, last, after, ?_, hspan.first_tag, hspan.last_tag, ?_,
          hspan.after_nil⟩
        · rw [hspan.eq]
          rfl
        · rw [wordsIn_cons, if_neg he, hspan.before_nil]
          rfl

/-- What is written for a part of the block. -/
def spanText (inner : List (SoftdepMode × CStr)) (last : SoftdepMode × CStr) : CStr :=
  inner.flatMap (fun e => e.2 ++ [32]) ++ last.2

/-- The NULs between the words become spaces. -/
theorem spanText_eq {inner : List (SoftdepMode × CStr)} {last : SoftdepMode × CStr}
    (hinner : ∀ e ∈ inner, 0 ∉ e.2) (hlast : 0 ∉ last.2) :
    (packed inner ++ last.2).map (fun c => if c = 0 then 32 else c) = spanText inner last := by
  have hword : ∀ {w : CStr}, 0 ∉ w → w.map (fun c => if c = 0 then 32 else c) = w := by
    intro w hw
    refine (List.map_congr_left (g := id) (fun c hc => ?_)).trans (List.map_id w)
    have hne : c ≠ 0 := fun h0 => hw (h0 ▸ hc)
    exact if_neg hne
  unfold spanText packed
  rw [List.map_append, hword hlast, List.map_flatMap]
  congr 1
  refine List.flatMap_congr (fun e he => ?_)
  rw [List.map_append, hword (hinner e he)]
  rfl

section Print

variable {tag : SoftdepMode} {st before inner after : List (SoftdepMode × CStr)}
  {last : SoftdepMode × CStr} (hspan : Span tag st before inner last after)
include hspan

theorem pointers_span (off : Nat) :
    (pointers tag off st).head? = some (off + (packed before).length) ∧
      (pointers tag off st).getLast?
        = some (off + (packed before).length + (packed inner).length) := by
  have hnone : ∀ off {l : List (SoftdepMode × CStr)}, wordsIn tag l = [] →
      pointers tag off l = [] := by
    intro off l hl
    rw [← List.length_eq_zero_iff, length_pointers, hl]
    rfl
  rw [hspan.eq, pointers_append, pointers_append, hnone _ hspan.before_nil, hnone _ hspan.after_nil,
    List.nil_append, List.append_nil]
  refine ⟨?_, ?_⟩
  · cases hin : inner ++ [last] with
    | nil => exact absurd hin (by simp)
    | cons e rest =>
      have htag := hspan.first_tag
      rw [hin] at htag
      have htag : e.1 = tag := Option.some.inj htag
      rw [pointers, if_pos htag]
      rfl
  · rw [pointers_append, pointers, if_pos hspan.last_tag]
    simp [pointers]

variable {a : List UInt8} (hst : ∀ e ∈ st, 0 ∉ e.2)
include hst

theorem nul_of_span : (∀ e ∈ inner, 0 ∉ e.2) ∧ 0 ∉ last.2 := by
  refine ⟨fun e he => hst e ?_, hst last ?_⟩
  · rw [hspan.eq]
    simp [he]
  · rw [hspan.eq]
    simp

theorem listSize_span :
    listSize (a ++ packed st) (pointers tag a.length st)
      = .ok ((packed inner).length + last.2.length) := by
  obtain ⟨hhead, hlast⟩ := pointers_span hspan a.length
  have hdrop : (a ++ packed st).drop (a.length + (packed before).length + (packed inner).length)
      = last.2 ++ 0 :: packed after := by
    rw [hspan.eq]
    simp only [packed_append, packed_cons, packed_nil, List.append_nil, ← List.append_assoc]
    rw [← List.length_append, ← List.length_append]
    simp
  unfold listSize strlenAt
  rw [hhead, hlast]
  simp only
  rw [hdrop, takeCstr_append (nul_of_span hspan hst).2]
  show Except.ok (a.length + (packed before).length + (packed inner).length + last.2.length -
    (a.length + (packed before).length)) = _
  congr 1
  omega

/-- **A list is written** behind what is in the buffer, if there is room for a NUL more. -/
theorem printList_span (hne : last.2 ≠ []) (w : List UInt8) {r : List UInt8} (key : CStr)
    (hroom : key.length + ((packed inner).length + last.2.length) + 1 ≤ r.length) :
    ∃ r', r'.length + (key.length + ((packed inner).length + last.2.length)) = r.length ∧
      printList (a ++ packed st) key (pointers tag a.length st)
          ((packed inner).length + last.2.length) (w ++ r) w.length
        = .ok (w ++ (key ++ spanText inner last) ++ r',
            (w ++ (key ++ spanText inner last)).length) := by
  obtain ⟨hinner, hlast⟩ := nul_of_span hspan hst
  have hpos : 0 < last.2.length := List.length_pos_iff.mpr hne
  have hlen : (spanText inner last).length = (packed inner).length + last.2.length := by
    rw [← spanText_eq hinner hlast, List.length_map, List.length_append]
  have hkey := putRange_append w r key (by omega)
  have hget : getRange (a ++ packed st) (a.length + (packed before).length)
      ((packed inner).length + last.2.length + 1) = some (packed inner ++ last.2 ++ [0]) := by
    have := getRange_append (a ++ packed before) (packed inner ++ last.2 ++ [0]) (packed after)
    rw [hspan.eq]
    simpa [Nat.add_assoc] using this
  generalize hrest : (r.drop key.length).drop (packed inner ++ last.2 ++ [0]).length = rest
  have hwords : putRange (w ++ (key ++ r.drop key.length)) (w.length + key.length)
      (packed inner ++ last.2 ++ [0]) = some (w ++ key ++ (packed inner ++ last.2 ++ ([0] ++ rest))) := by
    have := putRange_append (w ++ key) (r.drop key.length) (packed inner ++ last.2 ++ [0])
      (by simp; omega)
    rw [hrest] at this
    simpa using this
  have hblank := mapRange_append (fun c => if c = (0 : UInt8) then 32 else c)
    (packed inner ++ last.2) (w ++ key) ([0] ++ rest)
  rw [spanText_eq hinner hlast, List.length_append, List.length_append] at hblank
  refine ⟨[0] ++ rest, ?_, ?_⟩
  · rw [← hrest]
    simp only [List.length_append, List.length_drop, List.length_singleton]
    omega
  · unfold printList
    rw [if_neg (by omega), (pointers_span hspan a.length).1, hkey]
    simp only [inBlock_some, ok_bind, hget, hwords, hblank]
    simp [hlen, Nat.add_assoc]

end Print

/-- The text of a list: nothing, or the keyword and the part of the block with its words. -/
inductive Printed (tag : SoftdepMode) (key : CStr) (st : List (SoftdepMode × CStr)) :
    CStr → Prop where
  | none : wordsIn tag st = [] → Printed tag key st []
  | some {before inner after : List (SoftdepMode × CStr)} {last : SoftdepMode × CStr} :
      Span tag st before inner last after → Printed tag key st (key ++ spanText inner last)

theorem exists_printed (tag : SoftdepMode) (key : CStr) (st : List (SoftdepMode × CStr)) :
    ∃ t, Printed tag key st t := by
  by_cases h : wordsIn tag st = []
  · exact ⟨_, .none h⟩
  · obtain ⟨_, _, _, _, hspan⟩ := exists_span h
    exact ⟨_, .some hspan⟩

theorem tag_of_wordsIn_nil {tag : SoftdepMode} {st : List (SoftdepMode × CStr)}
    (h : wordsIn tag st = []) : ∀ e ∈ st, e.1 ≠ tag := by
  intro e he htag
  have hmem : e ∈ st.filter (fun e => e.1 = tag) := List.mem_filter.mpr ⟨he, by simp [htag]⟩
  rw [List.map_eq_nil_iff.mp h] at hmem
  exact absurd hmem (by simp)

theorem printed_nil {tag : SoftdepMode} {key : CStr} {st : List (SoftdepMode × CStr)} {t : CStr}
    (h : wordsIn tag st = []) (hprinted : Printed tag key st t) : t = [] := by
  cases hprinted with
  | none _ => rfl
  | @some before inner after last hspan =>
    have hlast : last ∈ st := by rw [hspan.eq]; simp
    exact absurd hspan.last_tag (tag_of_wordsIn_nil h last hlast)

section Printed

variable {tag : SoftdepMode} {key : CStr} {st : List (SoftdepMode × CStr)} {t : CStr}
  (hprinted : Printed tag key st t) (hst : ∀ e ∈ st, 0 ∉ e.2 ∧ e.2 ≠ []) (a : List UInt8)
include hprinted hst

/-- What is written has the size that was computed for it, and is written behind the rest. -/
theorem printList_printed :
    ∃ sz, listSize (a ++ packed st) (pointers tag a.length st) = .ok sz ∧
      (if pointers tag a.length st = [] then 0 else sz + key.length) = t.length ∧
      ∀ w r : List UInt8, t.length + 1 ≤ r.length → ∃ r', r'.length + t.length = r.length ∧
        printList (a ++ packed st) key (pointers tag a.length st) sz (w ++ r) w.length
          = .ok (w ++ t ++ r', (w ++ t).length) := by
  cases hprinted with
  | none hnil =>
    have hptrs : pointers tag a.length st = [] := by
      rw [← List.length_eq_zero_iff, length_pointers, hnil]
      rfl
    rw [hptrs]
    refine ⟨0, rfl, rfl, fun w r _ => ⟨r, rfl, ?_⟩⟩
    rw [List.append_nil]
    rfl
  | @some before inner after last hspan =>
    have hnul : ∀ e ∈ st, 0 ∉ e.2 := fun e he => (hst e he).1
    have hlast : last ∈ st := by rw [hspan.eq]; simp
    have hlen : (spanText inner last).length = (packed inner).length + last.2.length := by
      rw [← spanText_eq (nul_of_span hspan hnul).1 (nul_of_span hspan hnul).2, List.length_map,
        List.length_append]
    have hptrs : pointers tag a.length st ≠ [] := by
      intro h
      have := (pointers_span hspan a.length).1
      rw [h] at this
      exact absurd this (by simp)
    refine ⟨_, listSize_span hspan hnul, ?_, fun w r hr => ?_⟩
    · rw [if_neg hptrs, List.length_append, hlen]
      omega
    · rw [List.length_append, hlen] at hr ⊢
      exact printList_span hspan hnul (hst last hlast).2 w key hr

theorem length_printed_le : t.length ≤ key.length + (packed st).length := by
  cases hprinted with
  | none _ => exact Nat.zero_le _
  | @some before inner after last hspan =>
    have hnul := nul_of_span hspan (fun e he => (hst e he).1)
    have hlen : (spanText inner last).length = (packed inner).length + last.2.length := by
      rw [← spanText_eq hnul.1 hnul.2, List.length_map, List.length_append]
    rw [List.length_append, hlen, hspan.eq]
    simp only [packed_append, packed_cons, List.length_append]
    omega

theorem nul_of_printed (hkey : 0 ∉ key) : 0 ∉ t := by
  cases hprinted with
  | none _ => simp
  | @some before inner after last hspan =>
    have hnul := nul_of_span hspan (fun e he => (hst e he).1)
    rw [← spanText_eq hnul.1 hnul.2]
    intro h
    rcases List.mem_append.mp h with h | h
    · exact hkey h
    · obtain ⟨c, _, hc⟩ := List.mem_map.mp h
      split at hc
      · exact absurd hc (by decide)
      · next hne => exact hne hc

end Printed

/-- **The text of a softdep**: the buffer has room for it, and nothing is read outside the block. -/
theorem softdepToChar_printed (junk : Nat → UInt8) {modname : CStr} {st : List (SoftdepMode × CStr)}
    {pre post : CStr} (hst : ∀ e ∈ st, 0 ∉ e.2 ∧ e.2 ≠ [])
    (hsize : softdepSize modname st ≤ PTRDIFF_MAX)
    (hpre : Printed .pre (cstr "pre: ") st pre) (hpost : Printed .post (cstr "post: ") st post) :
    softdepToChar junk (blockOf modname st)
      = .ok (if 1 + pre.length + post.length > PTRDIFF_MAX then none
          else some (pre ++ post ++ [0])) := by
  have hlen : modname.length + 1 = (modname ++ [0]).length := by simp
  obtain ⟨szPre, hszPre, hlenPre, hprintPre⟩ := printList_printed hpre hst (modname ++ [0])
  obtain ⟨szPost, hszPost, hlenPost, hprintPost⟩ := printList_printed hpost hst (modname ++ [0])
  have hmod : (1 + pre.length + post.length) % (SIZE_MAX + 1) = 1 + pre.length + post.length := by
    have h1 := length_printed_le hpre hst
    have h2 := length_printed_le hpost hst
    have h3 : (cstr "pre: ").length = 5 := rfl
    have h4 : (cstr "post: ").length = 6 := rfl
    refine Nat.mod_eq_of_lt ?_
    unfold softdepSize SIZEOF_SOFTDEP PTRDIFF_MAX at hsize
    unfold SIZE_MAX
    omega
  unfold softdepToChar blockOf
  simp only [hlen]
  rw [hszPre, ok_bind, hszPost, ok_bind, hlenPre, hlenPost, hmod]
  by_cases hbig : 1 + pre.length + post.length > PTRDIFF_MAX
  · rw [if_pos hbig, if_pos hbig]
  · rw [if_neg hbig, if_neg hbig]
    obtain ⟨r, hr, hfirst⟩ := hprintPre [] ((List.range (1 + pre.length + post.length)).map junk)
      (by simp; omega)
    obtain ⟨r', hr', hsecond⟩ := hprintPost pre r (by simp at hr; omega)
    rw [List.nil_append, List.length_nil] at hfirst
    have hone : r'.length = 1 := by
      simp at hr
      omega
    have hend : putRange (pre ++ post ++ r') (pre ++ post).length [0] =
        some (pre ++ post ++ [0]) := by
      obtain ⟨x, rfl⟩ := List.length_eq_one_iff.mp hone
      exact (putRange_append _ [x] [0] (Nat.le_refl _)).trans (by simp)
    simp only [List.nil_append] at hfirst
    simp only [hfirst, ok_bind, hsecond, hend, inBlock_some]

/-! ## Reading the text again -/

theorem nul_of_scanWords {line : CStr} (hline : 0 ∉ line) :
    ∀ {tok : CStr} {wasSpace : Bool}, 0 ∉ tok → ∀ w ∈ scanWords line tok wasSpace, 0 ∉ w := by
  induction line with
  | nil =>
    intro tok wasSpace htok w hw
    unfold scanWords at hw
    split at hw
    · exact absurd hw (by simp)
    · rw [List.mem_singleton.mp hw]
      exact htok
  | cons c line ih =>
    intro tok wasSpace htok
    rw [List.mem_cons, not_or] at hline
    have hnil : (0 : UInt8) ∉ ([] : CStr) := by simp
    unfold scanWords
    split
    · exact ih hline.2 (by simp [htok, hline.1])
    · split
      · exact ih hline.2 hnil
      · split
        · exact ih hline.2 (by simpa using hline.1)
        · intro w hw
          rcases List.mem_cons.mp hw with rfl | hw
          · exact htok
          · exact ih hline.2 hnil w hw

theorem nul_of_softdepWords {line : CStr} (hline : 0 ∉ line) :
    ∀ e ∈ softdepWords line, 0 ∉ e.2 := by
  have hnil : (0 : UInt8) ∉ ([] : CStr) := by simp
  exact nul_of_stored (nul_of_scanWords hline hnil) .none

/-- What is stored when a softdep is accepted. -/
theorem stored_of_accepted {config result : KmodConfig} {modname line : CStr}
    (h : kmodConfigAddSoftdep config modname line = .ok (0, result)) :
    SoftdepFits modname (softdepWords line) ∧ result = { config with
      softdeps := config.softdeps ++ [blockOf modname (softdepWords line)] } := by
  by_cases hfits : SoftdepFits modname (softdepWords line)
  · rw [kmodConfigAddSoftdep_fits config hfits] at h
    exact ⟨hfits, (Prod.mk.inj (Except.ok.inj h)).2.symm⟩
  · obtain ⟨err, herr, hrefused⟩ := kmodConfigAddSoftdep_refuses config hfits
    rw [hrefused] at h
    have := (Prod.mk.inj (Except.ok.inj h)).1
    omega

/-- Words with one space behind each of them. -/
def items (ws : List CStr) : List (CStr × CStr) := ws.map (fun w => (w, [32]))

/-- A text that ends in a word, behind words with one space each. -/
theorem scanWords_items {ws : List CStr} {w : CStr} (hws : ∀ v ∈ ws, IsWord v) (hw : IsWord w) :
    scanWords (textOf (items ws) ++ w) [] false = ws ++ [w] := by
  have hspaced : ∀ {ws : List CStr}, (∀ v ∈ ws, IsWord v) → WellSpaced (items ws ++ [(w, [])]) := by
    intro ws hws
    induction ws with
    | nil => exact ⟨hw, by simp, by simp, trivial⟩
    | cons v ws ih =>
      exact ⟨hws v (List.mem_cons_self ..), by decide, by simp,
        ih (fun v hv => hws v (List.mem_cons_of_mem _ hv))⟩
  have htext : textOf (items ws) ++ w = textOf (items ws ++ [(w, [])]) := by
    simp [textOf]
  have hwords : wordsOf (items ws ++ [(w, [])]) = ws ++ [w] := by
    simp [wordsOf, items, Function.comp_def]
  have hall := hspaced hws
  rw [htext, ← hwords]
  cases hitems : items ws ++ [(w, [])] with
  | nil => exact absurd hitems (by simp)
  | cons item rest =>
    rw [hitems] at hall
    exact scanWords_textOf [] false hall

theorem textOf_items (inner : List (SoftdepMode × CStr)) :
    textOf (items (inner.map Prod.snd)) = inner.flatMap (fun e => e.2 ++ [32]) := by
  simp [textOf, items, List.flatMap_map]

/-- Plain words behind a keyword all go into its list. -/
theorem stored_plain {ws : List CStr} (hws : ∀ w ∈ ws, isKeyword w = false) {mode : SoftdepMode}
    (hmode : mode ≠ .none) : stored mode ws = ws.map (fun w => (mode, w)) := by
  induction ws with
  | nil => rfl
  | cons w ws ih =>
    rw [stored_word (hws w (List.mem_cons_self ..)) hmode,
      ih (fun w hw => hws w (List.mem_cons_of_mem _ hw))]
    rfl

/-- A keyword glued to a word is no keyword. -/
theorem not_keyword_glued {w : CStr} (hw : w ≠ []) : isKeyword (w ++ cstr "post:") = false := by
  have hpos : 0 < w.length := List.length_pos_iff.mpr hw
  have h5 : (cstr "post:").length = 5 := rfl
  have h4 : (cstr "pre:").length = 4 := rfl
  rw [← Bool.not_eq_true, isKeyword_iff]
  rintro (h | h)
  · have := congrArg List.length h
    rw [List.length_append] at this
    omega
  · have := congrArg List.length h
    rw [List.length_append] at this
    omega

theorem isWord_append {v w : CStr} (hv : IsWord v) (hw : IsWord w) : IsWord (v ++ w) := by
  refine ⟨by simp [hv.1], fun c hc => ?_⟩
  rcases List.mem_append.mp hc with hc | hc
  · exact hv.2 c hc
  · exact hw.2 c hc

theorem wordsIn_other {tag tag' : SoftdepMode} (hne : tag ≠ tag') (ws : List CStr) :
    wordsIn tag' (ws.map (fun w => (tag, w))) = [] := by
  induction ws with
  | nil => rfl
  | cons w ws ih => rw [List.map_cons, wordsIn_cons, if_neg hne, ih]; rfl

/-- The words behind a keyword in front of a text. -/
theorem softdepWords_items (tag : SoftdepMode) {kw : CStr} (hkw : tag.keyword = some kw)
    {ws : List CStr} {w : CStr} (hws : ∀ v ∈ ws ++ [w], IsWord v ∧ isKeyword v = false) :
    softdepWords (textOf (items (kw :: ws)) ++ w) = (ws ++ [w]).map (fun v => (tag, v)) := by
  have hkeyword : IsWord kw ∧ isKeyword kw = true ∧ SoftdepMode.none.next kw = tag := by
    cases tag with
    | none => exact absurd hkw (by simp [SoftdepMode.keyword])
    | pre =>
      obtain rfl := Option.some.inj hkw
      exact ⟨⟨by decide, by decide⟩, by decide, by decide⟩
    | post =>
      obtain rfl := Option.some.inj hkw
      exact ⟨⟨by decide, by decide⟩, by decide, by decide⟩
  obtain ⟨hword, hkey, hnext⟩ := hkeyword
  have hwords : ∀ v ∈ kw :: ws, IsWord v := by
    intro v hv
    rcases List.mem_cons.mp hv with rfl | hv
    · exact hword
    · exact (hws v (List.mem_append_left _ hv)).1
  have hmode : tag ≠ .none := hnext ▸ (next_of_keyword hkey .none).2
  unfold softdepWords
  rw [scanWords_items hwords (hws w (by simp)).1, List.cons_append, stored_keyword hkey, hnext,
    stored_plain (fun v hv => (hws v hv).2) hmode]

section Reparse

variable {st : List (SoftdepMode × CStr)} (hst : ∀ e ∈ st, Storable e)
include hst

theorem plain_of_span {tag : SoftdepMode} {before inner after : List (SoftdepMode × CStr)}
    {last : SoftdepMode × CStr} (hspan : Span tag st before inner last after) :
    ∀ v ∈ inner.map Prod.snd ++ [last.2], IsWord v ∧ isKeyword v = false := by
  have hmem : ∀ e ∈ inner ++ [last], e ∈ st := by
    intro e he
    rw [hspan.eq]
    exact List.mem_append_right _ (List.mem_append_left _ he)
  intro v hv
  rw [← List.map_singleton (f := Prod.snd) (a := last), ← List.map_append] at hv
  obtain ⟨e, he, rfl⟩ := List.mem_map.mp hv
  exact ⟨(hst e (hmem e he)).isWord, (hst e (hmem e he)).plain⟩

/-- If all words are in one list, the text has them again. -/
theorem softdepWords_single {tag : SoftdepMode} {kw t : CStr} (hkw : tag.keyword = some kw)
    (hall : ∀ e ∈ st, e.1 = tag) (hprinted : Printed tag (kw ++ [32]) st t) :
      softdepWords t = st := by
  have hnone : ∀ {l : List (SoftdepMode × CStr)}, l ⊆ st → wordsIn tag l = [] → l = [] := by
    intro l hl hnil
    cases l with
    | nil => rfl
    | cons e l =>
      rw [wordsIn_cons, if_pos (hall e (hl (List.mem_cons_self ..)))] at hnil
      exact absurd hnil (by simp)
  cases hprinted with
  | none hnil =>
    rw [hnone (List.Subset.refl _) hnil]
    rfl
  | @some before inner after last hspan =>
    have hbefore : before = [] := hnone (fun e he => by rw [hspan.eq]; simp [he]) hspan.before_nil
    have hafter : after = [] := hnone (fun e he => by rw [hspan.eq]; simp [he]) hspan.after_nil
    have heq : st = inner ++ [last] := by simpa [hbefore, hafter] using hspan.eq
    have htext : kw ++ [32] ++ spanText inner last
        = textOf (items (kw :: inner.map Prod.snd)) ++ last.2 := by
      rw [spanText, ← textOf_items]
      simp [textOf, items]
    rw [htext, softdepWords_items tag hkw (plain_of_span hst hspan), heq]
    have htag : ∀ e ∈ inner ++ [last], (tag, e.2) = e := by
      intro e he
      rw [← hall e (heq ▸ he)]
    rw [← List.map_singleton (f := Prod.snd) (a := last), ← List.map_append, List.map_map]
    exact (List.map_congr_left htag).trans (List.map_id _)

/-- If there are words in both lists, there are no `post` words in the text. -/
theorem softdepWords_both {pre post : CStr} (hpre : wordsIn .pre st ≠ [])
    (hpost : wordsIn .post st ≠ [])
    (htpre : Printed .pre (cstr "pre: ") st pre) (htpost : Printed .post (cstr "post: ") st post) :
    wordsIn .post (softdepWords (pre ++ post)) = [] := by
  cases htpre with
  | none hnil => exact absurd hnil hpre
  | @some before inner after last hspan =>
    cases htpost with
    | none hnil => exact absurd hnil hpost
    | @some before' inner' after' last' hspan' =>
      have h1 := plain_of_span hst hspan
      have h2 := plain_of_span hst hspan'
      have hlast := (h1 last.2 (by simp)).1
      have htext : cstr "pre: " ++ spanText inner last ++ (cstr "post: " ++ spanText inner' last')
          = textOf (items (cstr "pre:" :: (inner.map Prod.snd ++
              [last.2 ++ cstr "post:"] ++ inner'.map Prod.snd))) ++ last'.2 := by
        rw [spanText, spanText, ← textOf_items, ← textOf_items]
        simp [textOf, items, cstr]
      rw [htext, softdepWords_items .pre rfl]
      · exact wordsIn_other (by decide) _
      · intro v hv
        rw [List.append_assoc, List.mem_append, List.mem_append] at hv
        rcases hv with (hv | hv) | hv
        · exact h1 v (List.mem_append_left _ hv)
        · rw [List.mem_singleton.mp hv]
          exact ⟨isWord_append hlast ⟨by decide, by decide⟩, not_keyword_glued hlast.1⟩
        · exact h2 v hv

/-- The text has the words of the softdep if one of its lists is empty. -/
theorem softdepWords_printed {pre post : CStr} (htpre : Printed .pre (cstr "pre: ") st pre)
    (htpost : Printed .post (cstr "post: ") st post)
    (h : wordsIn .pre st = [] ∨ wordsIn .post st = []) :
    softdepWords (pre ++ post) = st := by
  rcases h with h | h
  · have hall : ∀ e ∈ st, e.1 = .post := by
      intro e he
      have hlisted := (hst e he).listed
      have hne := tag_of_wordsIn_nil h e he
      cases htag : e.1 with
      | none => exact absurd htag hlisted
      | pre => exact absurd htag hne
      | post => rfl
    rw [printed_nil h htpre]
    have hprinted : Printed .post (cstr "post:" ++ [32]) st post := htpost
    exact softdepWords_single hst rfl hall hprinted
  · have hall : ∀ e ∈ st, e.1 = .pre := by
      intro e he
      have hlisted := (hst e he).listed
      have hne := tag_of_wordsIn_nil h e he
      cases htag : e.1 with
      | none => exact absurd htag hlisted
      | pre => rfl
      | post => exact absurd htag hne
    rw [printed_nil h htpost, List.append_nil]
    have hprinted : Printed .pre (cstr "pre:" ++ [32]) st pre := htpre
    exact softdepWords_single hst rfl hall hprinted

end Reparse

/--
**A softdep printed and read again.** Whatever line a softdep was stored from, printing
it stays inside the block and the buffer, and the text that is printed gives an entry
with the same lists exactly if one of the lists is empty.
-/
theorem softdepToChar_reparse_iff (junk : Nat → UInt8) (config config' : KmodConfig)
    {modname line : CStr} (hname : 0 ∉ modname) (hline : 0 ∉ line) {result : KmodConfig}
    (hstored : kmodConfigAddSoftdep config modname line = .ok (0, result)) :
    ∃ dep, result = { config with softdeps := config.softdeps ++ [dep] } ∧
      ∃ out, softdepToChar junk dep = .ok out ∧
        ((∃ buf dep', out = some buf ∧
            kmodConfigAddSoftdep config' modname (cstrAt buf 0)
              = .ok (0, { config' with softdeps := config'.softdeps ++ [dep'] }) ∧
            dep'.softdep.pre = dep.softdep.pre ∧ dep'.softdep.post = dep.softdep.post) ↔
          dep.softdep.pre = [] ∨ dep.softdep.post = []) := by
  obtain ⟨hfits, rfl⟩ := stored_of_accepted hstored
  have hst := storable_of_line line
  have hnul := nul_of_softdepWords hline
  generalize softdepWords line = st at *
  obtain ⟨pre, htpre⟩ := exists_printed .pre (cstr "pre: ") st
  obtain ⟨post, htpost⟩ := exists_printed .post (cstr "post: ") st
  have hwords : ∀ e ∈ st, 0 ∉ e.2 ∧ e.2 ≠ [] := fun e he => ⟨hnul e he, (hst e he).isWord.1⟩
  have htext : 0 ∉ pre ++ post := by
    rw [List.mem_append, not_or]
    exact ⟨nul_of_printed htpre hwords (by decide), nul_of_printed htpost hwords (by decide)⟩
  have hread : cstrAt (pre ++ post ++ [0]) 0 = pre ++ post := by
    have := cstrAt_append [] [] htext
    simpa using this
  refine ⟨_, rfl, _, softdepToChar_printed junk hwords hfits.2 htpre htpost, ?_⟩
  rw [blockOf_softdep hname hnul]
  refine ⟨?_, ?_⟩
  · rintro ⟨buf, dep', hout, hagain, -, hpost⟩
    by_contra hboth
    rw [not_or] at hboth
    have hbuf : buf = pre ++ post ++ [0] := by
      split at hout
      · exact absurd hout (by simp)
      · exact (Option.some.inj hout).symm
    rw [hbuf, hread] at hagain
    have hsame : dep' = blockOf modname (softdepWords (pre ++ post)) := by
      have := congrArg KmodConfig.softdeps (stored_of_accepted hagain).2
      simpa using this
    rw [hsame, blockOf_softdep hname (nul_of_softdepWords htext)] at hpost
    exact hboth.2 (hpost.symm.trans (softdepWords_both hst hboth.1 hboth.2 htpre htpost))
  · intro hempty
    have hsmall : ¬ 1 + pre.length + post.length > PTRDIFF_MAX := by
      have h1 := length_printed_le htpre hwords
      have h2 := length_printed_le htpost hwords
      have h3 : (cstr "pre: ").length = 5 := rfl
      have h4 : (cstr "post: ").length = 6 := rfl
      have hsize := hfits.2
      unfold softdepSize SIZEOF_SOFTDEP at hsize
      rcases hempty with h | h
      · rw [printed_nil h htpre, List.length_nil]
        omega
      · rw [printed_nil h htpost, List.length_nil]
        omega
    have hsame := softdepWords_printed hst htpre htpost hempty
    refine ⟨pre ++ post ++ [0], blockOf modname st, if_neg hsmall, ?_, ?_⟩
    · rw [hread]
      have := kmodConfigAddSoftdep_fits config' (hsame.symm ▸ hfits)
      rw [hsame] at this
      exact this
    · rw [blockOf_softdep hname hnul]
      exact ⟨rfl, rfl⟩

/-- Two words behind `post:` come back. -/
theorem softdepToChar_reparse_post :
    ∃ dep out buf dep',
      kmodConfigAddSoftdep emptyConfig (cstr "m") (cstr "post: b  c")
        = .ok (0, { emptyConfig with softdeps := [dep] }) ∧
      softdepToChar (fun _ => 7) dep = .ok out ∧ out = some buf ∧
      kmodConfigAddSoftdep emptyConfig (cstr "m") (cstr "post: b c")
        = .ok (0, { emptyConfig with softdeps := [dep'] }) ∧
      dep'.softdep.pre = dep.softdep.pre ∧ dep'.softdep.post = dep.softdep.post := by
  have hstored : kmodConfigAddSoftdep emptyConfig (cstr "m") (cstr "post: b  c")
      = .ok (0, { emptyConfig with softdeps := [⟨cstr "m" ++ [0] ++ (cstr "b" ++ [0] ++ cstr "c" ++ [0]),
          [], [2, 4]⟩] }) := by
    decide
  obtain ⟨dep, hdep, out, hout, hiff⟩ :=
    softdepToChar_reparse_iff (fun _ => 7) emptyConfig emptyConfig
    (by decide) (by decide) hstored
  obtain rfl : _ = dep := (List.cons.inj (congrArg KmodConfig.softdeps hdep)).1
  obtain ⟨buf, dep', hbuf, hagain, hpre, hpost⟩ := hiff.mpr (.inl rfl)
  have hsome : out = some (cstr "post: b c" ++ [0]) := by
    rw [← Except.ok.inj hout]
    decide
  obtain rfl := Option.some.inj (hbuf.symm.trans hsome)
  exact ⟨_, _, _, dep', hstored, hout, hbuf, hagain, hpre, hpost⟩

/-- With a word in each list, `post:` is glued to a word and both words come back as `pre` words. -/
theorem softdepToChar_reparse_glued :
    ∃ dep dep',
      kmodConfigAddSoftdep emptyConfig (cstr "m") (cstr "pre: a post: b")
        = .ok (0, { emptyConfig with softdeps := [dep] }) ∧
      dep.softdep.pre = [cstr "a"] ∧ dep.softdep.post = [cstr "b"] ∧
      softdepToChar (fun _ => 7) dep = .ok (some (cstr "pre: apost: b" ++ [0])) ∧
      kmodConfigAddSoftdep emptyConfig (cstr "m") (cstrAt (cstr "pre: apost: b" ++ [0]) 0)
        = .ok (0, { emptyConfig with softdeps := [dep'] }) ∧
      dep'.softdep.pre = [cstr "apost:", cstr "b"] ∧ dep'.softdep.post = [] := by
  refine ⟨⟨cstr "m" ++ [0] ++ (cstr "a" ++ [0] ++ cstr "b" ++ [0]), [2], [4]⟩,
    ⟨cstr "m" ++ [0] ++ (cstr "apost:" ++ [0] ++ cstr "b" ++ [0]), [2, 9], []⟩, ?_⟩
  decide

end Kmod
