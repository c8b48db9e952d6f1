import Kmod.Libkmod.Config
import Mathlib.Data.List.TakeWhile

/-!
# How dependency lists are cut into words

The scanner of softdeps and weakdeps hands on the words of a text (`scanWords`),
and it hands on the words between blanks, whatever blanks these are, with one
exception: if the text begins with exactly one blank, this blank becomes a part of
the first word (`scanWords_lead`). `strtok_r` leaves such a text when two blanks
follow the module name.

Both passes see the same words, so the copy fits into the block that was counted
out for it, and the lists of a softdep are those of the words scanned
(`kmodConfigAddSoftdep_fits`). From this it follows for which lines the stored lists
are those of the line (`kmodConfigParseLine_words_iff`).
-/

namespace Kmod

/-! ## The words the scanner hands on -/

/-- The words given to `step` to be counted, from the same states as in `scanLine`. -/
def scanWords : CStr → CStr → Bool → List CStr
  | [], tok, wasSpace => if wasSpace then [] else [tok]
  | c :: line, tok, wasSpace =>
    if !isspace c then scanWords line (tok ++ [c]) false
    else if wasSpace then scanWords line [] true
    else if tok = [] then scanWords line [c] true
    else tok :: scanWords line [] true

/-- After a space there is nothing between `p` and `s` but perhaps this space. -/
def BlankTok (tok : CStr) : Prop := tok = [] ∨ ∃ c, isspace c = true ∧ tok = [c]

theorem scanLine_eq {σ ε : Type} {step : σ → CStr → Bool → Except ε σ}
    (hskip : ∀ st tok, BlankTok tok → step st tok false = .ok st) (line : CStr) :
    ∀ (tok : CStr) (wasSpace : Bool) (st : σ), (wasSpace = true → BlankTok tok) →
      scanLine step line tok wasSpace st
        = (scanWords line tok wasSpace).foldlM (fun st word => step st word true) st := by
  induction line with
  | nil =>
    intro tok wasSpace st hblank
    unfold scanLine scanWords
    cases wasSpace with
    | true => rw [if_pos rfl]; exact hskip st tok (hblank rfl)
    | false =>
      rw [if_neg (by simp), List.foldlM_cons]
      exact (bind_pure _).symm
  | cons c line ih =>
    intro tok wasSpace st hblank
    unfold scanLine scanWords
    split
    · exact ih _ _ _ (by simp)
    · next hspace =>
      have hc : isspace c = true := by simpa using hspace
      split
      · exact ih _ _ _ (fun _ => .inl rfl)
      · split
        · exact ih _ _ _ (fun _ => .inr ⟨c, hc, rfl⟩)
        · rw [List.foldlM_cons]
          exact bind_congr (fun st => ih _ _ _ (fun _ => .inl rfl))

/-- A word: not empty, and without spaces. -/
def IsWord (w : CStr) : Prop := w ≠ [] ∧ ∀ c ∈ w, isspace c = false

/-- Words, each with the spaces behind it; only the last one may have none. -/
def WellSpaced : List (CStr × CStr) → Prop
  | [] => True
  | (w, gap) :: items =>
    IsWord w ∧ (∀ c ∈ gap, isspace c = true) ∧ (items ≠ [] → gap ≠ []) ∧ WellSpaced items

/-- The text of such a list. -/
def textOf (items : List (CStr × CStr)) : CStr := items.flatMap (fun item => item.1 ++ item.2)

/-- Its words. -/
def wordsOf (items : List (CStr × CStr)) : List CStr := items.map Prod.fst

theorem scanWords_word {w : CStr} (hw : ∀ c ∈ w, isspace c = false) (hne : w ≠ []) :
    ∀ (rest tok : CStr) (wasSpace : Bool),
      scanWords (w ++ rest) tok wasSpace = scanWords rest (tok ++ w) false := by
  induction w with
  | nil => exact absurd rfl hne
  | cons c w ih =>
    intro rest tok wasSpace
    have hc : isspace c = false := hw c (List.mem_cons_self ..)
    rw [List.cons_append, scanWords, if_pos (by simp [hc])]
    cases w with
    | nil => rfl
    | cons d w =>
      rw [ih (fun x hx => hw x (List.mem_cons_of_mem _ hx)) (by simp)]
      simp

theorem scanWords_spaces {gap : CStr} (hgap : ∀ c ∈ gap, isspace c = true) (rest : CStr) :
    scanWords (gap ++ rest) [] true = scanWords rest [] true := by
  induction gap with
  | nil => rfl
  | cons c gap ih =>
    have hc : isspace c = true := hgap c (List.mem_cons_self ..)
    rw [List.cons_append, scanWords, if_neg (by simp [hc]), if_pos rfl]
    exact ih (fun x hx => hgap x (List.mem_cons_of_mem _ hx))

/-- A word that has been read, with what follows it. -/
theorem scanWords_gap {tok gap rest : CStr} (htok : tok ≠ []) (hgap : ∀ c ∈ gap, isspace c = true)
    (hne : gap ≠ []) : scanWords (gap ++ rest) tok false = tok :: scanWords rest [] true := by
  cases gap with
  | nil => exact absurd rfl hne
  | cons c gap =>
    have hc : isspace c = true := hgap c (List.mem_cons_self ..)
    rw [List.cons_append, scanWords, if_neg (by simp [hc]), if_neg (by simp), if_neg htok,
      scanWords_spaces (fun x hx => hgap x (List.mem_cons_of_mem _ hx))]

/-- The words of a text that begins with a word, of which `tok` was read already. -/
theorem scanWords_textOf {items : List (CStr × CStr)} :
    ∀ {w gap : CStr} (tok : CStr) (wasSpace : Bool), WellSpaced ((w, gap) :: items) →
      scanWords (textOf ((w, gap) :: items)) tok wasSpace = (tok ++ w) :: wordsOf items := by
  induction items with
  | nil =>
    intro w gap tok wasSpace h
    obtain ⟨hw, hgap, _, _⟩ := h
    have hne : tok ++ w ≠ [] := by simp [hw.1]
    show scanWords (w ++ gap ++ []) tok wasSpace = [tok ++ w]
    rw [List.append_assoc, scanWords_word hw.2 hw.1]
    cases gap with
    | nil => rfl
    | cons c gap => rw [scanWords_gap hne hgap (by simp)]; rfl
  | cons item items ih =>
    intro w gap tok wasSpace h
    obtain ⟨hw, hgap, hsep, hrest⟩ := h
    have hne : tok ++ w ≠ [] := by simp [hw.1]
    show scanWords (w ++ gap ++ textOf (item :: items)) tok wasSpace = _
    rw [List.append_assoc, scanWords_word hw.2 hw.1, scanWords_gap hne hgap (hsep (by simp)),
      ih [] true hrest]
    rfl

/-- **What becomes of blanks in front**: a single one goes into the first word. -/
theorem scanWords_lead {lead w gap : CStr} {items : List (CStr × CStr)}
    (hlead : ∀ c ∈ lead, isspace c = true) (h : WellSpaced ((w, gap) :: items)) :
    scanWords (lead ++ textOf ((w, gap) :: items)) [] false
      = (if lead.length = 1 then lead ++ w else w) :: wordsOf items := by
  cases lead with
  | nil => exact scanWords_textOf [] false h
  | cons c lead =>
    have hc : isspace c = true := hlead c (List.mem_cons_self ..)
    rw [List.cons_append, scanWords, if_neg (by simp [hc]), if_neg (by simp), if_pos rfl]
    cases lead with
    | nil => exact scanWords_textOf [c] true h
    | cons c' lead =>
      have hc' : isspace c' = true := hlead c' (by simp)
      rw [List.cons_append, scanWords, if_neg (by simp [hc']), if_pos rfl,
        scanWords_spaces (fun x hx => hlead x (by simp [hx])), scanWords_textOf [] true h]
      simp

/-! ## Blocks of words -/

/-- A pointer into a block leads to its word. -/
theorem cstrAt_append (a b : List UInt8) {w : CStr} (hw : 0 ∉ w) :
    cstrAt (a ++ (w ++ [0] ++ b)) a.length = w := by
  unfold cstrAt
  rw [List.drop_left, List.append_assoc, List.takeWhile_append_of_pos]
  · simp
  · intro c hc
    have hne : c ≠ 0 := fun h0 => hw (h0 ▸ hc)
    simpa using hne

section Packed

variable {α : Type}

/-- The bytes of the words, each with its NUL. -/
def packed (st : List (α × CStr)) : List UInt8 := st.flatMap (fun e => e.2 ++ [0])

@[simp] theorem packed_nil : packed ([] : List (α × CStr)) = [] := rfl

@[simp] theorem packed_cons (e : α × CStr) (st : List (α × CStr)) :
    packed (e :: st) = e.2 ++ [0] ++ packed st := rfl

@[simp] theorem packed_append (st st' : List (α × CStr)) :
    packed (st ++ st') = packed st ++ packed st' := List.flatMap_append

variable [DecidableEq α]

/-- The words of one list. -/
def wordsIn (tag : α) (st : List (α × CStr)) : List CStr :=
  (st.filter (fun e => e.1 = tag)).map Prod.snd

@[simp] theorem wordsIn_cons (tag : α) (e : α × CStr)
    (st : List (α × CStr)) :
    wordsIn tag (e :: st) = (if e.1 = tag then [e.2] else []) ++ wordsIn tag st := by
  unfold wordsIn
  rw [List.filter_cons]
  by_cases he : e.1 = tag
  · simp [he]
  · simp [he]

@[simp] theorem wordsIn_append (tag : α) (st st' : List (α × CStr)) :
    wordsIn tag (st ++ st') = wordsIn tag st ++ wordsIn tag st' := by
  simp [wordsIn]

/-- The pointers to the words of one list, if the words are packed from an offset on. -/
def pointers (tag : α) : Nat → List (α × CStr) → List Nat
  | _, [] => []
  | off, e :: st => (if e.1 = tag then [off] else []) ++ pointers tag (off + (e.2.length + 1)) st

theorem pointers_append (tag : α) (st st' : List (α × CStr)) :
    ∀ off, pointers tag off (st ++ st')
      = pointers tag off st ++ pointers tag (off + (packed st).length) st' := by
  induction st with
  | nil => intro off; rfl
  | cons e st ih =>
    intro off
    rw [List.cons_append, pointers, ih, pointers, packed_cons, List.append_assoc]
    simp only [List.length_append, List.length_cons, List.length_nil]
    congr 3
    omega

theorem length_pointers (tag : α) (st : List (α × CStr)) :
    ∀ off, (pointers tag off st).length = (wordsIn tag st).length := by
  induction st with
  | nil => intro off; rfl
  | cons e st ih =>
    intro off
    rw [pointers, List.length_append, ih, wordsIn_cons, List.length_append]
    split <;> rfl

theorem pointers_words (tag : α) (st : List (α × CStr)) :
    ∀ a b : List UInt8, (∀ e ∈ st, 0 ∉ e.2) →
      (pointers tag a.length st).map (cstrAt (a ++ packed st ++ b)) = wordsIn tag st := by
  induction st with
  | nil => intro a b _; rfl
  | cons e st ih =>
    intro a b hst
    have hmem : a ++ packed (e :: st) ++ b = (a ++ (e.2 ++ [0])) ++ packed st ++ b := by simp
    have hlen : a.length + (e.2.length + 1) = (a ++ (e.2 ++ [0])).length := by simp
    have hrest := ih (a ++ (e.2 ++ [0])) b (fun x hx => hst x (List.mem_cons_of_mem _ hx))
    have hword : cstrAt (a ++ (e.2 ++ [0]) ++ packed st ++ b) a.length = e.2 := by
      have := cstrAt_append a (packed st ++ b) (hst e (List.mem_cons_self ..))
      simpa using this
    rw [pointers, List.map_append, hlen, hmem, hrest, wordsIn_cons]
    split
    · rw [List.map_singleton, hword]
    · rfl

end Packed

/-! ## Where the words of a softdep go -/

/-- `pre:` and `post:`. -/
def isKeyword (w : CStr) : Bool := w = cstr "pre:" || w = cstr "post:"

/-- The mode after a word. -/
def SoftdepMode.next (mode : SoftdepMode) (w : CStr) : SoftdepMode :=
  if w = cstr "pre:" then .pre else if w = cstr "post:" then .post else mode

/-- The words that are stored, in order, with the list into which they go. -/
def stored : SoftdepMode → List CStr → List (SoftdepMode × CStr)
  | _, [] => []
  | mode, w :: ws =>
    (if isKeyword w || mode = .none then [] else [(mode, w)]) ++ stored (mode.next w) ws

theorem isKeyword_iff {w : CStr} : isKeyword w = true ↔ w = cstr "pre:" ∨ w = cstr "post:" := by
  simp [isKeyword]

theorem next_of_not_keyword {w : CStr} (h : isKeyword w = false) (mode : SoftdepMode) :
    mode.next w = mode := by
  have hnot : ¬ (w = cstr "pre:" ∨ w = cstr "post:") := fun hk => by
    rw [isKeyword_iff.mpr hk] at h
    exact absurd h (by simp)
  unfold SoftdepMode.next
  rw [if_neg (fun hk => hnot (.inl hk)), if_neg (fun hk => hnot (.inr hk))]

theorem next_of_keyword {w : CStr} (h : isKeyword w = true) (mode : SoftdepMode) :
    mode.next w = SoftdepMode.none.next w ∧ mode.next w ≠ .none := by
  rcases isKeyword_iff.mp h with rfl | rfl
  · exact ⟨rfl, by simp [SoftdepMode.next]⟩
  · exact ⟨rfl, by simp [SoftdepMode.next, cstr]⟩

theorem stored_keyword {k : CStr} (h : isKeyword k = true) (mode : SoftdepMode) (ws : List CStr) :
    stored mode (k :: ws) = stored (SoftdepMode.none.next k) ws := by
  simp [stored, h, (next_of_keyword h mode).1]

theorem stored_dropped {w : CStr} (h : isKeyword w = false) (ws : List CStr) :
    stored .none (w :: ws) = stored .none ws := by
  simp [stored, next_of_not_keyword h]

theorem stored_word {w : CStr} {mode : SoftdepMode} (h : isKeyword w = false) (hmode : mode ≠ .none)
    (ws : List CStr) : stored mode (w :: ws) = (mode, w) :: stored mode ws := by
  simp [stored, h, hmode, next_of_not_keyword h]

/-- The block for the words stored. -/
def blockOf (modname : CStr) (st : List (SoftdepMode × CStr)) : SoftdepBlock :=
  ⟨modname ++ [0] ++ packed st, pointers .pre (modname.length + 1) st,
    pointers .post (modname.length + 1) st⟩

/-- **The lists of a block** are those of its words. -/
theorem blockOf_softdep {modname : CStr} {st : List (SoftdepMode × CStr)} (hname : 0 ∉ modname)
    (hst : ∀ e ∈ st, 0 ∉ e.2) :
    (blockOf modname st).softdep = ⟨modname, wordsIn .pre st, wordsIn .post st⟩ := by
  have hlists : ∀ mode, (pointers mode (modname.length + 1) st).map
      (cstrAt (modname ++ [0] ++ packed st)) = wordsIn mode st := by
    intro mode
    have := pointers_words mode st (modname ++ [0]) [] hst
    simpa using this
  have hown : cstrAt (modname ++ [0] ++ packed st) 0 = modname := by
    have := cstrAt_append [] (packed st) hname
    simpa using this
  show KmodSoftdep.mk _ _ _ = _
  rw [show (blockOf modname st).text = modname ++ [0] ++ packed st from rfl, hown]
  exact congrArg₂ _ (hlists .pre) (hlists .post)

/-! ## The two passes -/

theorem softdepCount_keyword {w : CStr} (h : isKeyword w = true) (n : SoftdepCount)
    (counts : Bool) :
    softdepCount n w counts = .ok { n with mode := n.mode.next w } := by
  unfold softdepCount SoftdepMode.next
  rcases isKeyword_iff.mp h with hw | hw
  · rw [if_pos hw, if_pos hw]
  · have hne : w ≠ cstr "pre:" := by rw [hw]; decide
    rw [if_neg hne, if_pos hw, if_neg hne, if_pos hw]

theorem softdepCopy_keyword {w : CStr} (h : isKeyword w = true) (nPre nPost size : Nat)
    (st : SoftdepCopy) (counts : Bool) :
    softdepCopy nPre nPost size st w counts = .ok { st with mode := st.mode.next w } := by
  unfold softdepCopy SoftdepMode.next
  rcases isKeyword_iff.mp h with hw | hw
  · rw [if_pos hw, if_pos hw]
  · have hne : w ≠ cstr "pre:" := by rw [hw]; decide
    rw [if_neg hne, if_pos hw, if_neg hne, if_pos hw]

theorem not_keyword {w : CStr} (h : isKeyword w = false) : w ≠ cstr "pre:" ∧ w ≠ cstr "post:" := by
  refine ⟨fun hw => ?_, fun hw => ?_⟩
  · rw [isKeyword_iff.mpr (.inl hw)] at h
    exact absurd h (by simp)
  · rw [isKeyword_iff.mpr (.inr hw)] at h
    exact absurd h (by simp)

/-- The counters are large enough for the words. -/
def CountsFit (nPre nPost : Nat) (st : List (SoftdepMode × CStr)) : Prop :=
  nPre + (wordsIn .pre st).length ≤ UINT32_MAX ∧ nPost + (wordsIn .post st).length ≤ UINT32_MAX

instance (nPre nPost : Nat) (st : List (SoftdepMode × CStr)) :
    Decidable (CountsFit nPre nPost st) :=
  inferInstanceAs (Decidable (_ ∧ _))

/-- **The first pass** counts the words stored and their bytes. -/
theorem softdepCount_words (ws : List CStr) :
    ∀ n : SoftdepCount, n.nPre ≤ UINT32_MAX → n.nPost ≤ UINT32_MAX →
      ws.foldlM (fun n w => softdepCount n w true) n
        = if CountsFit n.nPre n.nPost (stored n.mode ws) then
            .ok ⟨ws.foldl SoftdepMode.next n.mode,
              n.nPre + (wordsIn .pre (stored n.mode ws)).length,
              n.nPost + (wordsIn .post (stored n.mode ws)).length,
              n.buflen + (packed (stored n.mode ws)).length⟩
          else .error (-EINVAL) := by
  induction ws with
  | nil =>
    intro n hpre hpost
    have hfit : CountsFit n.nPre n.nPost (stored n.mode []) := ⟨hpre, hpost⟩
    rw [if_pos hfit]
    rfl
  | cons w ws ih =>
    intro n hpre hpost
    rw [List.foldlM_cons, List.foldl_cons]
    cases hk : isKeyword w with
    | true =>
      rw [softdepCount_keyword hk, stored_keyword hk, ← (next_of_keyword hk n.mode).1]
      exact ih _ hpre hpost
    | false =>
      obtain ⟨hne1, hne2⟩ := not_keyword hk
      rw [next_of_not_keyword hk]
      have hstep : ∀ n, softdepCount n w true = _ := fun n => by
        unfold softdepCount
        rw [if_neg hne1, if_neg hne2, if_pos rfl]
      rw [hstep]
      obtain ⟨mode, nPre, nPost, buflen⟩ := n
      cases mode with
      | none =>
        rw [stored_dropped hk]
        exact ih _ hpre hpost
      | pre =>
        have hstored := stored_word hk (by decide : SoftdepMode.pre ≠ .none) ws
        simp only [hstored, CountsFit, wordsIn_cons,
          if_true, reduceCtorEq, if_false, packed_cons, List.length_append, List.length_cons,
          List.length_nil, List.nil_append]
        by_cases hmax : nPre + 1 > UINT32_MAX
        · rw [if_pos hmax, if_neg (by omega)]
          rfl
        · rw [if_neg hmax]
          have hle : nPre + 1 ≤ UINT32_MAX := by omega
          refine (ih ⟨.pre, nPre + 1, nPost, buflen + (w.length + 1)⟩ hle hpost).trans ?_
          simp only [CountsFit, Nat.add_comm, Nat.add_left_comm]
      | post =>
        have hstored := stored_word hk (by decide : SoftdepMode.post ≠ .none) ws
        simp only [hstored, CountsFit, wordsIn_cons,
          if_true, reduceCtorEq, if_false, packed_cons, List.length_append, List.length_cons,
          List.length_nil, List.nil_append]
        by_cases hmax : nPost + 1 > UINT32_MAX
        · rw [if_pos hmax, if_neg (by omega)]
          rfl
        · rw [if_neg hmax]
          have hle : nPost + 1 ≤ UINT32_MAX := by omega
          refine (ih ⟨.post, nPre, nPost + 1, buflen + (w.length + 1)⟩ hpre hle).trans ?_
          simp only [CountsFit, Nat.add_comm, Nat.add_left_comm]

section CopyWord

variable {nPre nPost size : Nat} {w : CStr} {text : List UInt8} {pre post : List Nat}

/-- A word before the first keyword is not copied. -/
theorem softdepCopy_none (hk : isKeyword w = false) :
    softdepCopy nPre nPost size ⟨.none, text, pre, post⟩ w true = .ok ⟨.none, text, pre, post⟩ := by
  obtain ⟨hne1, hne2⟩ := not_keyword hk
  unfold softdepCopy
  rw [if_neg hne1, if_neg hne2, if_pos rfl]

/-- A word behind `pre:` is copied and gets a pointer. -/
theorem softdepCopy_pre (hk : isKeyword w = false)
    (hroom : pre.length < nPre ∧ text.length + (w.length + 1) ≤ size) :
    softdepCopy nPre nPost size ⟨.pre, text, pre, post⟩ w true =
      .ok ⟨.pre, ⟨text ++ (w ++ [0]), pre ++ [text.length], post⟩⟩ := by
  obtain ⟨hne1, hne2⟩ := not_keyword hk
  unfold softdepCopy
  rw [if_neg hne1, if_neg hne2, if_pos rfl]
  exact if_pos hroom

/-- A word behind `post:` is copied and gets a pointer. -/
theorem softdepCopy_post (hk : isKeyword w = false)
    (hroom : post.length < nPost ∧ text.length + (w.length + 1) ≤ size) :
    softdepCopy nPre nPost size ⟨.post, text, pre, post⟩ w true =
      .ok ⟨.post, ⟨text ++ (w ++ [0]), pre, post ++ [text.length]⟩⟩ := by
  obtain ⟨hne1, hne2⟩ := not_keyword hk
  unfold softdepCopy
  rw [if_neg hne1, if_neg hne2, if_pos rfl]
  exact if_pos hroom

end CopyWord

/-- **The second pass** copies the words stored, if there is room for them. -/
theorem softdepCopy_words {nPre nPost size : Nat} (ws : List CStr) :
    ∀ st : SoftdepCopy,
      st.block.pre.length + (wordsIn .pre (stored st.mode ws)).length ≤ nPre →
      st.block.post.length + (wordsIn .post (stored st.mode ws)).length ≤ nPost →
      st.block.text.length + (packed (stored st.mode ws)).length ≤ size →
      ws.foldlM (fun st w => softdepCopy nPre nPost size st w true) st
        = .ok ⟨ws.foldl SoftdepMode.next st.mode,
            ⟨st.block.text ++ packed (stored st.mode ws),
              st.block.pre ++ pointers .pre st.block.text.length (stored st.mode ws),
              st.block.post ++ pointers .post st.block.text.length (stored st.mode ws)⟩⟩ := by
  induction ws with
  | nil =>
    intro st _ _ _
    simp [stored, pointers]
    rfl
  | cons w ws ih =>
    intro st hpre hpost hsize
    rw [List.foldlM_cons, List.foldl_cons]
    cases hk : isKeyword w with
    | true =>
      rw [stored_keyword hk, ← (next_of_keyword hk st.mode).1] at hpre hpost hsize ⊢
      rw [softdepCopy_keyword hk]
      exact ih _ hpre hpost hsize
    | false =>
      rw [next_of_not_keyword hk]
      obtain ⟨mode, text, pre, post⟩ := st
      cases mode with
      | none =>
        rw [stored_dropped hk] at hpre hpost hsize ⊢
        rw [softdepCopy_none hk]
        exact ih _ hpre hpost hsize
      | pre =>
        rw [stored_word hk (by decide : SoftdepMode.pre ≠ .none) ws] at hpre hpost hsize ⊢
        simp only [wordsIn_cons, if_true, reduceCtorEq, if_false, List.length_append,
          List.length_cons,
          List.length_nil, packed_cons, List.nil_append] at hpre hpost hsize
        rw [softdepCopy_pre hk (by omega)]
        refine (ih ⟨.pre, ⟨text ++ (w ++ [0]), pre ++ [text.length], post⟩⟩ ?_ hpost ?_).trans ?_
        · simp only [List.length_append, List.length_cons, List.length_nil]
          omega
        · simp only [List.length_append, List.length_cons, List.length_nil]
          omega
        · simp [pointers]
      | post =>
        rw [stored_word hk (by decide : SoftdepMode.post ≠ .none) ws] at hpre hpost hsize ⊢
        simp only [wordsIn_cons, if_true, reduceCtorEq, if_false, List.length_append,
          List.length_cons,
          List.length_nil, packed_cons, List.nil_append] at hpre hpost hsize
        rw [softdepCopy_post hk (by omega)]
        refine (ih ⟨.post, ⟨text ++ (w ++ [0]), pre, post ++ [text.length]⟩⟩ hpre ?_ ?_).trans ?_
        · simp only [List.length_append, List.length_cons, List.length_nil]
          omega
        · simp only [List.length_append, List.length_cons, List.length_nil]
          omega
        · simp [pointers]

theorem BlankTok.not_keyword {tok : CStr} (h : BlankTok tok) :
    tok ≠ cstr "pre:" ∧ tok ≠ cstr "post:" := by
  rcases h with rfl | ⟨c, _, rfl⟩
  · exact ⟨by decide, by decide⟩
  · refine ⟨fun h => ?_, fun h => ?_⟩
    · exact absurd (congrArg List.length h) (by simp [cstr])
    · exact absurd (congrArg List.length h) (by simp [cstr])

/-- What `kmod_config_add_softdep` allocates. -/
def softdepSize (modname : CStr) (st : List (SoftdepMode × CStr)) : Nat :=
  SIZEOF_SOFTDEP + (modname.length + 1) + (wordsIn .pre st).length * 8 + (wordsIn .post st).length * 8 +
    (packed st).length

/-- The counters do not overflow, and the block can be allocated. -/
def SoftdepFits (modname : CStr) (st : List (SoftdepMode × CStr)) : Prop :=
  CountsFit 0 0 st ∧ softdepSize modname st ≤ PTRDIFF_MAX

/-- The words `kmod_config_add_softdep` stores for a text. -/
def softdepWords (line : CStr) : List (SoftdepMode × CStr) := stored .none (scanWords line [] false)

section AddSoftdep

variable (config : KmodConfig) {modname line : CStr}

/-- The first pass, from the start. -/
theorem scanLine_softdepCount :
    scanLine softdepCount line [] false ⟨.none, 0, 0, 0⟩
      = if CountsFit 0 0 (softdepWords line) then
          .ok ⟨(scanWords line [] false).foldl SoftdepMode.next .none,
            (wordsIn .pre (softdepWords line)).length, (wordsIn .post (softdepWords line)).length,
            (packed (softdepWords line)).length⟩
        else .error (-EINVAL) := by
  rw [scanLine_eq ?_ line [] false _ (by simp),
    softdepCount_words _ ⟨.none, 0, 0, 0⟩ (Nat.zero_le _) (Nat.zero_le _)]
  · simp only [Nat.zero_add]
    rfl
  · intro n tok htok
    obtain ⟨h1, h2⟩ := htok.not_keyword
    unfold softdepCount
    rw [if_neg h1, if_neg h2]
    rfl

/-- **A softdep that fits is stored**, with the words of its text. -/
theorem kmodConfigAddSoftdep_fits (h : SoftdepFits modname (softdepWords line)) :
    kmodConfigAddSoftdep config modname line
      = .ok (0, { config with
          softdeps := config.softdeps ++ [blockOf modname (softdepWords line)] }) := by
  obtain ⟨hcount, hsize⟩ := h
  have hcopy : scanLine (softdepCopy (wordsIn .pre (softdepWords line)).length
        (wordsIn .post (softdepWords line)).length
        (modname.length + 1 + (packed (softdepWords line)).length)) line [] false
        ⟨.none, modname ++ [0], [], []⟩
      = .ok ⟨(scanWords line [] false).foldl SoftdepMode.next .none,
          blockOf modname (softdepWords line)⟩ := by
    rw [scanLine_eq ?_ line [] false _ (by simp), softdepCopy_words]
    · simp only [List.length_append, List.length_cons, List.length_nil, List.nil_append]
      rfl
    · simp [softdepWords]
    · simp [softdepWords]
    · simp [softdepWords]
    · intro st tok htok
      obtain ⟨h1, h2⟩ := htok.not_keyword
      unfold softdepCopy
      rw [if_neg h1, if_neg h2]
      rfl
  unfold softdepSize at hsize
  unfold kmodConfigAddSoftdep
  rw [scanLine_softdepCount, if_pos hcount]
  simp only
  rw [if_neg (Nat.not_lt.mpr hsize), hcopy]
  rfl

/-- A softdep that does not fit is refused. -/
theorem kmodConfigAddSoftdep_refuses (h : ¬ SoftdepFits modname (softdepWords line)) :
    ∃ err, err < 0 ∧ kmodConfigAddSoftdep config modname line = .ok (err, config) := by
  unfold kmodConfigAddSoftdep
  rw [scanLine_softdepCount]
  by_cases hcount : CountsFit 0 0 (softdepWords line)
  · rw [if_pos hcount]
    simp only
    have hsize : ¬ softdepSize modname (softdepWords line) ≤ PTRDIFF_MAX := fun hs => h ⟨hcount, hs⟩
    exact ⟨-ENOMEM, by decide, if_pos (Nat.not_le.mp hsize)⟩
  · rw [if_neg hcount]
    exact ⟨-EINVAL, by decide, rfl⟩

end AddSoftdep

/-! ## Weakdeps -/

/-- All words of a weakdep go into one list. -/
def weakWords (ws : List CStr) : List (Unit × CStr) := ws.map (fun w => ((), w))

@[simp] theorem weakWords_cons (w : CStr) (ws : List CStr) :
    weakWords (w :: ws) = ((), w) :: weakWords ws := rfl

theorem wordsIn_weakWords (ws : List CStr) : wordsIn () (weakWords ws) = ws := by
  induction ws with
  | nil => rfl
  | cons w ws ih => rw [weakWords_cons, wordsIn_cons, ih]; rfl

/-- The counter does not overflow, and the block can be allocated. -/
def WeakdepFits (modname : CStr) (ws : List CStr) : Prop :=
  ws.length ≤ UINT32_MAX ∧
    SIZEOF_WEAKDEP + (modname.length + 1) + ws.length * 8 + (packed (weakWords ws)).length ≤ PTRDIFF_MAX

theorem weakdepCount_words (ws : List CStr) :
    ∀ n : Nat × Nat, n.1 ≤ UINT32_MAX →
      ws.foldlM (fun n w => weakdepCount n w true) n
        = if n.1 + ws.length ≤ UINT32_MAX then
            .ok (n.1 + ws.length, n.2 + (packed (weakWords ws)).length)
          else .error (-EINVAL) := by
  induction ws with
  | nil => intro n hn; exact (if_pos hn).symm
  | cons w ws ih =>
    intro n hn
    rw [List.foldlM_cons, List.length_cons]
    unfold weakdepCount
    rw [if_pos rfl]
    by_cases hmax : n.1 + 1 > UINT32_MAX
    · rw [if_pos hmax, if_neg (by omega)]
      rfl
    · rw [if_neg hmax]
      refine (ih (n.1 + 1, n.2 + (w.length + 1)) (by omega)).trans ?_
      simp [Nat.add_comm, Nat.add_left_comm]

theorem weakdepCopy_words {nWeak size : Nat} (ws : List CStr) :
    ∀ dep : WeakdepBlock, dep.weak.length + ws.length ≤ nWeak →
      dep.text.length + (packed (weakWords ws)).length ≤ size →
      ws.foldlM (fun dep w => weakdepCopy nWeak size dep w true) dep
        = .ok ⟨dep.text ++ packed (weakWords ws),
            dep.weak ++ pointers () dep.text.length (weakWords ws)⟩ := by
  induction ws with
  | nil =>
    intro dep _ _
    simp [weakWords, pointers]
    rfl
  | cons w ws ih =>
    intro dep hweak hsize
    simp only [weakWords_cons, packed_cons, List.length_append, List.length_cons,
      List.length_nil] at hweak hsize
    have hroom : dep.weak.length < nWeak ∧ dep.text.length + (w.length + 1) ≤ size := by omega
    have hstep : weakdepCopy nWeak size dep w true
        = .ok ⟨dep.text ++ (w ++ [0]), dep.weak ++ [dep.text.length]⟩ := if_pos hroom
    rw [List.foldlM_cons, hstep]
    refine (ih ⟨dep.text ++ (w ++ [0]), dep.weak ++ [dep.text.length]⟩ ?_ ?_).trans ?_
    · simp only [List.length_append, List.length_cons, List.length_nil]
      omega
    · simp only [List.length_append, List.length_cons, List.length_nil]
      omega
    · simp [pointers]

section AddWeakdep

variable (config : KmodConfig) {modname line : CStr}

theorem scanLine_weakdepCount :
    scanLine weakdepCount line [] false (0, 0)
      = if (scanWords line [] false).length ≤ UINT32_MAX then
          .ok ((scanWords line [] false).length, (packed (weakWords (scanWords line [] false))).length)
        else .error (-EINVAL) := by
  rw [scanLine_eq (fun _ _ _ => rfl) line [] false _ (by simp),
    weakdepCount_words _ (0, 0) (Nat.zero_le _)]
  simp only [Nat.zero_add]

/-- **A weakdep that fits is stored**, with the words of its text. -/
theorem kmodConfigAddWeakdep_fits (h : WeakdepFits modname (scanWords line [] false))
    (hline : ∀ w ∈ scanWords line [] false, 0 ∉ w) :
    ∃ dep, dep.words = scanWords line [] false ∧ kmodConfigAddWeakdep config modname line
      = .ok (0, { config with weakdeps := config.weakdeps ++ [dep] }) := by
  obtain ⟨hcount, hsize⟩ := h
  generalize hws : scanWords line [] false = ws at *
  refine ⟨⟨modname ++ [0] ++ packed (weakWords ws), pointers () (modname.length + 1) (weakWords ws)⟩,
    ?_, ?_⟩
  · have hpoint := pointers_words () (weakWords ws) (modname ++ [0]) []
      (by simpa [weakWords] using hline)
    rw [wordsIn_weakWords, List.append_nil] at hpoint
    simpa [WeakdepBlock.words] using hpoint
  · have hcopy : scanLine (weakdepCopy ws.length (modname.length + 1 + (packed (weakWords ws)).length))
          line [] false ⟨modname ++ [0], []⟩
        = .ok ⟨modname ++ [0] ++ packed (weakWords ws),
            pointers () (modname.length + 1) (weakWords ws)⟩ := by
      rw [scanLine_eq (fun _ _ _ => rfl) line [] false _ (by simp), hws, weakdepCopy_words]
      · simp
      · simp
      · simp
    unfold kmodConfigAddWeakdep
    rw [scanLine_weakdepCount, hws, if_pos hcount]
    simp only
    rw [if_neg (Nat.not_lt.mpr hsize), hcopy]
    rfl

/-- A weakdep that does not fit is refused. -/
theorem kmodConfigAddWeakdep_refuses (h : ¬ WeakdepFits modname (scanWords line [] false)) :
    ∃ err, err < 0 ∧ kmodConfigAddWeakdep config modname line = .ok (err, config) := by
  unfold kmodConfigAddWeakdep
  rw [scanLine_weakdepCount]
  by_cases hcount : (scanWords line [] false).length ≤ UINT32_MAX
  · rw [if_pos hcount]
    simp only
    exact ⟨-ENOMEM, by decide, if_pos (Nat.not_le.mp (fun hs => h ⟨hcount, hs⟩))⟩
  · rw [if_neg hcount]
    exact ⟨-EINVAL, by decide, rfl⟩

end AddWeakdep

/-! ## What a line asks for -/

/-- The last keyword among some words. -/
def nearestKeyword (ws : List CStr) : Option CStr := (ws.filter isKeyword).getLast?

/-- Of the words behind `before`, those whose nearest preceding keyword is `kw`, in order. -/
def wordsUnder (kw : CStr) (before : List CStr) : List CStr → List CStr
  | [] => []
  | w :: ws =>
    (if !isKeyword w && nearestKeyword before = some kw then [w] else []) ++
      wordsUnder kw (before ++ [w]) ws

/-- The keyword of a list. -/
def SoftdepMode.keyword : SoftdepMode → Option CStr
  | .none => Option.none
  | .pre => some (cstr "pre:")
  | .post => some (cstr "post:")

theorem keyword_next (mode : SoftdepMode) {w : CStr} (h : isKeyword w = true) :
    (mode.next w).keyword = some w := by
  rcases isKeyword_iff.mp h with rfl | rfl
  · rfl
  · rfl

theorem keyword_injective {mode mode' : SoftdepMode} (h : mode.keyword = mode'.keyword) :
    mode = mode' := by
  cases mode <;> cases mode' <;> first | rfl | exact absurd h (by decide)

/-- The words stored are those under the keyword of their list. -/
theorem wordsIn_stored {list : SoftdepMode} {kw : CStr} (hkw : list.keyword = some kw)
    (ws : List CStr) :
    ∀ (mode : SoftdepMode) (before : List CStr), mode.keyword = nearestKeyword before →
      wordsIn list (stored mode ws) = wordsUnder kw before ws := by
  induction ws with
  | nil => intro _ _ _; rfl
  | cons w ws ih =>
    intro mode before hmode
    have hnext : (mode.next w).keyword = nearestKeyword (before ++ [w]) := by
      unfold nearestKeyword
      rw [List.filter_append]
      cases hk : isKeyword w with
      | true =>
        rw [keyword_next mode hk]
        simp [hk]
      | false =>
        rw [next_of_not_keyword hk, hmode]
        simp [hk, nearestKeyword]
    rw [stored, wordsIn_append, wordsUnder, ih _ _ hnext, ← hmode, ← hkw]
    congr 1
    cases hk : isKeyword w with
    | true => simp [wordsIn]
    | false =>
      by_cases hlist : mode = list
      · subst hlist
        have hne : mode ≠ .none := by
          rintro rfl
          exact absurd hkw (by simp [SoftdepMode.keyword])
        simp [hne, wordsIn]
      · have hne : ¬ mode.keyword = list.keyword := fun h => hlist (keyword_injective h)
        by_cases hnone : mode = .none
        · subst hnone
          simp [hne, wordsIn]
        · simp [hnone, hne, hlist, wordsIn]

/-! ## Lines -/

theorem strtokR_word {delim : UInt8 → Bool} (lead : CStr) {w : CStr} {c : UInt8} (rest : CStr)
    (hlead : ∀ x ∈ lead, delim x = true) (hne : w ≠ []) (hw : ∀ x ∈ w, delim x = false)
    (hc : delim c = true) : strtokR delim (lead ++ (w ++ c :: rest)) = (some w, rest) := by
  cases w with
  | nil => exact absurd rfl hne
  | cons d w =>
    have hd : delim d = false := hw d (List.mem_cons_self ..)
    have hdrop : (lead ++ (d :: w ++ c :: rest)).dropWhile delim = d :: w ++ c :: rest := by
      rw [List.dropWhile_append_of_pos hlead, List.cons_append,
        List.dropWhile_cons_of_neg (by simp [hd])]
    have hnot : ∀ x ∈ d :: w, (fun x => !delim x) x = true := fun x hx => by simp [hw x hx]
    unfold strtokR
    rw [hdrop]
    show (some ((d :: w ++ c :: rest).takeWhile _), ((d :: w ++ c :: rest).dropWhile _).drop 1) = _
    rw [List.takeWhile_append_of_pos hnot, List.dropWhile_append_of_pos hnot,
      List.takeWhile_cons_of_neg (by simp [hc]), List.dropWhile_cons_of_neg (by simp [hc])]
    simp

/-- A text without delimiters is one token. -/
theorem strtokR_whole {delim : UInt8 → Bool} {w : CStr} (hne : w ≠ [])
    (hw : ∀ x ∈ w, delim x = false) :
    strtokR delim w = (some w, []) := by
  cases w with
  | nil => exact absurd rfl hne
  | cons c w =>
    have hnot : ∀ x ∈ c :: w, (fun x => !delim x) x = true := fun x hx => by simp [hw x hx]
    have htake : (c :: w).takeWhile (fun x => !delim x) = c :: w :=
      List.takeWhile_eq_self_iff.mpr hnot
    have hdrop : (c :: w).dropWhile (fun x => !delim x) = [] := List.dropWhile_eq_nil_iff.mpr hnot
    unfold strtokR
    rw [List.dropWhile_cons_of_neg (by simp [hw c (List.mem_cons_self ..)])]
    show (some ((c :: w).takeWhile _), ((c :: w).dropWhile _).drop 1) = _
    rw [htake, hdrop]
    rfl

/-- The command of a line. -/
theorem strtokR_command {gap : CStr} (hgap : gap ≠ [] ∧ ∀ c ∈ gap, isBlank c = true)
    (cmd rest : CStr)
    (hne : cmd ≠ []) (hcmd : ∀ c ∈ cmd, isBlank c = false) :
    strtokR isBlank (cmd ++ (gap ++ rest)) = (some cmd, gap.tail ++ rest) := by
  cases gap with
  | nil => exact absurd rfl hgap.1
  | cons c gap => exact strtokR_word [] _ (by simp) hne hcmd (hgap.2 c (List.mem_cons_self ..))

theorem underscoresLoop_length {s : CStr} :
    ∀ {inside : Bool} {t : CStr}, underscoresLoop inside s = some t → t.length = s.length := by
  induction s with
  | nil =>
    intro inside t h
    cases inside with
    | false => cases h; rfl
    | true => cases h
  | cons c s ih =>
    intro inside t h
    have hmap : ∀ {inside : Bool} {d : UInt8}, (underscoresLoop inside s).map (d :: ·) = some t →
        t.length = (c :: s).length := by
      intro inside d h
      obtain ⟨u, hu, rfl⟩ := Option.map_eq_some_iff.mp h
      rw [List.length_cons, List.length_cons, ih hu]
    cases inside with
    | true => exact hmap h
    | false =>
      unfold underscoresLoop at h
      split at h
      · exact hmap h
      · split at h
        · cases h
        · exact hmap h

theorem underscoresLoop_nul {s : CStr} (hs : 0 ∉ s) :
    ∀ {inside : Bool} {t : CStr}, underscoresLoop inside s = some t → 0 ∉ t := by
  induction s with
  | nil =>
    intro inside t h
    cases inside with
    | false => cases h; simp
    | true => cases h
  | cons c s ih =>
    intro inside t h
    rw [List.mem_cons, not_or] at hs
    have hmap : ∀ {inside : Bool} {d : UInt8}, (0 : UInt8) ≠ d →
        (underscoresLoop inside s).map (d :: ·) = some t → 0 ∉ t := by
      intro inside d hd h
      obtain ⟨u, hu, rfl⟩ := Option.map_eq_some_iff.mp h
      rw [List.mem_cons, not_or]
      exact ⟨hd, ih hs.2 hu⟩
    cases inside with
    | true => exact hmap hs.1 h
    | false =>
      unfold underscoresLoop at h
      split at h
      · exact hmap (by decide) h
      · split at h
        · cases h
        · exact hmap hs.1 h

section Line

variable (config : KmodConfig) {gap₀ m : CStr} {b : UInt8} {rest : CStr}
  (hgap₀ : gap₀ ≠ [] ∧ ∀ c ∈ gap₀, isBlank c = true) (hm : m ≠ [] ∧ ∀ c ∈ m, isBlank c = false)
  (hb : isBlank b = true) (hrest : rest ≠ [])
include hgap₀ hm hb hrest

/-- The module name and the text of a line that begins with a command. -/
theorem withModname_line (add : CStr → CStr → Except Fault KmodConfig) :
    withModname config (gap₀.tail ++ (m ++ b :: rest)) add
      = (underscores (some m)).elim (.ok config) (fun name => add name rest) := by
  unfold withModname
  rw [strtokR_word gap₀.tail rest (fun c hc => hgap₀.2 c (List.mem_of_mem_tail hc)) hm.1 hm.2 hb]
  simp only [strtokR_whole hrest (fun _ _ => rfl : ∀ c ∈ rest, noDelim c = false)]
  cases underscores (some m) with
  | none => rfl
  | some name => rfl

theorem kmodConfigParseLine_softdep :
    kmodConfigParseLine config (cstr "softdep" ++ (gap₀ ++ (m ++ b :: rest)))
      = (underscores (some m)).elim (.ok config)
          (fun name => (kmodConfigAddSoftdep config name rest).map Prod.snd) := by
  have hcmd := strtokR_command hgap₀ (cstr "softdep") (m ++ b :: rest) (by decide) (by decide)
  unfold kmodConfigParseLine
  rw [if_neg (by simp [cstr]), hcmd]
  exact withModname_line config hgap₀ hm hb hrest _

theorem kmodConfigParseLine_weakdep :
    kmodConfigParseLine config (cstr "weakdep" ++ (gap₀ ++ (m ++ b :: rest)))
      = (underscores (some m)).elim (.ok config)
          (fun name => (kmodConfigAddWeakdep config name rest).map Prod.snd) := by
  have hcmd := strtokR_command hgap₀ (cstr "weakdep") (m ++ b :: rest) (by decide) (by decide)
  unfold kmodConfigParseLine
  rw [if_neg (by simp [cstr]), hcmd]
  exact withModname_line config hgap₀ hm hb hrest _

end Line

/-! ## When the stored lists are those of the line -/

/-- Two blanks, and then a keyword with a word behind it: the keyword is not seen. -/
def SwallowsKeyword (gap : CStr) (ws : List CStr) : Prop :=
  gap.length = 2 ∧ ∃ k w rest, ws = k :: w :: rest ∧ isKeyword k = true ∧ isKeyword w = false

/-- A keyword in front makes a list no shorter. -/
theorem length_stored_le {mode : SoftdepMode} (hmode : mode ≠ .none) (ws : List CStr) :
    (wordsIn mode (stored .none ws)).length ≤ (wordsIn mode (stored mode ws)).length := by
  induction ws with
  | nil => exact Nat.le_refl _
  | cons w ws ih =>
    cases hk : isKeyword w with
    | true => rw [stored_keyword hk, stored_keyword hk]
    | false =>
      rw [stored_dropped hk, stored_word hk hmode, wordsIn_cons, if_pos rfl, List.length_append]
      omega

/-- A word with a blank in front is no keyword. -/
theorem not_keyword_of_space {c : UInt8} (hc : isspace c = true) (w : CStr) :
    isKeyword (c :: w) = false := by
  rw [← Bool.not_eq_true, isKeyword_iff]
  rintro (h | h)
  · have hp : c = 112 := (List.cons.inj h).1
    rw [hp] at hc
    exact absurd hc (by decide)
  · have hp : c = 112 := (List.cons.inj h).1
    rw [hp] at hc
    exact absurd hc (by decide)

section Scanned

variable {b : UInt8} {lead w : CStr} {ws : List CStr} (hlead : ∀ c ∈ lead, isspace c = true)
include hlead

/-- The same words are stored unless a keyword is swallowed. -/
theorem stored_scanned (h : ¬ SwallowsKeyword (b :: lead) (w :: ws)) :
    stored .none ((if lead.length = 1 then lead ++ w else w) :: ws) = stored .none (w :: ws) := by
  by_cases hone : lead.length = 1
  · obtain ⟨c, rfl⟩ := List.length_eq_one_iff.mp hone
    rw [if_pos hone, List.singleton_append,
      stored_dropped (not_keyword_of_space (hlead c (List.mem_cons_self ..)) w)]
    cases hk : isKeyword w with
    | false => rw [stored_dropped hk]
    | true =>
      rw [stored_keyword hk]
      cases ws with
      | nil => rfl
      | cons v rest =>
        cases hv : isKeyword v with
        | true => rw [stored_keyword hv, stored_keyword hv]
        | false => exact absurd ⟨rfl, w, v, rest, rfl, hk, hv⟩ h
  · rw [if_neg hone]

/-- If it is, a list comes out shorter. -/
theorem stored_swallowed (h : SwallowsKeyword (b :: lead) (w :: ws)) :
    ∃ list kw, SoftdepMode.keyword list = some kw ∧
      (wordsIn list (stored .none ((if lead.length = 1 then lead ++ w else w) :: ws))).length
        < (wordsIn list (stored .none (w :: ws))).length := by
  obtain ⟨hlen, k, v, rest, heq, hk, hv⟩ := h
  obtain ⟨rfl, rfl⟩ := List.cons.inj heq
  have hone : lead.length = 1 := by simpa using hlen
  obtain ⟨c, rfl⟩ := List.length_eq_one_iff.mp hone
  have hmode := (next_of_keyword hk .none).2
  refine ⟨SoftdepMode.none.next w, w, keyword_next _ hk, ?_⟩
  rw [if_pos hone, List.singleton_append,
    stored_dropped (not_keyword_of_space (hlead c (List.mem_cons_self ..)) w), stored_dropped hv,
    stored_keyword hk, stored_word hv hmode, wordsIn_cons, if_pos rfl, List.length_append,
    List.length_singleton]
  have := length_stored_le hmode rest
  omega

end Scanned

theorem nul_of_stored {ws : List CStr} (hws : ∀ w ∈ ws, 0 ∉ w) :
    ∀ mode : SoftdepMode, ∀ e ∈ stored mode ws, 0 ∉ e.2 := by
  induction ws with
  | nil => intro mode e he; exact absurd he (by simp [stored])
  | cons w ws ih =>
    intro mode e he
    rw [stored, List.mem_append] at he
    rcases he with he | he
    · split at he
      · exact absurd he (by simp)
      · rw [List.mem_singleton] at he
        rw [he]
        exact hws w (List.mem_cons_self ..)
    · exact ih (fun w hw => hws w (List.mem_cons_of_mem _ hw)) _ e he

theorem isspace_of_isBlank {c : UInt8} (h : isBlank c = true) : isspace c = true := by
  unfold isBlank at h
  rcases (Bool.or_eq_true_iff.mp h) with h | h
  · rw [of_decide_eq_true h]
    rfl
  · rw [of_decide_eq_true h]
    rfl

/-- The lists a softdep asks for. -/
theorem wordsUnder_eq (list : SoftdepMode) {kw : CStr} (hkw : list.keyword = some kw)
    (ws : List CStr) :
    wordsUnder kw [] ws = wordsIn list (stored .none ws) :=
  (wordsIn_stored hkw ws .none [] rfl).symm

section Stored

variable (config : KmodConfig) (name : CStr) {b : UInt8} {lead w after : CStr}
  {items : List (CStr × CStr)} (hlead : ∀ c ∈ lead, isspace c = true)
  (hspaced : WellSpaced ((w, after) :: items)) (hnul : ∀ v ∈ w :: wordsOf items, 0 ∉ v)
include hlead hspaced hnul

/-- The words scanned are strings if the words of the line are. -/
theorem nul_of_scanned :
    ∀ v ∈ scanWords (lead ++ textOf ((w, after) :: items)) [] false, 0 ∉ v := by
  rw [scanWords_lead hlead hspaced]
  have hzero : 0 ∉ lead := fun h => absurd (hlead 0 h) (by decide)
  intro v hv
  rcases List.mem_cons.mp hv with rfl | hv
  · split
    · rw [List.mem_append, not_or]
      exact ⟨hzero, hnul w (List.mem_cons_self ..)⟩
    · exact hnul w (List.mem_cons_self ..)
  · exact hnul v (List.mem_cons_of_mem _ hv)

theorem addSoftdep_words_iff (hname : 0 ∉ name) :
    (∃ dep, (kmodConfigAddSoftdep config name (lead ++ textOf ((w, after) :: items))).map Prod.snd
          = .ok { config with softdeps := config.softdeps ++ [dep] } ∧
        dep.softdep.pre = wordsUnder (cstr "pre:") [] (w :: wordsOf items) ∧
        dep.softdep.post = wordsUnder (cstr "post:") [] (w :: wordsOf items)) ↔
      SoftdepFits name (stored .none (w :: wordsOf items)) ∧
        ¬ SwallowsKeyword (b :: lead) (w :: wordsOf items) := by
  have hzero := nul_of_scanned hlead hspaced hnul
  have hwords : softdepWords (lead ++ textOf ((w, after) :: items)) = stored .none
      ((if lead.length = 1 then lead ++ w else w) :: wordsOf items) :=
    congrArg (stored .none) (scanWords_lead hlead hspaced)
  have hblock := blockOf_softdep hname (nul_of_stored hzero .none)
  rw [show stored .none (scanWords (lead ++ textOf ((w, after) :: items)) [] false)
    = softdepWords (lead ++ textOf ((w, after) :: items)) from rfl] at hblock
  have hpre := wordsUnder_eq .pre rfl (w :: wordsOf items)
  have hpost := wordsUnder_eq .post rfl (w :: wordsOf items)
  refine ⟨?_, ?_⟩
  · rintro ⟨dep, hrun, hdpre, hdpost⟩
    by_cases hfits : SoftdepFits name (softdepWords (lead ++ textOf ((w, after) :: items)))
    · rw [kmodConfigAddSoftdep_fits config hfits] at hrun
      have hsame : dep = blockOf name (softdepWords (lead ++ textOf ((w, after) :: items))) := by
        have := congrArg KmodConfig.softdeps (Except.ok.inj hrun)
        simpa using this.symm
      rw [hsame, hblock] at hdpre hdpost
      have hswallow : ¬ SwallowsKeyword (b :: lead) (w :: wordsOf items) := by
        intro hsw
        obtain ⟨list, kw, hkw, hlt⟩ := stored_swallowed hlead hsw
        rw [← hwords] at hlt
        cases list with
        | none => exact absurd hkw (by simp [SoftdepMode.keyword])
        | pre => rw [← hpre, ← hdpre] at hlt; exact absurd hlt (Nat.lt_irrefl _)
        | post => rw [← hpost, ← hdpost] at hlt; exact absurd hlt (Nat.lt_irrefl _)
      rw [hwords, stored_scanned hlead hswallow] at hfits
      exact ⟨hfits, hswallow⟩
    · obtain ⟨err, _, hrefused⟩ := kmodConfigAddSoftdep_refuses config hfits
      rw [hrefused] at hrun
      have := congrArg (fun c => c.softdeps.length) (Except.ok.inj hrun)
      simp at this
  · rintro ⟨hfits, hswallow⟩
    rw [← stored_scanned hlead hswallow, ← hwords] at hfits
    refine ⟨_, congrArg (Except.map Prod.snd) (kmodConfigAddSoftdep_fits config hfits), ?_, ?_⟩
    · rw [hblock, hpre, hwords, stored_scanned hlead hswallow]
    · rw [hblock, hpost, hwords, stored_scanned hlead hswallow]

theorem addWeakdep_words_iff :
    (∃ dep, (kmodConfigAddWeakdep config name (lead ++ textOf ((w, after) :: items))).map Prod.snd
          = .ok { config with weakdeps := config.weakdeps ++ [dep] } ∧
        dep.words = w :: wordsOf items) ↔
      WeakdepFits name (w :: wordsOf items) ∧ lead.length ≠ 1 := by
  have hzero := nul_of_scanned hlead hspaced hnul
  have hscan := scanWords_lead hlead hspaced
  refine ⟨?_, ?_⟩
  · rintro ⟨dep, hrun, hwords⟩
    by_cases hfits : WeakdepFits name (scanWords (lead ++ textOf ((w, after) :: items)) [] false)
    · obtain ⟨stored, hstored, hadd⟩ := kmodConfigAddWeakdep_fits config hfits hzero
      rw [hadd] at hrun
      have hsame : dep = stored := by
        have := congrArg KmodConfig.weakdeps (Except.ok.inj hrun)
        simpa using this.symm
      rw [hsame, hstored, hscan] at hwords
      have hne : lead.length ≠ 1 := by
        intro hone
        rw [if_pos hone] at hwords
        have := congrArg List.length (List.cons.inj hwords).1
        rw [List.length_append] at this
        omega
      rw [hscan, if_neg hne] at hfits
      exact ⟨hfits, hne⟩
    · obtain ⟨err, _, hrefused⟩ := kmodConfigAddWeakdep_refuses config hfits
      rw [hrefused] at hrun
      have := congrArg (fun c => c.weakdeps.length) (Except.ok.inj hrun)
      simp at this
  · rintro ⟨hfits, hne⟩
    rw [if_neg hne] at hscan
    rw [← hscan] at hfits
    obtain ⟨dep, hdep, hadd⟩ := kmodConfigAddWeakdep_fits config hfits hzero
    exact ⟨dep, congrArg (Except.map Prod.snd) hadd, hdep.trans hscan⟩

end Stored

/--
**When dependency lines are split into words.** A line consists of a command, a
module name and words, separated by blanks. What is stored for a softdep are the
words under `pre:` and those under `post:`, exactly if the name is well formed, the
block can be allocated, and it is not the case that exactly two blanks separate the
name from a keyword that a word follows. What is stored for a weakdep are its words,
exactly if in addition the blanks before the first word are not exactly two.
-/
theorem kmodConfigParseLine_words_iff (config : KmodConfig) (gap₀ m gap : CStr)
    (items : List (CStr × CStr)) (hgap₀ : gap₀ ≠ [] ∧ ∀ c ∈ gap₀, isBlank c = true)
    (hm : m ≠ [] ∧ ∀ c ∈ m, isBlank c = false) (hgap : gap ≠ [] ∧ ∀ c ∈ gap, isBlank c = true)
    (hitems : items ≠ []) (hspaced : WellSpaced items)
    (hnul : 0 ∉ m ∧ ∀ w ∈ wordsOf items, 0 ∉ w) :
    ((∃ dep, kmodConfigParseLine config
          (cstr "softdep" ++ (gap₀ ++ (m ++ (gap ++ textOf items))))
            = .ok { config with softdeps := config.softdeps ++ [dep] } ∧
        dep.softdep.pre = wordsUnder (cstr "pre:") [] (wordsOf items) ∧
        dep.softdep.post = wordsUnder (cstr "post:") [] (wordsOf items)) ↔
      (underscores (some m)).isSome ∧ SoftdepFits m (stored .none (wordsOf items)) ∧
        ¬ SwallowsKeyword gap (wordsOf items)) ∧
    ((∃ dep, kmodConfigParseLine config
          (cstr "weakdep" ++ (gap₀ ++ (m ++ (gap ++ textOf items))))
            = .ok { config with weakdeps := config.weakdeps ++ [dep] } ∧
        dep.words = wordsOf items) ↔
      (underscores (some m)).isSome ∧ WeakdepFits m (wordsOf items) ∧ gap.length ≠ 2) := by
  obtain ⟨⟨w, after⟩, items, rfl⟩ := List.exists_cons_of_ne_nil hitems
  obtain ⟨b, lead, rfl⟩ := List.exists_cons_of_ne_nil hgap.1
  have hb : isBlank b = true := hgap.2 b (List.mem_cons_self ..)
  have hlead : ∀ c ∈ lead, isspace c = true := fun c hc =>
    isspace_of_isBlank (hgap.2 c (List.mem_cons_of_mem _ hc))
  have hrest : lead ++ textOf ((w, after) :: items) ≠ [] := by
    have := hspaced.1.1
    simp [textOf, this]
  have hscan := scanWords_lead hlead hspaced
  have htwo : (b :: lead).length = 2 ↔ lead.length = 1 := by simp
  rw [List.cons_append, kmodConfigParseLine_softdep config hgap₀ hm hb hrest,
    kmodConfigParseLine_weakdep config hgap₀ hm hb hrest]
  -- nothing is stored for a bad name, and otherwise the name has the length of `m`
  cases hname : underscores (some m) with
  | none =>
    refine ⟨⟨?_, fun h => absurd h.1 (by simp)⟩, ⟨?_, fun h => absurd h.1 (by simp)⟩⟩
    · rintro ⟨dep, hrun, _⟩
      have := congrArg (fun c => c.softdeps.length) (Except.ok.inj hrun)
      simp at this
    · rintro ⟨dep, hrun, _⟩
      have := congrArg (fun c => c.weakdeps.length) (Except.ok.inj hrun)
      simp at this
  | some name =>
    have hlen : name.length = m.length := underscoresLoop_length hname
    have hzero : 0 ∉ name := underscoresLoop_nul hnul.1 hname
    have hwords : ∀ v ∈ w :: wordsOf items, 0 ∉ v := hnul.2
    have hsoft := addSoftdep_words_iff config name hlead hspaced hwords hzero (b := b)
    have hweak := addWeakdep_words_iff config name hlead hspaced hwords
    simp only [SoftdepFits, softdepSize, WeakdepFits, hlen] at hsoft hweak
    simp only [Option.elim_some, Option.isSome_some, true_and, SoftdepFits,
      softdepSize, WeakdepFits,
      ne_eq, htwo]
    exact ⟨hsoft, hweak⟩

/-- One blank, then one word under each keyword, with a tab between the words. -/
theorem kmodConfigParseLine_words_pair :
    (∃ dep, kmodConfigParseLine emptyConfig (cstr "softdep m pre: a\tpost: b ")
          = .ok { emptyConfig with softdeps := [dep] } ∧
        dep.softdep.pre = [cstr "a"] ∧ dep.softdep.post = [cstr "b"]) ∧
      ∃ dep, kmodConfigParseLine emptyConfig (cstr "weakdep m pre: a\tpost: b ")
          = .ok { emptyConfig with weakdeps := [dep] } ∧
        dep.words = [cstr "pre:", cstr "a", cstr "post:", cstr "b"] := by
  have hwords : ∀ w ∈ [cstr "pre:", cstr "a", cstr "post:", cstr "b"], IsWord w := by
    unfold IsWord
    decide
  obtain ⟨hsoft, hweak⟩ := kmodConfigParseLine_words_iff emptyConfig [32] (cstr "m") [32]
    [(cstr "pre:", [32]), (cstr "a", [9]), (cstr "post:", [32]), (cstr "b", [32])]
    ⟨by decide, by decide⟩ ⟨by decide, by decide⟩ ⟨by decide, by decide⟩ (by decide)
    ⟨hwords _ (by decide), by decide, by decide, hwords _ (by decide), by decide, by decide,
      hwords _ (by decide), by decide, by decide, hwords _
      (by decide), by decide, by decide, trivial⟩
    ⟨by decide, by decide⟩
  exact ⟨hsoft.mpr ⟨by decide, ⟨by decide, by decide⟩, fun h => absurd h.1 (by decide)⟩,
    hweak.mpr ⟨by decide, ⟨by decide, by decide⟩, by decide⟩⟩

/-- With two blanks before a keyword the words under it are lost, and a word gets a blank. -/
theorem kmodConfigParseLine_words_two_blanks :
    (∃ dep, kmodConfigParseLine emptyConfig (cstr "softdep m  pre: a")
          = .ok { emptyConfig with softdeps := [dep] } ∧
        dep.softdep.pre = [] ∧
        wordsUnder (cstr "pre:") [] [cstr "pre:", cstr "a"] = [cstr "a"]) ∧
      ∃ dep, kmodConfigParseLine emptyConfig (cstr "weakdep m  a")
          = .ok { emptyConfig with weakdeps := [dep] } ∧
        dep.words = [cstr " a"] ∧ dep.words ≠ [cstr "a"] := by
  refine ⟨⟨⟨cstr "m" ++ [0], [], []⟩, ?_, ?_, ?_⟩,
    ⟨⟨cstr "m" ++ [0] ++ cstr " a" ++ [0], [2]⟩, ?_, ?_, ?_⟩⟩
  · decide
  · decide
  · decide
  · decide
  · decide
  · decide

end Kmod
