import Kmod.Modprobe.OptionsEnv

/-!
# The pieces of a variable

What `MODPROBE_OPTIONS` is meant to say: the variable is divided at the spaces that are
not between quotes, and the quotes themselves are no part of a piece. The scan does this
for quotes within a piece. At the start of a piece it takes a quoted text for a whole
piece, whatever follows: `"a"b` becomes two pieces, and behind the quoted text of
`"a b" c` comes an empty one.

An opening quote at the start of a piece therefore has to be closed by the last character
of the variable, and something has to stand in between. If that is so the pieces are
right (`readWords_eq_pieces_iff`). Otherwise there are too many of them, which is why
they cannot be right by chance: from the first such quote on the scan is ahead by a piece
and never falls back (`length_pieces_le`).
-/

namespace Kmod.OptionsEnv

open Kmod.Bytes

/-! ## What the variable says -/

def IsQuote (c : UInt8) : Prop := c = 34 ∨ c = 39

instance (c : UInt8) : Decidable (IsQuote c) := inferInstanceAs (Decidable (c = 34 ∨ c = 39))

/-- A text in which every quote is closed. -/
inductive Closed : CStr → Prop where
  | nil : Closed []
  | char {c : UInt8} {rest : CStr} : ¬ IsQuote c → Closed rest → Closed (c :: rest)
  | quoted {q : UInt8} {body rest : CStr} : IsQuote q → q ∉ body → Closed rest →
      Closed (q :: (body ++ q :: rest))

/--
The characters without the quotes, where a space outside quotes becomes `none`; the first
argument is the quote that is open.
-/
def unquoted : Option UInt8 → CStr → List (Option UInt8)
  | _, [] => []
  | none, c :: rest =>
    if c = 32 then none :: unquoted none rest
    else if IsQuote c then unquoted (some c) rest
    else some c :: unquoted none rest
  | some q, c :: rest => if c = q then unquoted none rest else some c :: unquoted (some q) rest

/-- A last piece of length zero is left out. -/
def dropLastEmpty (pieces : List CStr) : List CStr :=
  if pieces.getLast? = some [] then pieces.dropLast else pieces

/-- The pieces of a text whose characters are given, with `none` between them. -/
def piecesOf (chars : List (Option UInt8)) : List CStr :=
  dropLastEmpty ((chars.splitOn none).map (·.filterMap id))

/-- The pieces of the variable. -/
def pieces (env : CStr) : List CStr := piecesOf (unquoted none env)

/--
A quote that opens at the start of a piece encloses a text that is not empty, and is closed
by the last character. `start` says whether a piece starts at the front of the text.
-/
def OpeningsFit (start : Prop) (rest : CStr) : Prop :=
  ∀ a q b, rest = a ++ q :: b → Closed a → IsQuote q → (a = [] → start) →
    (a ≠ [] → a.getLast? = some 32) → ∃ body, b = body ++ [q] ∧ q ∉ body ∧ body ≠ []

/-! ## Pieces from left to right -/

theorem dropLastEmpty_cons (p : CStr) {l : List CStr} (h : l ≠ []) :
    dropLastEmpty (p :: l) = p :: dropLastEmpty l := by
  cases l with
  | nil => exact absurd rfl h
  | cons q l =>
    unfold dropLastEmpty
    rw [List.getLast?_cons_cons]
    split
    · rfl
    · rfl

theorem filterMap_id_map_some (cur : CStr) : (cur.map some).filterMap id = cur := by
  rw [List.filterMap_map]
  exact List.filterMap_some

theorem none_not_mem_map_some (cur : CStr) : none ∉ cur.map some := by
  intro h
  obtain ⟨c, -, hc⟩ := List.mem_map.mp h
  cases hc

/-- A piece that is the last one. -/
theorem piecesOf_map_some (cur : CStr) :
    piecesOf (cur.map some) = if cur = [] then [] else [cur] := by
  unfold piecesOf
  rw [List.splitOn_eq_singleton (none_not_mem_map_some cur), List.map_singleton,
    filterMap_id_map_some]
  unfold dropLastEmpty
  split
  · next h =>
    rw [if_pos (by simpa using h)]
    rfl
  · next h => rw [if_neg (by simpa using h)]

/-- A piece that ends. -/
theorem piecesOf_append_none (cur : CStr) (more : List (Option UInt8)) :
    piecesOf (cur.map some ++ none :: more) = cur :: piecesOf more := by
  unfold piecesOf
  rw [List.splitOn_append_cons_self_of_not_mem (none_not_mem_map_some cur), List.map_cons,
    filterMap_id_map_some, dropLastEmpty_cons]
  exact fun h => List.splitOn_ne_nil none more (List.map_eq_nil_iff.mp h)

theorem unquoted_char {c : UInt8} (hspace : c ≠ 32) (hquote : ¬ IsQuote c) (rest : CStr) :
    unquoted none (c :: rest) = some c :: unquoted none rest := by
  rw [unquoted, if_neg hspace, if_neg hquote]

theorem unquoted_body {q : UInt8} {body : CStr} (hbody : q ∉ body) (rest : CStr) :
    unquoted (some q) (body ++ q :: rest) = body.map some ++ unquoted none rest := by
  induction body with
  | nil => rw [List.nil_append, unquoted, if_pos rfl, List.map_nil, List.nil_append]
  | cons c body ih =>
    obtain ⟨hc, hbody⟩ := not_or.mp (fun h => hbody (List.mem_cons.mpr h))
    rw [List.cons_append, unquoted, if_neg (Ne.symm hc), ih hbody]
    rfl

theorem IsQuote.ne_space {q : UInt8} (hq : IsQuote q) : q ≠ 32 := by
  rintro rfl
  rcases hq with hq | hq <;> cases hq

theorem unquoted_quoted {q : UInt8} {body : CStr} (hq : IsQuote q) (hbody : q ∉ body)
    (rest : CStr) :
    unquoted none (q :: (body ++ q :: rest)) = body.map some ++ unquoted none rest := by
  rw [unquoted, if_neg hq.ne_space, if_pos hq, unquoted_body hbody]

/-- The pieces of the rest, where `cur` has been read of the current one. -/
def piecesFrom (cur rest : CStr) : List CStr := piecesOf (cur.map some ++ unquoted none rest)

theorem piecesFrom_nil (cur : CStr) : piecesFrom cur [] = if cur = [] then [] else [cur] := by
  unfold piecesFrom
  rw [unquoted, List.append_nil, piecesOf_map_some]

theorem piecesFrom_space (cur rest : CStr) :
    piecesFrom cur (32 :: rest) = cur :: piecesFrom [] rest := by
  unfold piecesFrom
  rw [unquoted, if_pos rfl, piecesOf_append_none]
  rfl

theorem piecesFrom_char {c : UInt8} (hspace : c ≠ 32) (hquote : ¬ IsQuote c) (cur rest : CStr) :
    piecesFrom cur (c :: rest) = piecesFrom (cur ++ [c]) rest := by
  unfold piecesFrom
  rw [unquoted_char hspace hquote, List.map_append, List.append_assoc]
  rfl

theorem piecesFrom_quoted {q : UInt8} {body : CStr} (hq : IsQuote q) (hbody : q ∉ body)
    (cur rest : CStr) :
    piecesFrom cur (q :: (body ++ q :: rest)) = piecesFrom (cur ++ body) rest := by
  unfold piecesFrom
  rw [unquoted_quoted hq hbody, List.map_append, List.append_assoc]

/-! ## The words of the scan -/

theorem readWords_char {c : UInt8} (hspace : c ≠ 32) (hquote : ¬ IsQuote c) (cur rest : CStr) :
    readWords none cur (c :: rest) = readWords none (cur ++ [c]) rest := by
  rw [readWords, if_neg hspace, if_neg (show ¬ (c = 34 ∨ c = 39) from hquote)]

theorem readWords_quoted {q : UInt8} {body : CStr} (hq : IsQuote q) (hbody : q ∉ body)
    (cur rest : CStr) :
    readWords none cur (q :: (body ++ q :: rest)) =
      if cur = [] then body :: readWords none [] rest else readWords none (cur ++ body) rest := by
  rw [readWords, if_neg hq.ne_space, if_pos (show q = 34 ∨ q = 39 from hq), readWords_closed hbody,
    List.nil_append]

/-- There are never fewer words than pieces, also when the scan has just ended a word too early. -/
theorem length_pieces_le {rest : CStr} (h : Closed rest) :
    ∀ cur cur' : CStr, (rest = [] → cur = [] → cur' = []) →
      (piecesFrom cur' rest).length ≤ (readWords none cur rest).length := by
  induction h with
  | nil =>
    intro cur cur' hcur
    rw [piecesFrom_nil, readWords]
    by_cases hnil : cur = []
    · rw [hcur rfl hnil, if_pos rfl]
      exact Nat.zero_le _
    · rw [if_neg hnil]
      split
      · exact Nat.zero_le _
      · exact Nat.le_refl _
  | @char c rest hquote hrest ih =>
    intro cur cur' _
    by_cases hspace : c = 32
    · subst hspace
      rw [piecesFrom_space, readWords, if_pos rfl, List.length_cons, List.length_cons]
      exact Nat.succ_le_succ (ih [] [] (fun _ _ => rfl))
    · rw [piecesFrom_char hspace hquote, readWords_char hspace hquote]
      exact ih _ _ (fun _ hnil => absurd hnil (by simp))
  | @quoted q body rest hq hbody hrest ih =>
    intro cur cur' _
    rw [piecesFrom_quoted hq hbody, readWords_quoted hq hbody]
    by_cases hnil : cur = []
    · rw [if_pos hnil, List.length_cons]
      by_cases hend : rest = []
      · rw [hend, piecesFrom_nil]
        split
        · exact Nat.zero_le _
        · exact Nat.le_add_left _ _
      · exact Nat.le_succ_of_le (ih _ _ (fun h _ => absurd h hend))
    · rw [if_neg hnil]
      exact ih _ _ (fun _ happend => absurd (List.append_eq_nil_iff.mp happend).1 hnil)

/-! ## When they are the same -/

section OpeningsFit

variable {start : Prop} {rest : CStr}

theorem openingsFit_nil (start : Prop) : OpeningsFit start [] := by
  intro a q b hab
  simp at hab

theorem getLast?_append_cons {α : Type} (a : List α) (c : α) {b : List α} (hb : b ≠ []) :
    (a ++ c :: b).getLast? = b.getLast? := by
  rw [← List.singleton_append, ← List.append_assoc, List.getLast?_append_of_ne_nil _ hb]

/-- Behind a character that is no quote, a piece starts if it was a space. -/
theorem openingsFit_char {c : UInt8} (hquote : ¬ IsQuote c) :
    OpeningsFit start (c :: rest) ↔ OpeningsFit (c = 32) rest := by
  constructor
  · intro h a q b hab ha hq hstart hlast
    refine h (c :: a) q b (by rw [hab]; rfl) (.char hquote ha) hq (fun hnil => absurd hnil (by simp)) ?_
    intro _
    by_cases hnil : a = []
    · rw [hnil, hstart hnil]
      rfl
    · rw [← hlast hnil]
      exact getLast?_append_cons [] c hnil
  · intro h a q b hab ha hq _ hlast
    cases ha with
    | nil => exact absurd ((List.cons.inj hab).1 ▸ hq) hquote
    | @char d a hd ha =>
      rw [List.cons_append, List.cons_eq_cons] at hab
      obtain ⟨rfl, hab⟩ := hab
      refine h a q b hab ha hq (fun hnil => ?_) (fun hne => ?_)
      · have := hlast (by simp)
        rw [hnil] at this
        exact Option.some.inj this
      · rw [← hlast (by simp)]
        exact (getLast?_append_cons [] c hne).symm
    | quoted hd _ _ => exact absurd ((List.cons.inj hab).1 ▸ hd) hquote

/-- Behind a quoted text no piece starts. -/
theorem openingsFit_quoted {q : UInt8} {body : CStr} (hq : IsQuote q) (hbody : q ∉ body) :
    OpeningsFit start (q :: (body ++ q :: rest)) ↔
      (start → rest = [] ∧ body ≠ []) ∧ OpeningsFit False rest := by
  constructor
  · intro h
    refine ⟨fun hstart => ?_, fun a q' b hab ha hq' hfront hlast => ?_⟩
    · obtain ⟨body', heq, hbody', hne⟩ :=
        h [] q (body ++ q :: rest) rfl .nil hq (fun _ => hstart) (fun hnil => absurd rfl hnil)
      obtain ⟨rfl, hrest⟩ := delimiter_inj hbody hbody' heq
      exact ⟨hrest, hne⟩
    · refine h (q :: (body ++ q :: a)) q' b (by rw [hab]; simp) (.quoted hq hbody ha) hq'
        (fun hnil => absurd hnil (by simp)) (fun _ => ?_)
      rw [← hlast hfront]
      exact getLast?_append_cons (q :: body) q hfront
  · rintro ⟨hfront, h⟩ a q' b hab ha hq' hstart hlast
    cases ha with
    | nil =>
      obtain ⟨rfl, rfl⟩ := List.cons.inj hab
      obtain ⟨rfl, hne⟩ := hfront (hstart rfl)
      exact ⟨body, rfl, hbody, hne⟩
    | char hd _ => exact absurd ((List.cons.inj hab).1 ▸ hq) hd
    | @quoted d body' a hd hbody' ha =>
      rw [List.cons_append, List.cons_eq_cons, List.append_assoc, List.cons_append] at hab
      obtain ⟨rfl, hab⟩ := hab
      obtain ⟨rfl, hbehind⟩ := delimiter_inj hbody hbody' hab
      have hne : a ≠ [] := by
        rintro rfl
        have hspace := hlast (by simp)
        rw [← List.cons_append, List.getLast?_concat] at hspace
        exact hq.ne_space (Option.some.inj hspace)
      refine h a q' b hbehind ha hq' hne (fun _ => ?_)
      rw [← hlast (by simp)]
      exact (getLast?_append_cons (q :: body) q hne).symm

end OpeningsFit

/-- **The scan reads the pieces just if the quotes at the start of pieces fit.** -/
theorem readWords_eq_pieces_iff {rest : CStr} (h : Closed rest) :
    ∀ cur : CStr, readWords none cur rest = piecesFrom cur rest ↔ OpeningsFit (cur = []) rest := by
  induction h with
  | nil =>
    intro cur
    rw [piecesFrom_nil, readWords]
    exact iff_of_true rfl (openingsFit_nil _)
  | @char c rest hquote hrest ih =>
    intro cur
    rw [openingsFit_char hquote]
    by_cases hspace : c = 32
    · subst hspace
      rw [piecesFrom_space, readWords, if_pos rfl, List.cons_inj_right, ih []]
      exact iff_of_eq (congrArg (OpeningsFit · rest) (by simp))
    · rw [piecesFrom_char hspace hquote, readWords_char hspace hquote, ih]
      exact iff_of_eq (congrArg (OpeningsFit · rest) (by simp [hspace]))
  | @quoted q body rest hq hbody hrest ih =>
    intro cur
    rw [openingsFit_quoted hq hbody, piecesFrom_quoted hq hbody, readWords_quoted hq hbody]
    by_cases hnil : cur = []
    · rw [if_pos hnil, hnil, List.nil_append]
      by_cases hend : rest = []
      · subst hend
        rw [piecesFrom_nil, readWords, if_pos rfl]
        by_cases hempty : body = []
        · simp [hempty]
        · simp [hempty, openingsFit_nil]
      · -- the scan is ahead by a word
        have hle := length_pieces_le hrest [] body (fun h => absurd h hend)
        refine iff_of_false (fun heq => ?_) (fun hfit => hend (hfit.1 rfl).1)
        rw [← heq, List.length_cons] at hle
        omega
    · have hne : cur ++ body ≠ [] := fun happend => hnil (List.append_eq_nil_iff.mp happend).1
      rw [if_neg hnil, ih]
      simp [hnil, hne]

/-- There is a piece behind each space at most, and one in front. -/
theorem length_piecesFrom_le {rest : CStr} (h : Closed rest) :
    ∀ cur : CStr, (piecesFrom cur rest).length ≤ rest.count 32 + 1 := by
  induction h with
  | nil =>
    intro cur
    rw [piecesFrom_nil]
    split
    · exact Nat.zero_le _
    · exact Nat.le_refl _
  | @char c rest hquote hrest ih =>
    intro cur
    by_cases hspace : c = 32
    · subst hspace
      rw [piecesFrom_space, List.length_cons, List.count_cons_self]
      exact Nat.succ_le_succ (ih [])
    · rw [piecesFrom_char hspace hquote, List.count_cons_of_ne hspace]
      exact ih _
  | @quoted q body rest hq hbody hrest ih =>
    intro cur
    rw [piecesFrom_quoted hq hbody, List.count_cons_of_ne hq.ne_space, List.count_append,
      List.count_cons_of_ne hq.ne_space]
    have := ih (cur ++ body)
    omega

/-- The empty variable needs a byte for its NUL, and gets none. -/
theorem prependOptionsFromEnv_nil (junk : Nat → UInt8) (argv0 : CStr) (args : List CStr) :
    prependOptionsFromEnv junk (some []) argv0 args = .error .outOfBounds := rfl

/--
**When the variable is read as it is meant.** For a variable in which every quote is
closed, the arguments are its pieces in front of the old arguments, and no pointer is
stored over the text, just if the variable is not empty and the quotes at the start of
its pieces fit.
-/
theorem prependOptionsFromEnv_pieces_iff (junk : Nat → UInt8) {env : CStr} (hnul : 0 ∉ env)
    (hclosed : Closed env) (argv0 : CStr) (args : List CStr) :
    prependOptionsFromEnv junk (some env) argv0 args = .ok (argv0 :: (pieces env ++ args)) ↔
      env ≠ [] ∧ OpeningsFit True env := by
  have hiff := readWords_eq_pieces_iff hclosed []
  have hlen := length_piecesFrom_le hclosed []
  rw [show (([] : CStr) = []) = True from eq_true rfl] at hiff
  rw [show piecesFrom [] env = pieces env from rfl] at hiff hlen
  by_cases hne : env = []
  · rw [hne, prependOptionsFromEnv_nil]
    exact iff_of_false (fun h => by cases h) (fun h => h.1 rfl)
  · rw [prependOptionsFromEnv_eq junk hnul hne, ← hiff]
    split
    · rw [Except.ok.injEq, List.cons_inj_right, List.append_cancel_right_eq]
      exact (and_iff_right hne).symm
    · next hroom =>
      refine iff_of_false (fun h => by cases h) (fun h => hroom ?_)
      rw [h.2]
      omega

/-- A text without quotes in front. -/
theorem Closed.append {w rest : CStr} (hw : ∀ c ∈ w, ¬ IsQuote c) (h : Closed rest) :
    Closed (w ++ rest) := by
  induction w with
  | nil => exact h
  | cons c w ih =>
    exact .char (hw c List.mem_cons_self) (ih (fun c hc => hw c (List.mem_cons_of_mem _ hc)))

/-- A piece with quotes within it, and a quoted piece at the end. -/
def fittingEnv : CStr := cstr "-d /my' 'root \"-C x\""

theorem closed_fittingEnv : Closed fittingEnv := by
  have hlast : Closed (34 :: (cstr "-C x" ++ 34 :: [])) := .quoted (by decide) (by decide) .nil
  have hroot : Closed (cstr "root " ++ _) := .append (by decide) hlast
  have hquoted : Closed (39 :: (cstr " " ++ 39 :: _)) := .quoted (by decide) (by decide) hroot
  have henv : Closed (cstr "-d /my" ++ _) := .append (by decide) hquoted
  exact henv

theorem prependOptionsFromEnv_pieces_iff_fitting :
    pieces fittingEnv = [cstr "-d", cstr "/my root", cstr "-C x"] ∧
      (prependOptionsFromEnv (fun _ => 0) (some fittingEnv) (cstr "modprobe") [cstr "loop"] =
          .ok (cstr "modprobe" :: (pieces fittingEnv ++ [cstr "loop"])) ↔
        fittingEnv ≠ [] ∧ OpeningsFit True fittingEnv) ∧
      OpeningsFit True fittingEnv := by
  have hiff := prependOptionsFromEnv_pieces_iff (fun _ => 0) (show 0 ∉ fittingEnv by decide)
    closed_fittingEnv (cstr "modprobe") [cstr "loop"]
  have hpieces : pieces fittingEnv = [cstr "-d", cstr "/my root", cstr "-C x"] := by decide
  refine ⟨hpieces, hiff, (hiff.mp ?_).2⟩
  rw [hpieces]
  decide +kernel

/-- Behind a quoted text and a space there is an empty argument that nobody gave. -/
theorem quoted_piece_divided :
    Closed (cstr "\"a b\" c") ∧
      prependOptionsFromEnv (fun _ => 0) (some (cstr "\"a b\" c")) (cstr "modprobe") [cstr "loop"] =
        .ok [cstr "modprobe", cstr "a b", [], cstr "c", cstr "loop"] ∧
      pieces (cstr "\"a b\" c") = [cstr "a b", cstr "c"] ∧
      prependOptionsFromEnv (fun _ => 0) (some (cstr "\"a b\" c")) (cstr "modprobe") [cstr "loop"] ≠
        .ok (cstr "modprobe" :: (pieces (cstr "\"a b\" c") ++ [cstr "loop"])) := by
  have hrest : Closed (cstr " c" ++ []) := .append (by decide) .nil
  have henv : Closed (34 :: (cstr "a b" ++ 34 :: _)) := .quoted (by decide) (by decide) hrest
  exact ⟨henv, by decide, by decide, by decide⟩

end Kmod.OptionsEnv
