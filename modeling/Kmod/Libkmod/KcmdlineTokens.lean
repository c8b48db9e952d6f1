import Kmod.Libkmod.Kcmdline

/-!
# The grammar of the kernel command line

What is between two blanks outside of quotes is a token. The parser reads a token as
`Scan` says, whatever it read before, and what a token gives depends on the token
alone (`tokenResult`). The buffer behind the character at hand is as it was read, and
`Reading` says what is in front of it: the token, with a NUL for the dot.

A token that begins with a quote can only be completed with a value, so the value
that is moved behind the quote is never that of an earlier token; and an option
without a value does not begin with `blacklist=`, so its stale value is not used.
-/

namespace Kmod

open Kmod.Bytes Kmod.Memory

/-! ## Tokens -/

/--
The pieces of a command line, of which `tok` was read
already; one with an open quote is dropped.
-/
def pieces : Bool → CStr → CStr → List CStr
  | quoted, tok, [] => if quoted then [] else [tok]
  | quoted, tok, c :: line =>
    if isspace c ∧ !quoted then tok :: pieces false [] line
    else pieces (quoted != (c = 34)) (tok ++ [c]) line

/-- The tokens of a command line. -/
def kcmdlineTokens (line : CStr) : List CStr := (pieces false [] line).filter (· ≠ [])

/-- The characters of module names and options. -/
def nameChar (c : UInt8) : Bool := c ≠ 46 && c ≠ 61 && c ≠ 34 && !isspace c

/-- The characters are free of dots, equals signs, quotes and blanks. -/
def IsName (s : CStr) : Prop := ∀ c ∈ s, nameChar c = true

/-- A quote, or nothing. -/
def quoteText (quote : Bool) : CStr := if quote then [34] else []

/-- The tokens that give a result: `M.P`, `M.P=V`, and `"M.P=V`. -/
inductive GivesResult : CStr → CStr × CStr → Prop where
  | option {M P : CStr} : IsName M → IsName P → GivesResult (M ++ 46 :: P) (M, P)
  | value {M P : CStr} (V : CStr) : IsName M → IsName P →
      GivesResult (M ++ 46 :: (P ++ 61 :: V)) (M, P ++ 61 :: V)
  | quoted {M P : CStr} (V : CStr) : IsName M → IsName P →
      GivesResult (34 :: (M ++ 46 :: (P ++ 61 :: V))) (M, P ++ 61 :: 34 :: V)

/-! ## Reading a token -/

/--
What has been read of a token: module name, option and value; `quote` if it began with a quote.
-/
inductive Scan where
  | ignore
  | modname (quote : Bool) (M : CStr)
  | param (quote : Bool) (M P : CStr)
  | value (quote : Bool) (M P V : CStr)

/-- One more character of the token. -/
def Scan.next : Scan → UInt8 → Scan
  | .ignore, _ => .ignore
  | .modname quote M, c =>
    if c = 34 then if M = [] ∧ !quote then .modname true [] else .ignore
    else if c = 46 then .param quote M []
    else if nameChar c then .modname quote (M ++ [c])
    else .ignore
  | .param quote M P, c =>
    if c = 61 then .value quote M P []
    else if nameChar c then .param quote M (P ++ [c])
    else .ignore
  | .value quote M P V, c => .value quote M P (V ++ [c])

/-- Module name and option text of a token that has been read. -/
def Scan.result : Scan → Option (CStr × CStr)
  | .param false M P => some (M, P)
  | .value quote M P V => some (M, P ++ 61 :: (quoteText quote ++ V))
  | _ => none

/-- What a token gives. -/
def tokenResult (tok : CStr) : Option (CStr × CStr) :=
  (tok.foldl Scan.next (.modname false [])).result

theorem foldl_value (quote : Bool) (M P s : CStr) :
    ∀ V, s.foldl Scan.next (.value quote M P V) = .value quote M P (V ++ s) := by
  induction s with
  | nil => intro V; simp
  | cons c s ih => intro V; exact (ih (V ++ [c])).trans (by simp)

theorem foldl_param {quote : Bool} {M s : CStr} (hs : IsName s) :
    ∀ P, s.foldl Scan.next (.param quote M P) = .param quote M (P ++ s) := by
  induction s with
  | nil => intro P; simp
  | cons c s ih =>
    intro P
    have hc : nameChar c = true := hs c (List.mem_cons_self ..)
    have hne : c ≠ 61 := by
      rintro rfl
      exact absurd hc (by decide)
    rw [List.foldl_cons, Scan.next, if_neg hne, if_pos hc,
      ih (fun d hd => hs d (List.mem_cons_of_mem _ hd))]
    simp

theorem foldl_modname {quote : Bool} {s : CStr} (hs : IsName s) :
    ∀ M, s.foldl Scan.next (.modname quote M) = .modname quote (M ++ s) := by
  induction s with
  | nil => intro M; simp
  | cons c s ih =>
    intro M
    have hc : nameChar c = true := hs c (List.mem_cons_self ..)
    have hquote : c ≠ 34 := by
      rintro rfl
      exact absurd hc (by decide)
    have hdot : c ≠ 46 := by
      rintro rfl
      exact absurd hc (by decide)
    rw [List.foldl_cons, Scan.next, if_neg hquote, if_neg hdot, if_pos hc,
      ih (fun d hd => hs d (List.mem_cons_of_mem _ hd))]
    simp

/-- What a scan says about the text that was read. -/
inductive ScanOf : CStr → Scan → Prop where
  | ignore (tok : CStr) : ScanOf tok .ignore
  | modname (quote : Bool) {M : CStr} : IsName M → ScanOf (quoteText quote ++ M) (.modname quote M)
  | param (quote : Bool) {M P : CStr} : IsName M → IsName P →
      ScanOf (quoteText quote ++ (M ++ 46 :: P)) (.param quote M P)
  | value (quote : Bool) {M P : CStr} (V : CStr) : IsName M → IsName P →
      ScanOf (quoteText quote ++ (M ++ 46 :: (P ++ 61 :: V))) (.value quote M P V)

theorem isName_concat {s : CStr} {c : UInt8} (hs : IsName s) (hc : nameChar c = true) :
    IsName (s ++ [c]) := by
  intro d hd
  rcases List.mem_append.mp hd with hd | hd
  · exact hs d hd
  · rw [List.mem_singleton.mp hd]
    exact hc

theorem isName_nil : IsName [] := fun c hc => absurd hc (by simp)

theorem scanOf_next {tok : CStr} {scan : Scan} (h : ScanOf tok scan) (c : UInt8) :
    ScanOf (tok ++ [c]) (scan.next c) := by
  cases h with
  | ignore tok => exact .ignore _
  | @modname quote M hM =>
    rw [Scan.next]
    split
    · next hc =>
      split
      · next hfirst =>
        obtain ⟨rfl, hquote⟩ := hfirst
        obtain rfl : quote = false := by simpa using hquote
        rw [hc]
        exact .modname true isName_nil
      · exact .ignore _
    · split
      · next hc =>
        rw [hc, List.append_assoc]
        exact .param quote hM isName_nil
      · split
        · next hc =>
          rw [List.append_assoc]
          exact .modname quote (isName_concat hM hc)
        · exact .ignore _
  | @param quote M P hM hP =>
    rw [Scan.next]
    split
    · next hc =>
      have := ScanOf.value quote [] hM hP
      simpa [hc] using this
    · split
      · next hc =>
        have := ScanOf.param quote hM (isName_concat hP hc)
        simpa using this
      · exact .ignore _
  | @value quote M P V hM hP =>
    have := ScanOf.value quote (V ++ [c]) hM hP
    simpa [Scan.next] using this

theorem scanOf_foldl (s : CStr) :
    ∀ {tok : CStr} {scan : Scan}, ScanOf tok scan → ScanOf (tok ++ s) (s.foldl Scan.next scan) := by
  induction s with
  | nil => intro tok scan h; simpa using h
  | cons c s ih =>
    intro tok scan h
    have := ih (scanOf_next h c)
    simpa using this

/-- **Which tokens give a result.** -/
theorem tokenResult_iff (tok : CStr) (r : CStr × CStr) :
    tokenResult tok = some r ↔ GivesResult tok r := by
  unfold tokenResult
  refine ⟨fun h => ?_, fun h => ?_⟩
  · have hscan := scanOf_foldl tok (.modname false isName_nil)
    rw [show quoteText false ++ [] ++ tok = tok from rfl] at hscan
    generalize tok.foldl Scan.next (.modname false []) = scan at h hscan
    cases hscan with
    | ignore => cases h
    | modname quote hM => cases h
    | param quote hM hP =>
      cases quote with
      | true => cases h
      | false =>
        obtain rfl := Option.some.inj h
        exact .option hM hP
    | value quote V hM hP =>
      obtain rfl := Option.some.inj h
      cases quote with
      | true => exact .quoted V hM hP
      | false => exact .value V hM hP
  · cases h with
    | option hM hP =>
      rw [List.foldl_append, foldl_modname hM, List.foldl_cons]
      show (List.foldl Scan.next (.param false _ []) _).result = _
      rw [foldl_param hP]
      rfl
    | value V hM hP =>
      rw [List.foldl_append, foldl_modname hM, List.foldl_cons]
      show (List.foldl Scan.next (.param false _ []) _).result = _
      rw [List.foldl_append, foldl_param hP, List.foldl_cons]
      show (List.foldl Scan.next (.value false _ _ []) _).result = _
      rw [foldl_value]
      rfl
    | quoted V hM hP =>
      rw [List.foldl_cons]
      show (List.foldl Scan.next (.modname true []) _).result = _
      rw [List.foldl_append, foldl_modname hM, List.foldl_cons]
      show (List.foldl Scan.next (.param true _ []) _).result = _
      rw [List.foldl_append, foldl_param hP, List.foldl_cons]
      show (List.foldl Scan.next (.value true _ _ []) _).result = _
      rw [foldl_value]
      rfl

/-! ## What the parser keeps of a token -/

/-- The parser inside of a token that begins behind `a` and of which the buffer holds `seg`. -/
def Reading (a seg : List UInt8) (st : KcmdlineState) : Scan → Prop
  | .ignore => st.state = .ignore
  | .modname quote M =>
    st.state = .modname ∧ st.isQuoted = quote ∧ seg = quoteText quote ++ M ∧
      st.modname = a.length + (quoteText quote).length ∧
      st.pQuoteStart = (if quote then some a.length else none)
  | .param quote M P =>
    st.state = .param ∧ st.isQuoted = quote ∧ seg = quoteText quote ++ (M ++ 0 :: P) ∧
      st.modname = a.length + (quoteText quote).length ∧
      st.pQuoteStart = (if quote then some a.length else none) ∧
      st.param = some (a.length + (quoteText quote).length + (M.length + 1))
  | .value quote M P V =>
    st.state = .value ∧ seg = quoteText quote ++ (M ++ 0 :: (P ++ 61 :: V)) ∧
      st.modname = a.length + (quoteText quote).length ∧
      st.pQuoteStart = (if quote then some a.length else none) ∧
      st.param = some (a.length + (quoteText quote).length + (M.length + 1)) ∧
      st.value = some (a.length + (quoteText quote).length + (M.length + 1) + (P.length + 1))

theorem nameChar_iff {c : UInt8} :
    nameChar c = true ↔ c ≠ 46 ∧ c ≠ 61 ∧ c ≠ 34 ∧ isspace c = false := by
  simp [nameChar, and_assoc]

section Char

variable (p : Nat) (st : KcmdlineState)

theorem kcmdlineChar_dot : kcmdlineChar p 46 st =
    if st.state = .modname then
      { st with buf := st.buf.set p 0, param := some (p + 1), state := .param }
    else if st.state = .param then { st with state := .ignore } else st := rfl

theorem kcmdlineChar_equals : kcmdlineChar p 61 st =
    if st.state = .param then { st with value := some (p + 1), state := .value }
    else if st.state = .modname then { st with state := .ignore } else st := rfl

/-- A blank or the end, inside of quotes. -/
theorem kcmdlineChar_blank {c : UInt8} (hend : c = 0 ∨ isspace c = true)
    (hquoted : st.isQuoted = true) :
    kcmdlineChar p c st = if st.state = .value then st else { st with state := .ignore } := by
  have hne : c ≠ 34 := by
    rintro rfl
    exact absurd hend (by decide)
  unfold kcmdlineChar
  rw [if_neg hne, if_pos hend]
  simp only [hquoted, true_and, if_true]

/-- A blank or the end, outside of quotes. -/
theorem kcmdlineChar_end {c : UInt8} (hend : c = 0 ∨ isspace c = true)
    (hquoted : st.isQuoted = false) :
    kcmdlineChar p c st =
      if st.state = .value ∨ st.state = .param then
        { st with buf := st.buf.set p 0, state := .complete }
      else { st with modname := p + 1, state := .modname, pQuoteStart := none } := by
  have hne : c ≠ 34 := by
    rintro rfl
    exact absurd hend (by decide)
  unfold kcmdlineChar
  rw [if_neg hne, if_pos hend]
  simp only [hquoted, Bool.false_eq_true, false_and, if_false]

theorem kcmdlineChar_name {c : UInt8} (hname : nameChar c = true) (h0 : c ≠ 0) :
    kcmdlineChar p c st = st := by
  obtain ⟨h1, h2, h3, h4⟩ := nameChar_iff.mp hname
  unfold kcmdlineChar
  rw [if_neg h3, if_neg (by simp [h0, h4]), if_neg h1, if_neg h2]

end Char

/-- The parser has read one more character of a token, which went into the buffer. -/
structure Continues (a seg rest : List UInt8) (c : UInt8) (st st' : KcmdlineState) (scan : Scan)
    (c' : UInt8) : Prop where
  reading : Reading a (seg ++ [c']) st' scan
  buf : st'.buf = a ++ ((seg ++ [c']) ++ rest)
  isQuoted : st'.isQuoted = (st.isQuoted != (c = 34))
  state : st'.state ≠ .complete
  config : st'.config = st.config

theorem continues_ignore {a seg rest : List UInt8} {st : KcmdlineState} {c : UInt8}
    (hbuf : st.buf = a ++ (seg ++ c :: rest)) (hne : c ≠ 34) :
    Continues a seg rest c st { st with state := .ignore } .ignore c :=
  ⟨rfl, by simp [hbuf], by simp [hne], by simp, rfl⟩

section Next

variable {a seg rest : List UInt8} {st : KcmdlineState} {scan : Scan} {c : UInt8}
  (hread : Reading a seg st scan) (hbuf : st.buf = a ++ (seg ++ c :: rest))
include hread

theorem reading_not_complete : st.state ≠ .complete := by
  intro hstate
  cases scan with
  | ignore => exact absurd (hstate.symm.trans hread) (by decide)
  | modname quote M => exact absurd (hstate.symm.trans hread.1) (by decide)
  | param quote M P => exact absurd (hstate.symm.trans hread.1) (by decide)
  | value quote M P V => exact absurd (hstate.symm.trans hread.1) (by decide)

include hbuf

theorem continues_same (hne : c ≠ 34) {scan' : Scan} (hread' : Reading a (seg ++ [c]) st scan') :
    Continues a seg rest c st st scan' c :=
  ⟨hread', by simp [hbuf], by simp [hne], reading_not_complete hread, rfl⟩

theorem continues_blank (hspace : isspace c = true) (hquoted : st.isQuoted = true) :
    Continues a seg rest c st (kcmdlineChar (a.length + seg.length) c st) (scan.next c) c := by
  have hne : c ≠ 34 ∧ c ≠ 46 ∧ c ≠ 61 := by
    refine ⟨?_, ?_, ?_⟩
    · rintro rfl
      exact absurd hspace (by decide)
    · rintro rfl
      exact absurd hspace (by decide)
    · rintro rfl
      exact absurd hspace (by decide)
  have hname : ¬ nameChar c = true := by simp [nameChar, hspace]
  rw [kcmdlineChar_blank _ _ (.inr hspace) hquoted]
  cases scan with
  | ignore =>
    have hstate : st.state ≠ .value := by rw [show st.state = _ from hread]; decide
    rw [if_neg hstate]
    exact continues_ignore hbuf hne.1
  | modname quote M =>
    have hstate : st.state ≠ .value := by rw [hread.1]; decide
    rw [if_neg hstate, Scan.next, if_neg hne.1, if_neg hne.2.1, if_neg hname]
    exact continues_ignore hbuf hne.1
  | param quote M P =>
    have hstate : st.state ≠ .value := by rw [hread.1]; decide
    rw [if_neg hstate, Scan.next, if_neg hne.2.2, if_neg hname]
    exact continues_ignore hbuf hne.1
  | value quote M P V =>
    rw [if_pos hread.1]
    refine continues_same hread hbuf hne.1 ?_
    obtain ⟨hstate, hseg, hrest⟩ := hread
    exact ⟨hstate, by simp [hseg], hrest⟩

theorem continues_name (hname : nameChar c = true) (h0 : c ≠ 0) :
    Continues a seg rest c st (kcmdlineChar (a.length + seg.length) c st) (scan.next c) c := by
  obtain ⟨hdot, hequals, hquote, _⟩ := nameChar_iff.mp hname
  rw [kcmdlineChar_name _ _ hname h0]
  refine continues_same hread hbuf hquote ?_
  cases scan with
  | ignore => exact hread
  | modname quote M =>
    obtain ⟨hstate, hquoted, hseg, hrest⟩ := hread
    rw [Scan.next, if_neg hquote, if_neg hdot, if_pos hname]
    exact ⟨hstate, hquoted, by simp [hseg], hrest⟩
  | param quote M P =>
    obtain ⟨hstate, hquoted, hseg, hrest⟩ := hread
    rw [Scan.next, if_neg hequals, if_pos hname]
    exact ⟨hstate, hquoted, by simp [hseg], hrest⟩
  | value quote M P V =>
    obtain ⟨hstate, hseg, hrest⟩ := hread
    exact ⟨hstate, by simp [hseg], hrest⟩

end Next

section Next

variable {a seg rest : List UInt8} {st : KcmdlineState} {scan : Scan}
  (hread : Reading a seg st scan)
include hread

theorem continues_dot (hbuf : st.buf = a ++ (seg ++ 46 :: rest)) :
    ∃ c', Continues a seg rest 46 st (kcmdlineChar (a.length + seg.length) 46 st)
      (scan.next 46) c' := by
  have hset : st.buf.set (a.length + seg.length) 0 = a ++ ((seg ++ [0]) ++ rest) := by
    rw [hbuf, ← List.append_assoc, ← List.length_append, List.set_append_right _ _ (Nat.le_refl _)]
    simp
  rw [kcmdlineChar_dot]
  cases scan with
  | ignore =>
    have hstate : st.state = .ignore := hread
    rw [hstate, if_neg (by decide), if_neg (by decide)]
    exact ⟨46, continues_same hread hbuf (by decide) hread⟩
  | modname quote M =>
    obtain ⟨hstate, hquoted, hseg, hmodname, hstart⟩ := hread
    rw [if_pos hstate]
    -- the dot becomes a NUL
    refine ⟨0, ⟨⟨rfl, hquoted, ?_, hmodname, hstart, ?_⟩, hset, by simp, by simp, rfl⟩⟩
    · simp [hseg]
    · simp [hseg]
      omega
  | param quote M P =>
    rw [hread.1, if_neg (by decide), if_pos rfl]
    exact ⟨46, continues_ignore hbuf (by decide)⟩
  | value quote M P V =>
    rw [hread.1, if_neg (by decide), if_neg (by decide)]
    refine ⟨46, continues_same hread hbuf (by decide) ?_⟩
    obtain ⟨hstate, hseg, hrest⟩ := hread
    exact ⟨hstate, by simp [hseg], hrest⟩

theorem continues_equals (hbuf : st.buf = a ++ (seg ++ 61 :: rest)) :
    Continues a seg rest 61 st (kcmdlineChar (a.length + seg.length) 61 st) (scan.next 61) 61 := by
  rw [kcmdlineChar_equals]
  cases scan with
  | ignore =>
    have hstate : st.state = .ignore := hread
    rw [hstate, if_neg (by decide), if_neg (by decide)]
    exact continues_same hread hbuf (by decide) hread
  | modname quote M =>
    rw [hread.1, if_neg (by decide), if_pos rfl]
    exact continues_ignore hbuf (by decide)
  | param quote M P =>
    obtain ⟨hstate, hquoted, hseg, hmodname, hstart, hparam⟩ := hread
    rw [if_pos hstate]
    refine ⟨⟨rfl, ?_, hmodname, hstart, hparam, ?_⟩, ?_, by simp, by simp, rfl⟩
    · simp [hseg]
    · simp [hseg]
      omega
    · simp [hbuf]
  | value quote M P V =>
    rw [hread.1, if_neg (by decide), if_neg (by decide)]
    refine continues_same hread hbuf (by decide) ?_
    obtain ⟨hstate, hseg, hrest⟩ := hread
    exact ⟨hstate, by simp [hseg], hrest⟩

theorem continues_quote (hbuf : st.buf = a ++ (seg ++ 34 :: rest)) :
    Continues a seg rest 34 st (kcmdlineChar (a.length + seg.length) 34 st) (scan.next 34) 34 := by
  have hkeep : st.buf = a ++ ((seg ++ [34]) ++ rest) := by simp [hbuf]
  have hignore : st.state ≠ .value → ¬ (!st.isQuoted ∧ st.state = .modname ∧
      a.length + seg.length = st.modname) →
      Continues a seg rest 34 st (kcmdlineChar (a.length + seg.length) 34 st) .ignore 34 := by
    intro hvalue hfirst
    unfold kcmdlineChar
    rw [if_pos rfl, if_neg hfirst, if_pos hvalue]
    exact ⟨rfl, hkeep, by simp, by simp, rfl⟩
  cases scan with
  | ignore =>
    have hstate : st.state = .ignore := hread
    exact hignore (by rw [hstate]; decide) (by rw [hstate]; simp)
  | modname quote M =>
    obtain ⟨hstate, hquoted, hseg, hmodname, hstart⟩ := hread
    rw [Scan.next, if_pos rfl]
    by_cases hfirst : M = [] ∧ !quote
    · -- the quote is the first character of the token
      obtain ⟨rfl, hquote⟩ := hfirst
      obtain rfl : quote = false := by simpa using hquote
      have hseg : seg = [] := hseg
      subst hseg
      rw [if_pos ⟨rfl, rfl⟩]
      unfold kcmdlineChar
      rw [if_pos rfl, if_pos ⟨by simp [hquoted], hstate, by simpa [quoteText] using hmodname.symm⟩]
      exact ⟨⟨hstate, by simp [hquoted], rfl, by simp [quoteText], by simp⟩, hkeep, by simp,
        by simp [hstate], rfl⟩
    · rw [if_neg hfirst]
      refine hignore (by rw [hstate]; decide) (fun h => hfirst ⟨?_, ?_⟩)
      · have := h.2.2
        rw [hmodname, hseg, List.length_append] at this
        exact List.length_eq_zero_iff.mp (by omega)
      · rw [← hquoted]
        exact h.1
  | param quote M P =>
    have hstate := hread.1
    exact hignore (by rw [hstate]; decide) (by rw [hstate]; simp)
  | value quote M P V =>
    obtain ⟨hstate, hseg, hrest⟩ := hread
    unfold kcmdlineChar
    rw [if_pos rfl, if_neg (by rw [hstate]; simp), if_neg (by rw [hstate]; simp)]
    exact ⟨⟨hstate, by simp [hseg], hrest⟩, hkeep, by simp, by simp [hstate], rfl⟩

/-- **One character inside of a token.** -/
theorem kcmdlineChar_next {c : UInt8} (hbuf : st.buf = a ++ (seg ++ c :: rest)) (h0 : c ≠ 0)
    (hin : isspace c = true → st.isQuoted = true) :
    ∃ c', Continues a seg rest c st (kcmdlineChar (a.length + seg.length) c st)
      (scan.next c) c' := by
  have hclass : c = 34 ∨ isspace c = true ∨ c = 46 ∨ c = 61 ∨ nameChar c = true := by
    rw [nameChar_iff]
    cases isspace c <;> tauto
  rcases hclass with rfl | hspace | rfl | rfl | hname
  · exact ⟨34, continues_quote hread hbuf⟩
  · exact ⟨c, continues_blank hread hbuf hspace (hin hspace)⟩
  · exact continues_dot hread hbuf
  · exact ⟨61, continues_equals hread hbuf⟩
  · exact ⟨c, continues_name hread hbuf hname h0⟩

end Next

/-! ## The end of a token -/

/-- What a result adds to the configuration. -/
def kcmdlineAdd (config : KmodConfig) (r : CStr × CStr) : KmodConfig :=
  if r.1 = cstr "modprobe" ∧ cstr "blacklist=" <+: r.2 then
    ((r.2.drop (cstr "blacklist=").length).splitOn 44).foldl kmodConfigAddBlacklist config
  else (underscores (some r.1)).elim config (fun modname => kmodConfigAddOptions config modname r.2)

theorem length_underscoresText (s : CStr) :
    ∀ inside, (underscoresText inside s).length = s.length := by
  induction s with
  | nil => intro inside; cases inside <;> rfl
  | cons c s ih =>
    intro inside
    cases inside with
    | true => rw [underscoresText, List.length_cons, ih, List.length_cons]
    | false =>
      rw [underscoresText]
      split
      · rw [List.length_cons, ih, List.length_cons]
      · split
        · rfl
        · rw [List.length_cons, ih, List.length_cons]

/-- **The result of a token** in the buffer; the value is looked at for blacklists only. -/
theorem kcmdlineParseResult_at (config : KmodConfig) (a rest : List UInt8) {M opt : CStr}
    {value : Option Nat} (hM : 0 ∉ M) (hopt : 0 ∉ opt)
    (hvalue : cstr "blacklist=" <+: opt →
      value = some (a.length + (M.length + 1) + (cstr "blacklist=").length)) :
    ∃ a', a'.length = a.length + (M.length + 1) + opt.length ∧
      kcmdlineParseResult config (a ++ (M ++ 0 :: (opt ++ 0 :: rest))) a.length
          (some (a.length + (M.length + 1))) value
        = .ok (kcmdlineAdd config (M, opt), a' ++ 0 :: rest) := by
  have hname := stringAt_append a (opt ++ 0 :: rest) hM
  have htext : ∀ M' : CStr, M'.length = M.length →
      stringAt (a ++ (M' ++ 0 :: (opt ++ 0 :: rest))) (a.length + (M.length + 1)) = .ok opt := by
    intro M' hlen
    exact stringAt_of_eq (a ++ (M' ++ [0])) rest (by simp) (by simp [hlen]) hopt
  unfold kcmdlineParseResult kcmdlineAdd
  simp only [hname, htext M rfl, ok_bind]
  by_cases hblacklist : M = cstr "modprobe" ∧ cstr "blacklist=" <+: opt
  · obtain ⟨v, hv⟩ := hblacklist.2
    have hv0 : 0 ∉ v := fun h => hopt (hv ▸ List.mem_append_right _ h)
    have hat : (a ++ (M ++ 0 :: cstr "blacklist=")).length
        = a.length + (M.length + 1) + (cstr "blacklist=").length := by
      simp
      omega
    have hbuf : a ++ (M ++ 0 :: (opt ++ 0 :: rest))
        = a ++ (M ++ 0 :: cstr "blacklist=") ++ (v ++ 0 :: rest) := by
      rw [← hv]
      simp
    have hnames := stringAt_append (a ++ (M ++ 0 :: cstr "blacklist=")) rest hv0
    have hput := putRange_append (a ++ (M ++ 0 :: cstr "blacklist=")) (v ++ 0 :: rest)
      (v.map (fun c => if c = 44 then 0 else c)) (by simp)
    rw [hat] at hnames hput
    refine ⟨a ++ (M ++ 0 :: cstr "blacklist=") ++ v.map (fun c => if c = 44 then 0 else c), ?_, ?_⟩
    · rw [List.length_append, hat, List.length_map, ← hv, List.length_append]
      omega
    · rw [if_pos hblacklist, if_pos hblacklist, hvalue hblacklist.2]
      simp only [hbuf, hnames, ok_bind, hput, inBlock_some]
      rw [← hv, List.drop_left]
      simp
  · rw [if_neg hblacklist, if_neg hblacklist]
    have hlen := length_underscoresText M false
    have hput := putRange_append a (M ++ 0 :: (opt ++ 0 :: rest)) (underscoresText false M)
      (by simp [hlen])
    rw [hlen, List.drop_left] at hput
    refine ⟨a ++ (underscoresText false M ++ 0 :: opt), ?_, ?_⟩
    · simp [hlen]
      omega
    · simp only [hput, inBlock_some, ok_bind]
      cases hmodname : underscores (some M) with
      | none => simp
      | some modname =>
        simp only [htext _ hlen, ok_bind, Option.elim_some]
        simp

/-- **The quote is moved** in front of the value. -/
theorem kcmdlineRequote_at {a : List UInt8} (rest : List UInt8) {st : KcmdlineState}
    {M P : CStr} (V : CStr)
    (hbuf : st.buf = a ++ (34 :: (M ++ 0 :: (P ++ 61 :: V)) ++ 0 :: rest))
    (hmodname : st.modname = a.length + 1) (hstart : st.pQuoteStart = some a.length)
    (hparam : st.param = some (a.length + 1 + (M.length + 1)))
    (hvalue : st.value = some (a.length + 1 + (M.length + 1) + (P.length + 1))) :
    kcmdlineRequote st = .ok { st with
      buf := a ++ (M ++ 0 :: ((P ++ 61 :: 34 :: V) ++ 0 :: rest)), modname := a.length,
      param := some (a.length + (M.length + 1)),
      value := some (a.length + (M.length + 1) + (P.length + 1)) } := by
  have hget : getRange st.buf (a.length + 1) (M.length + 1 + (P.length + 1))
      = some (M ++ 0 :: (P ++ [61])) := by
    have := getRange_append (a ++ [34]) (M ++ 0 :: (P ++ [61])) (V ++ 0 :: rest)
    rw [hbuf]
    simpa [Nat.add_assoc, Nat.add_comm, Nat.add_left_comm] using this
  have hmove : putRange st.buf a.length (M ++ 0 :: (P ++ [61]))
      = some (a ++ (M ++ 0 :: (P ++ [61])) ++ (61 :: V ++ 0 :: rest)) := by
    have := putRange_append a (34 :: (M ++ 0 :: (P ++ 61 :: V)) ++ 0 :: rest)
      (M ++ 0 :: (P ++ [61]))
      (by simp; omega)
    have hdrop : (34 :: (M ++ 0 :: (P ++ 61 :: V)) ++ 0 :: rest).drop (M ++ 0 :: (P ++ [61])).length
        = 61 :: V ++ 0 :: rest := by
      have hsplit : 34 :: (M ++ 0 :: (P ++ 61 :: V)) ++ 0 :: rest
          = (34 :: (M ++ 0 :: P)) ++ (61 :: V ++ 0 :: rest) := by simp
      have hlen : (M ++ 0 :: (P ++ [61])).length = (34 :: (M ++ 0 :: P)).length := by
        simp
        omega
      rw [hsplit, hlen, List.drop_left]
    rw [hbuf, this, hdrop]
    simp
  have hquote : putRange (a ++ (M ++ 0 :: (P ++ [61])) ++ (61 :: V ++ 0 :: rest))
      (a.length + (M.length + 1) + (P.length + 1)) [34]
      = some (a ++ (M ++ 0 :: ((P ++ 61 :: 34 :: V) ++ 0 :: rest))) := by
    have := putRange_append (a ++ (M ++ 0 :: (P ++ [61]))) (61 :: V ++ 0 :: rest) [34] (by simp)
    simpa [Nat.add_assoc, Nat.add_comm, Nat.add_left_comm] using this
  have hsize : a.length + 1 + (M.length + 1) + (P.length + 1) - (a.length + 1)
      = M.length + 1 + (P.length + 1) := by omega
  have hback : a.length + 1 + (M.length + 1) + (P.length + 1) - 1
      = a.length + (M.length + 1) + (P.length + 1) := by omega
  have hback' : a.length + 1 + (M.length + 1) - 1 = a.length + (M.length + 1) := by omega
  unfold kcmdlineRequote
  rw [hstart, hvalue, hparam, hmodname]
  simp only [inBlock_some, ok_bind]
  rw [if_pos (Nat.lt_succ_self _), if_neg (by omega), hsize, hget, inBlock_some, ok_bind, hmove,
    inBlock_some, ok_bind, hback, hquote, inBlock_some, ok_bind, hback']
  simp

/-- An option is `blacklist` if its text begins with `blacklist=`. -/
theorem length_blacklist {P W : CStr} (hP : 61 ∉ P) (h : cstr "blacklist=" <+: P ++ 61 :: W) :
    P.length + 1 = (cstr "blacklist=").length := by
  obtain ⟨t, ht⟩ := h
  have hsplit : cstr "blacklist" ++ 61 :: t = P ++ 61 :: W := by
    rw [← ht]
    simp [cstr]
  obtain ⟨rfl, -⟩ := delimiter_inj (by decide) hP hsplit
  rfl

/-- A parser that stands at the first character of a token, which is behind `a`. -/
structure Restarts (a rest : List UInt8) (st : KcmdlineState) : Prop where
  buf : st.buf = a ++ rest
  isQuoted : st.isQuoted = false
  reading : Reading a [] st (.modname false [])

/-- A result that lies in the buffer is handed on, and the next token begins. -/
theorem kcmdlineComplete_result {p : Nat} (a : List UInt8) {rest : List UInt8} {M opt : CStr}
    {st st' : KcmdlineState} (hM : 0 ∉ M) (hopt : 0 ∉ opt) (hstate : st.state = .complete)
    (hrequote : kcmdlineRequote st = .ok st')
    (hbuf : st'.buf = a ++ (M ++ 0 :: (opt ++ 0 :: rest))) (hmodname : st'.modname = a.length)
    (hparam : st'.param = some (a.length + (M.length + 1)))
    (hvalue : cstr "blacklist=" <+: opt →
      st'.value = some (a.length + (M.length + 1) + (cstr "blacklist=").length))
    (hlen : a.length + (M.length + 1) + opt.length = p) (hquoted : st'.isQuoted = false) :
    ∃ st'' a', kcmdlineComplete p st = .ok st'' ∧ a'.length = p + 1 ∧ Restarts a' rest st'' ∧
      st''.config = kcmdlineAdd st'.config (M, opt) := by
  obtain ⟨a', hlen', hresult⟩ := kcmdlineParseResult_at st'.config a rest hM hopt hvalue
  refine ⟨⟨a' ++ 0 :: rest, p + 1, st'.param, st'.value, none, st'.isQuoted, .modname,
    kcmdlineAdd st'.config (M, opt)⟩, a' ++ [0], ?_, ?_, ⟨?_, hquoted, ?_⟩, rfl⟩
  · unfold kcmdlineComplete
    rw [if_pos hstate, hrequote, ok_bind, hbuf, hmodname, hparam, hresult, ok_bind]
  · rw [List.length_append, hlen', hlen]
    rfl
  · simp
  · refine ⟨rfl, hquoted, rfl, ?_, rfl⟩
    simp [quoteText, hlen', hlen]

theorem kcmdlineRequote_none {st : KcmdlineState} (h : st.pQuoteStart = none) :
    kcmdlineRequote st = .ok st := by
  unfold kcmdlineRequote
  rw [h]

/-- At the end of a token without a result, the next token begins right away. -/
theorem kcmdlineComplete_skip {a seg rest : List UInt8} {c : UInt8} {st : KcmdlineState}
    (hbuf : st.buf = a ++ (seg ++ c :: rest)) (hquoted : st.isQuoted = false)
    (hend : c = 0 ∨ isspace c = true) (hstate : st.state = .ignore ∨ st.state = .modname) :
    ∃ st' a', kcmdlineComplete (a.length + seg.length) (kcmdlineChar (a.length + seg.length) c st)
        = .ok st' ∧ a'.length = a.length + seg.length + 1 ∧ Restarts a' rest st' ∧
      st'.config = st.config := by
  have hnot : ¬ (st.state = .value ∨ st.state = .param) := by
    rcases hstate with h | h
    · rw [h]; simp
    · rw [h]; simp
  rw [kcmdlineChar_end _ _ hend hquoted, if_neg hnot]
  refine ⟨_, a ++ (seg ++ [c]), if_neg (by simp), ?_,
    ⟨?_, hquoted, rfl, hquoted, rfl, ?_, rfl⟩, rfl⟩
  · simp
    omega
  · simp [hbuf]
  · simp [quoteText]
    omega

/-- **The end of a token**: its result is handed on, and the parser starts over. -/
theorem kcmdlineComplete_end {a seg rest : List UInt8} {c : UInt8} {st : KcmdlineState} {tok : CStr}
    {scan : Scan} (hbuf : st.buf = a ++ (seg ++ c :: rest)) (hquoted : st.isQuoted = false)
    (hread : Reading a seg st scan) (hscan : ScanOf tok scan) (htok : 0 ∉ tok)
    (hend : c = 0 ∨ isspace c = true) :
    ∃ st' a', kcmdlineComplete (a.length + seg.length) (kcmdlineChar (a.length + seg.length) c st)
        = .ok st' ∧
      a'.length = a.length + seg.length + 1 ∧ Restarts a' rest st' ∧
      st'.config = scan.result.elim st.config (kcmdlineAdd st.config) := by
  have hset : st.buf.set (a.length + seg.length) 0 = a ++ (seg ++ 0 :: rest) := by
    rw [hbuf, ← List.append_assoc, ← List.length_append, List.set_append_right _ _ (Nat.le_refl _)]
    simp
  generalize hdone : ({ st with buf := st.buf.set (a.length + seg.length) 0, state := .complete } :
    KcmdlineState) = done
  have hdone_buf : done.buf = a ++ (seg ++ 0 :: rest) := by rw [← hdone, ← hset]
  have hdone_state : done.state = .complete := by rw [← hdone]
  have hdone_quoted : done.isQuoted = false := by rw [← hdone]; exact hquoted
  have hdone_config : done.config = st.config := by rw [← hdone]
  cases hscan with
  | ignore => exact kcmdlineComplete_skip hbuf hquoted hend (.inl hread)
  | modname quote hM => exact kcmdlineComplete_skip hbuf hquoted hend (.inr hread.1)
  | @param quote M P hM hP =>
    obtain ⟨hstate, hquote, hseg, hmodname, hstart, hparam⟩ := hread
    obtain rfl : quote = false := hquote.symm.trans hquoted
    have hno : ¬ cstr "blacklist=" <+: P := by
      intro h
      have := hP 61 (h.subset (by decide))
      exact absurd this (by decide)
    have hrequote : kcmdlineRequote done = .ok done :=
      kcmdlineRequote_none (by rw [← hdone]; exact hstart)
    rw [kcmdlineChar_end _ _ hend hquoted, if_pos (.inr hstate), hdone, ← hdone_config]
    refine kcmdlineComplete_result a (fun h => htok (by simp [h])) (fun h => htok (by simp [h]))
      hdone_state hrequote ?_ ?_ ?_ (fun h => absurd h hno) ?_ hdone_quoted
    · simp [hdone_buf, hseg, quoteText]
    · rw [← hdone]
      exact hmodname
    · rw [← hdone]
      exact hparam
    · simp [hseg, quoteText]
      omega
  | @value quote M P V hM hP =>
    obtain ⟨hstate, hseg, hmodname, hstart, hparam, hvalue⟩ := hread
    have hP61 : 61 ∉ P := fun h => absurd (hP 61 h) (by decide)
    have hM0 : 0 ∉ M := fun h => htok (by simp [h])
    have hP0 : 0 ∉ P := fun h => htok (by simp [h])
    have hV0 : 0 ∉ V := fun h => htok (by simp [h])
    rw [kcmdlineChar_end _ _ hend hquoted, if_pos (.inl hstate), hdone, ← hdone_config]
    cases quote with
    | false =>
      have hrequote : kcmdlineRequote done = .ok done :=
        kcmdlineRequote_none (by rw [← hdone]; exact hstart)
      refine kcmdlineComplete_result a hM0 (by simp [hP0, hV0, quoteText]) hdone_state hrequote ?_ ?_ ?_
        (fun h => ?_) ?_ hdone_quoted
      · simp [hdone_buf, hseg, quoteText]
      · rw [← hdone]
        exact hmodname
      · rw [← hdone]
        exact hparam
      · rw [← hdone, ← length_blacklist hP61 h]
        exact hvalue
      · simp [hseg, quoteText]
        omega
    | true =>
      have hrequote := kcmdlineRequote_at rest V (by simpa [hseg, quoteText] using hdone_buf)
        (by rw [← hdone]; exact hmodname) (by rw [← hdone]; exact hstart)
          (by rw [← hdone]; exact hparam)
        (by rw [← hdone]; exact hvalue)
      have hopt : 0 ∉ P ++ 61 :: 34 :: V := by simp [hP0, hV0]
      obtain ⟨st', a', hrun, hlen, hrestarts, hconfig⟩ :=
        kcmdlineComplete_result (p := a.length + seg.length) a hM0 hopt hdone_state hrequote rfl rfl rfl
          (fun h => by rw [← length_blacklist hP61 h])
            (by simp [hseg, quoteText]; omega) hdone_quoted
      exact ⟨st', a', hrun, hlen, hrestarts, hconfig⟩

/-! ## The command line -/

/-- What a token adds to the configuration. -/
def kcmdlineToken (config : KmodConfig) (tok : CStr) : KmodConfig :=
  (tokenResult tok).elim config (kcmdlineAdd config)

/-- The end of the command line: a token that is open ends, unless it is quoted. -/
theorem kcmdlineLoop_end (junk : List UInt8) {tok : CStr} {n : Nat} {a seg : List UInt8}
    {st : KcmdlineState} (htok : 0 ∉ tok)
    (hread : Reading a seg st (tok.foldl Scan.next (.modname false [])))
    (hbuf : st.buf = a ++ (seg ++ 0 :: junk)) :
    ∃ st', kcmdlineLoop (n + 1) (a.length + seg.length) st = .ok st' ∧
      st'.config = (pieces st.isQuoted tok []).foldl kcmdlineToken st.config := by
  have hget : st.buf[a.length + seg.length]? = some 0 := by
    rw [hbuf, ← List.append_assoc, ← List.length_append]
    simp
  have hscan := scanOf_foldl tok (.modname false isName_nil)
  unfold kcmdlineLoop
  rw [hget, inBlock_some, ok_bind]
  cases hquoted : st.isQuoted with
  | false =>
    obtain ⟨st', _, hrun, _, _, hconfig⟩ :=
      kcmdlineComplete_end hbuf hquoted hread hscan (by simpa [quoteText] using htok) (.inl rfl)
    rw [hrun]
    exact ⟨st', rfl, hconfig⟩
  | true =>
    rw [kcmdlineChar_blank _ _ (.inl rfl) hquoted]
    by_cases hstate : st.state = .value
    · rw [if_pos hstate]
      exact ⟨st, by rw [kcmdlineComplete, if_neg (by rw [hstate]; simp)]; rfl, rfl⟩
    · rw [if_neg hstate]
      exact ⟨{ st with state := .ignore }, by rw [kcmdlineComplete, if_neg (by simp)]; rfl, rfl⟩

/-- **A run of the parser**, from inside a token of which `tok` was read. -/
theorem kcmdlineLoop_pieces (junk : List UInt8) {line : CStr} (hline : 0 ∉ line) :
    ∀ (tok : CStr) {n : Nat} {a seg : List UInt8} {st : KcmdlineState}, line.length < n → 0 ∉ tok →
      Reading a seg st (tok.foldl Scan.next (.modname false [])) →
      st.buf = a ++ (seg ++ (line ++ 0 :: junk)) →
      ∃ st', kcmdlineLoop n (a.length + seg.length) st = .ok st' ∧
        st'.config = (pieces st.isQuoted tok line).foldl kcmdlineToken st.config := by
  induction line with
  | nil =>
    intro tok n a seg st hn htok hread hbuf
    obtain ⟨n, rfl⟩ := Nat.exists_eq_succ_of_ne_zero (Nat.ne_of_gt hn)
    exact kcmdlineLoop_end junk htok hread hbuf
  | cons c line ih =>
    intro tok n a seg st hn htok hread hbuf
    obtain ⟨n, rfl⟩ := Nat.exists_eq_succ_of_ne_zero (Nat.ne_of_gt (Nat.zero_lt_of_lt hn))
    rw [List.mem_cons, not_or] at hline
    have h0 : c ≠ 0 := Ne.symm hline.1
    have hlen : line.length < n := Nat.lt_of_succ_lt_succ hn
    have hget : st.buf[a.length + seg.length]? = some c := by
      rw [hbuf, ← List.append_assoc, ← List.length_append]
      simp
    unfold kcmdlineLoop pieces
    rw [hget, inBlock_some, ok_bind]
    by_cases hsep : isspace c = true ∧ (!st.isQuoted) = true
    · -- the token ends, and the next one begins behind `c`
      have hquoted : st.isQuoted = false := by simpa using hsep.2
      have hscan := scanOf_foldl tok (.modname false isName_nil)
      obtain ⟨st₁, a', hend, hat, hrestarts, hconfig⟩ :=
        kcmdlineComplete_end hbuf hquoted hread hscan (by simpa [quoteText] using htok) (.inr hsep.1)
      obtain ⟨st', hrun, hresult⟩ := ih hline.2 [] hlen (by simp) hrestarts.reading
        (by simpa using hrestarts.buf)
      rw [List.length_nil, hat] at hrun
      rw [hrestarts.isQuoted, hconfig] at hresult
      rw [hend, ok_bind, if_neg h0, if_pos hsep]
      exact ⟨st', hrun, hresult⟩
    · have hin : isspace c = true → st.isQuoted = true := by
        intro hspace
        by_contra hnot
        exact hsep ⟨hspace, by simpa using hnot⟩
      obtain ⟨c', hnext⟩ := kcmdlineChar_next hread (by simpa using hbuf) h0 hin
      have hread' := hnext.reading
      rw [← List.foldl_concat Scan.next] at hread'
      obtain ⟨st', hrun, hresult⟩ :=
        ih hline.2 (tok ++ [c]) hlen (by simp [htok, hline.1]) hread' hnext.buf
      rw [hnext.isQuoted, hnext.config] at hresult
      rw [kcmdlineComplete, if_neg hnext.state, ok_bind, if_neg h0, if_neg hsep]
      refine ⟨st', ?_, hresult⟩
      rw [← hrun, List.length_append, List.length_singleton, Nat.add_assoc]

/-- A piece without a character gives nothing. -/
theorem foldl_nonempty (toks : List CStr) :
    ∀ config : KmodConfig, (toks.filter (· ≠ [])).foldl kcmdlineToken config
      = toks.foldl kcmdlineToken config := by
  induction toks with
  | nil => intro config; rfl
  | cons tok toks ih =>
    intro config
    rw [List.filter_cons]
    split
    · exact ih _
    · next h =>
      obtain rfl : tok = [] := by simpa using h
      exact ih config

/-- **The tokens one after the other**, from a buffer that holds the command line. -/
theorem parseKcmdline_tokens (config : KmodConfig) {line : CStr} (hline : 0 ∉ line)
    (junk : List UInt8) :
    parseKcmdline config (line ++ 0 :: junk)
      = .ok ((kcmdlineTokens line).foldl kcmdlineToken config) := by
  have hread : Reading [] [] ⟨line ++ 0 :: junk, 0, none, none, none, false, .modname, config⟩
      (.modname false []) := ⟨rfl, rfl, rfl, rfl, rfl⟩
  obtain ⟨st', hrun, hconfig⟩ := kcmdlineLoop_pieces junk hline [] (n := (line ++ 0 :: junk).length)
    (by simp) (by simp) hread rfl
  unfold parseKcmdline kcmdlineTokens
  rw [foldl_nonempty]
  rw [List.length_nil, Nat.add_zero] at hrun
  rw [hrun, ok_bind, hconfig]

/-! ## Quoted options -/

theorem pieces_plain {s : CStr} (hs : ∀ c ∈ s, isspace c = false ∧ c ≠ 34) (quoted : Bool)
    (rest : CStr) :
    ∀ tok, pieces quoted tok (s ++ rest) = pieces quoted (tok ++ s) rest := by
  induction s with
  | nil => intro tok; simp
  | cons c s ih =>
    intro tok
    obtain ⟨hspace, hne⟩ := hs c (List.mem_cons_self ..)
    rw [List.cons_append, pieces, if_neg (by simp [hspace])]
    simp only [hne, decide_false, Bool.bne_false]
    rw [ih (fun d hd => hs d (List.mem_cons_of_mem _ hd))]
    simp

theorem pieces_quote (quoted : Bool) (tok rest : CStr) :
    pieces quoted tok (34 :: rest) = pieces (!quoted) (tok ++ [34]) rest := by
  rw [pieces, if_neg (by simp [isspace])]
  simp

theorem pieces_quoted {v : CStr} (hv : 34 ∉ v) (rest : CStr) :
    ∀ tok, pieces true tok (v ++ rest) = pieces true (tok ++ v) rest := by
  induction v with
  | nil => intro tok; simp
  | cons c v ih =>
    intro tok
    rw [List.mem_cons, not_or] at hv
    rw [List.cons_append, pieces, if_neg (by simp)]
    simp only [Ne.symm hv.1, decide_false, Bool.bne_false]
    rw [ih hv.2]
    simp

theorem plain_of_isName {s : CStr} (hs : IsName s) : ∀ c ∈ s, isspace c = false ∧ c ≠ 34 := by
  intro c hc
  obtain ⟨_, _, hquote, hspace⟩ := nameChar_iff.mp (hs c hc)
  exact ⟨hspace, hquote⟩

/-- A quote before the module name is as good as one before the value. -/
theorem tokens_requoted {M P v : CStr} (hM : IsName M) (hP : IsName P) (hv : 34 ∉ v) :
    kcmdlineTokens (34 :: (M ++ 46 :: (P ++ 61 :: (v ++ [34]))))
        = [34 :: (M ++ 46 :: (P ++ 61 :: (v ++ [34])))] ∧
      kcmdlineTokens (M ++ 46 :: (P ++ 61 :: 34 :: (v ++ [34])))
        = [M ++ 46 :: (P ++ 61 :: 34 :: (v ++ [34]))] ∧
      tokenResult (34 :: (M ++ 46 :: (P ++ 61 :: (v ++ [34]))))
        = tokenResult (M ++ 46 :: (P ++ 61 :: 34 :: (v ++ [34]))) := by
  have hplain : ∀ c ∈ M ++ 46 :: (P ++ [61]), isspace c = false ∧ c ≠ 34 := by
    intro c hc
    rw [List.mem_append, List.mem_cons, List.mem_append, List.mem_singleton] at hc
    rcases hc with hc | rfl | hc | rfl
    · exact plain_of_isName hM c hc
    · decide
    · exact plain_of_isName hP c hc
    · decide
  refine ⟨?_, ?_, ?_⟩
  · have hsplit : M ++ 46 :: (P ++ 61 :: (v ++ [34])) =
      (M ++ 46 :: (P ++ [61])) ++ (v ++ [34]) := by simp
    unfold kcmdlineTokens
    rw [pieces_quote, hsplit, Bool.not_false, pieces_plain hplain, pieces_quoted hv, pieces_quote]
    simp [pieces]
  · have hsplit : M ++ 46 :: (P ++ 61 :: 34 :: (v ++ [34]))
        = (M ++ 46 :: (P ++ [61])) ++ 34 :: (v ++ [34]) := by simp
    unfold kcmdlineTokens
    rw [hsplit, pieces_plain hplain, pieces_quote, Bool.not_false, pieces_quoted hv, pieces_quote]
    simp [pieces]
  · rw [(tokenResult_iff _ _).mpr (.quoted (v ++ [34]) hM hP),
      (tokenResult_iff _ _).mpr (.value (34 :: (v ++ [34])) hM hP)]

/--
**The grammar of the command line.** The configuration is what the tokens of the
command line give, one after the other and each for itself. The tokens `M.P`, `M.P=V`
and `"M.P=V` give a result and no others do; and an option that is quoted as a whole
gives the same as one with a quoted value.
-/
theorem kmodConfigParseKcmdline_tokens (junk : Nat → UInt8) (config : KmodConfig) (line : CStr)
    (hline : 0 ∉ line) (hlen : line.length < KCMD_LINE_SIZE) :
    kmodConfigParseKcmdline junk config (.ok line)
        = .ok (0, (kcmdlineTokens line).foldl
            (fun config tok => (tokenResult tok).elim config (kcmdlineAdd config)) config) ∧
      (∀ tok r, tokenResult tok = some r ↔ GivesResult tok r) ∧
      ∀ M P v, IsName M → IsName P → 34 ∉ v →
        kcmdlineTokens (34 :: (M ++ 46 :: (P ++ 61 :: (v ++ [34]))))
            = [34 :: (M ++ 46 :: (P ++ 61 :: (v ++ [34])))] ∧
          kcmdlineTokens (M ++ 46 :: (P ++ 61 :: 34 :: (v ++ [34])))
            = [M ++ 46 :: (P ++ 61 :: 34 :: (v ++ [34]))] ∧
          tokenResult (34 :: (M ++ 46 :: (P ++ 61 :: (v ++ [34]))))
            = tokenResult (M ++ 46 :: (P ++ 61 :: 34 :: (v ++ [34]))) := by
  refine ⟨?_, tokenResult_iff, fun M P v hM hP hv => tokens_requoted hM hP hv⟩
  have htake : line.take (KCMD_LINE_SIZE - 1) = line := List.take_of_length_le (by omega)
  unfold kmodConfigParseKcmdline
  simp only [htake, List.append_assoc, List.singleton_append]
  rw [parseKcmdline_tokens config hline, ok_bind]
  rfl

/-- A quoted option, an option in which the value has a blank, and an open quote. -/
theorem kmodConfigParseKcmdline_quoted :
    kmodConfigParseKcmdline (fun _ => 7) emptyConfig
        (.ok (cstr "quiet \"mod-a.p=x y\" b.q=\"u v\" \"c.r=z"))
      = .ok (0, { emptyConfig with
          options := [(cstr "mod_a", cstr "p=\"x y\""), (cstr "b", cstr "q=\"u v\"")] }) := by
  have h := (kmodConfigParseKcmdline_tokens (fun _ => 7) emptyConfig
    (cstr "quiet \"mod-a.p=x y\" b.q=\"u v\" \"c.r=z") (by decide) (by decide)).1
  rw [h]
  decide

end Kmod
