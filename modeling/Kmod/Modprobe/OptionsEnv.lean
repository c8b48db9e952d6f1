import Kmod.Libkmod.Kcmdline

/-!
# Options in the environment

modprobe hands the options `-C`, `-s`, `-q` and `-v` to the modprobe processes that it
starts, in the variable `MODPROBE_OPTIONS`: the words are put one after the other, with
spaces between them. A process reads the variable before its own arguments. It divides it
at spaces, but not at those between quotes, and drops pairs of quotes.

Nothing is quoted on the way into the variable. So a path comes back as it was only if
it has no space and no quote, with a few exceptions at the end of the variable
(`modprobeOptions_intact_iff`).
-/

namespace Kmod.OptionsEnv

open Kmod.Memory

/-! ## The model -/

/-- The options that are handed on. -/
inductive ModprobeOption where
  | config (path : CStr)
  | syslog
  | quiet
  | verbose
  deriving DecidableEq

/-- `env_modprobe_options_append`: the variable before and after. -/
def envModprobeOptionsAppend (old : Option CStr) (value : CStr) : CStr :=
  match old with
  | none => value
  | some old => old ++ 32 :: value

/-- What `do_modprobe` does to the variable for an option. -/
def appendOption (env : Option CStr) : ModprobeOption → Option CStr
  | .config path =>
    some (envModprobeOptionsAppend (some (envModprobeOptionsAppend env (cstr "-C"))) path)
  | .syslog => some (envModprobeOptionsAppend env (cstr "-s"))
  | .quiet => some (envModprobeOptionsAppend env (cstr "-q"))
  | .verbose => some (envModprobeOptionsAppend env (cstr "-v"))

/-- The variable after a sequence of options, if it was not set before. -/
def modprobeOptions (opts : List ModprobeOption) : Option CStr := opts.foldl appendOption none

/--
The variables of `prepend_options_from_env`, other than `s`. Pointers into the copy of the
variable are offsets; `argv` is what stands from `new_argv[1]` on.
-/
structure EnvScan where
  buf : List UInt8
  argv : List Nat
  str : Nat
  quote : Option Nat
  strEnd : Nat

/--
`new_argv[i] = p`, for the next `i`. The string begins behind the pointers, so it would
be overwritten if there were no room left.
-/
def storeArg (slots : Nat) (st : EnvScan) (p : Nat) : Except Fault EnvScan :=
  if st.argv.length + 1 < slots then .ok { st with argv := st.argv ++ [p] } else .error .outOfBounds

/-- A pair of quotes in a word is taken out; `s` is the second one. -/
def dropQuotes (st : EnvScan) (quote s : Nat) : Except Fault EnvScan := do
  let buf ← inBlock (moveDown 1 st.buf quote (s - 1 - quote))
  let buf ← inBlock (moveDown 2 buf (s - 1) (st.strEnd - 2 - (s - 1)))
  let buf ← inBlock (putRange buf (st.strEnd - 2) [0])
  .ok { st with buf := buf, strEnd := st.strEnd - 2 }

/-- The body of the loop, for the character `c` at `s`: `s` and the other variables then. -/
def scanChar (slots s : Nat) (c : UInt8) (st : EnvScan) : Except Fault (Nat × EnvScan) :=
  match st.quote with
  | none =>
    if c = 32 then do
      let st ← storeArg slots st st.str
      .ok (s, { st with buf := st.buf.set s 0, str := s + 1 })
    else if c = 34 ∨ c = 39 then .ok (s, { st with quote := some s })
    else .ok (s, st)
  | some quote => do
    let q ← inBlock st.buf[quote]?
    if c = q then
      if quote = st.str then do
        let st ← storeArg slots st (st.str + 1)
        .ok (s, { st with buf := st.buf.set s 0, str := s + 1, quote := none })
      else do
        let st ← dropQuotes st quote s
        .ok (s - 2, { st with quote := none })
    else .ok (s, st)

/-- The loop over the characters, and the word that is left at its end. -/
def scanEnv (slots : Nat) : Nat → Nat → EnvScan → Except Fault EnvScan
  | 0, _, _ => .error .outOfFuel
  | fuel + 1, s, st => do
    let c ← inBlock st.buf[s]?
    if c = 0 then
      if st.str < s then storeArg slots st st.str else .ok st
    else do
      let (s, st) ← scanChar slots s c st
      scanEnv slots fuel (s + 1) st

/--
`prepend_options_from_env`: the new arguments, where `argv0 :: args` are the old ones.
`junk` is what `malloc` leaves in the block.
-/
def prependOptionsFromEnv (junk : Nat → UInt8) (env : Option CStr) (argv0 : CStr)
    (args : List CStr) :
    Except Fault (List CStr) :=
  match env with
  | none => .ok (argv0 :: args)
  | some env => do
    let argc := args.length + 1
    let spaceCount := env.count 32
    let envlen := env.length
    let slots := argc + spaceCount + 3
    let buf ← inBlock (putRange ((List.range (8 * envlen)).map junk) 0 (env ++ [0]))
    let st ← scanEnv slots (envlen + 1) 0 ⟨buf, [], 0, none, envlen⟩
    -- the old arguments and a null pointer follow
    if st.argv.length + 1 + argc - 1 < slots then do
      let words ← st.argv.mapM (stringAt st.buf)
      .ok (argv0 :: (words ++ args))
    else .error .outOfBounds

/-! ## Words -/

/--
The words of the rest of a variable, where `cur` is what has been read of the current
word and, within quotes, `some (q, body)` the quote and what has been read behind it.
-/
def readWords : Option (UInt8 × CStr) → CStr → CStr → List CStr
  | none, cur, [] => if cur = [] then [] else [cur]
  | none, cur, c :: rest =>
    if c = 32 then cur :: readWords none [] rest
    else if c = 34 ∨ c = 39 then readWords (some (c, [])) cur rest
    else readWords none (cur ++ [c]) rest
  | some (q, body), cur, [] => [cur ++ q :: body]
  | some (q, body), cur, c :: rest =>
    if c = q then
      if cur = [] then body :: readWords none [] rest else readWords none (cur ++ body) rest
    else readWords (some (q, body ++ [c])) cur rest

/-! ## The scan reads words -/

/-- The opening quote and what has been read behind it. -/
def quoted : Option (UInt8 × CStr) → CStr
  | none => []
  | some (q, body) => q :: body

/-- A word stands in a block, at an offset and with a NUL behind it. -/
def StandsAt (block : List UInt8) (p : Nat) (word : CStr) : Prop :=
  0 ∉ word ∧ ∃ a b, block = a ++ (word ++ 0 :: b) ∧ a.length = p

theorem StandsAt.append {block : List UInt8} {p : Nat} {word : CStr} (h : StandsAt block p word)
    (more : List UInt8) : StandsAt (block ++ more) p word := by
  obtain ⟨hnul, a, b, rfl, hp⟩ := h
  exact ⟨hnul, a, b ++ more, by simp, hp⟩

theorem StandsAt.stringAt_eq {block : List UInt8} {p : Nat} {word : CStr}
    (h : StandsAt block p word) :
    stringAt block p = .ok word := by
  obtain ⟨hnul, a, b, rfl, rfl⟩ := h
  exact stringAt_append a b hnul

theorem mapM_stringAt {block : List UInt8} {argv : List Nat} {words : List CStr}
    (h : List.Forall₂ (StandsAt block) argv words) : argv.mapM (stringAt block) = .ok words := by
  induction h with
  | nil => rfl
  | cons hfirst _ ih =>
    rw [List.mapM_cons, hfirst.stringAt_eq, ok_bind, ih]
    rfl

/--
The scan at `s`, after the words `words`: `before` is the part of the buffer that is done
with, then come the current word, the rest and the end.
-/
structure Scanned (st : EnvScan) (s : Nat) (words : List CStr) (q : Option (UInt8 × CStr))
    (cur rest before junk : List UInt8) : Prop where
  buf : st.buf = before ++ (cur ++ (quoted q ++ (rest ++ 0 :: junk)))
  str : st.str = before.length
  pos : s = before.length + cur.length + (quoted q).length
  strEnd : st.strEnd = s + rest.length
  quote : st.quote = q.map (fun _ => before.length + cur.length)
  done : List.Forall₂ (StandsAt before) st.argv words
  nul : 0 ∉ cur ++ (quoted q ++ rest)

section Scanned

variable {slots : Nat} {st : EnvScan} {s : Nat} {words : List CStr} {q : Option (UInt8 × CStr)}
  {c : UInt8} {cur rest before junk : List UInt8}

theorem Scanned.read (h : Scanned st s words q cur rest before junk) :
    st.buf[s]? = (rest ++ 0 :: junk)[0]? := by
  have hpos := h.pos
  rw [h.buf, ← List.append_assoc, ← List.append_assoc,
    List.getElem?_append_right (by simp only [List.length_append]; omega)]
  refine congrArg (fun i => (rest ++ 0 :: junk)[i]?) ?_
  simp only [List.length_append]
  omega

/-- A character that is just part of the word or of what stands in quotes. -/
theorem Scanned.next (h : Scanned st s words q cur (c :: rest) before junk)
    (q' : Option (UInt8 × CStr))
    (cur' : CStr) (hsplit : cur' ++ quoted q' = cur ++ quoted q ++ [c])
    (hquote : q'.map (fun _ => before.length + cur'.length) = st.quote) :
    Scanned st (s + 1) words q' cur' rest before junk := by
  have hlen := congrArg List.length hsplit
  simp only [List.length_append, List.length_cons, List.length_nil] at hlen
  have hend := h.strEnd
  rw [List.length_cons] at hend
  refine ⟨?_, h.str, by rw [h.pos]; omega, by omega, hquote.symm, h.done, ?_⟩
  · rw [h.buf, ← List.append_assoc cur', hsplit]
    simp
  · rw [← List.append_assoc, hsplit]
    simpa using h.nul

/-- The word ends at `s`, which becomes a NUL. -/
theorem Scanned.set (h : Scanned st s words q cur (c :: rest) before junk) :
    st.buf.set s 0 = (before ++ (cur ++ (quoted q ++ [0]))) ++ (rest ++ 0 :: junk) := by
  have hpos : s = (before ++ (cur ++ quoted q)).length := by
    rw [h.pos]
    simp only [List.length_append]
    omega
  rw [h.buf, hpos]
  have hbuf : before ++ (cur ++ (quoted q ++ (c :: rest ++ 0 :: junk)))
      = (before ++ (cur ++ quoted q)) ++ c :: (rest ++ 0 :: junk) := by simp
  rw [hbuf, List.set_append_right _ _ (Nat.le_refl _), Nat.sub_self, List.set_cons_zero]
  simp

/-- A word ends and is stored: the scan goes on behind it. -/
theorem Scanned.store (h : Scanned st s words q cur (c :: rest) before junk) {p : Nat} {word : CStr}
    (hword : StandsAt (before ++ (cur ++ (quoted q ++ [0]))) p word) :
    Scanned ⟨st.buf.set s 0, st.argv ++ [p], s + 1, none, st.strEnd⟩ (s + 1)
      (words ++ [word]) none []
      rest (before ++ (cur ++ (quoted q ++ [0]))) junk := by
  have hpos := h.pos
  have hend := h.strEnd
  rw [List.length_cons] at hend
  refine ⟨h.set, ?_, ?_, ?_, rfl, ?_, ?_⟩
  · simp only [List.length_append, List.length_cons, List.length_nil]
    omega
  · show s + 1 = (before ++ (cur ++ (quoted q ++ [0]))).length + 0 + 0
    simp only [List.length_append, List.length_cons, List.length_nil]
    omega
  · show st.strEnd = s + 1 + rest.length
    omega
  · refine List.rel_append (h.done.imp (fun p w hw => hw.append _)) (.cons hword .nil)
  · have hnul := h.nul
    simp only [quoted, List.nil_append]
    intro hmem
    exact hnul (by simp [hmem])

/-- The word that ends at a space. -/
theorem Scanned.word (h : Scanned st s words none cur rest before junk) :
    StandsAt (before ++ (cur ++ (quoted none ++ [0]))) st.str cur :=
  ⟨fun hmem => h.nul (by simp [hmem]), before, [], by simp [quoted], h.str.symm⟩

/-- The word that began with a quote and ends at the other one. -/
theorem Scanned.quotedWord {quote : UInt8} {body : CStr}
    (h : Scanned st s words (some (quote, body)) [] rest before junk) :
    StandsAt (before ++ ([] ++ (quoted (some (quote, body)) ++ [0]))) (st.str + 1) body := by
  refine ⟨fun hmem => h.nul (by simp [quoted, hmem]), before ++ [quote], [], by simp [quoted], ?_⟩
  rw [List.length_append, List.length_singleton, h.str]

/-- A quote begins at `s`. -/
theorem Scanned.opened (h : Scanned st s words none cur (c :: rest) before junk) :
    Scanned { st with quote := some s } (s + 1) words (some (c, [])) cur rest before junk := by
  have hpos := h.pos
  have hend := h.strEnd
  rw [List.length_cons] at hend
  refine ⟨h.buf.trans (by simp [quoted]), h.str, ?_, ?_, ?_, h.done, ?_⟩
  · simp only [quoted, List.length_nil, List.length_cons] at hpos ⊢
    omega
  · show st.strEnd = s + 1 + rest.length
    omega
  · rw [hpos]
    rfl
  · simpa [quoted] using h.nul

/-- The quote that was opened last. -/
theorem Scanned.quoteAt {quote : UInt8} {body : CStr}
    (h : Scanned st s words (some (quote, body)) cur rest before junk) :
    st.buf[before.length + cur.length]? = some quote := by
  rw [h.buf, ← List.append_assoc, List.getElem?_append_right (by simp)]
  simp [quoted]

/-- A pair of quotes within a word is taken out. -/
theorem Scanned.dropQuotes {quote : UInt8} {body : CStr}
    (h : Scanned st s words (some (quote, body)) cur (c :: rest) before junk) :
    ∃ junk', OptionsEnv.dropQuotes st (before.length + cur.length) s
        = .ok { st with
            buf := before ++ (cur ++ body ++ (rest ++ 0 :: junk')), strEnd := st.strEnd - 2 } ∧
      Scanned ⟨before ++ (cur ++ body ++ (rest ++ 0 :: junk')), st.argv, st.str, none,
        st.strEnd - 2⟩
        (s - 1) words none (cur ++ body) rest before junk' := by
  have hpos := h.pos
  have hend := h.strEnd
  simp only [quoted, List.length_cons] at hpos hend
  have h1 := moveDown_append 1 body.length (before ++ cur) (quote :: body)
    (c :: rest ++ 0 :: junk) (by simp)
  obtain ⟨x, hx⟩ : ∃ x, (quote :: body).drop body.length = [x] :=
    List.length_eq_one_iff.mp (by simp)
  rw [hx] at h1
  have h2 := moveDown_append 2 rest.length (before ++ (cur ++ body)) (x :: c :: rest)
    (0 :: junk) (by simp)
  obtain ⟨y, z, hyz⟩ : ∃ y z, (x :: c :: rest).drop rest.length = [y, z] :=
    List.length_eq_two.mp (by simp; omega)
  rw [hyz] at h2
  have h3 := putRange_append (before ++ (cur ++ (body ++ rest))) ([y, z] ++ 0 :: junk) [0] (by simp)
  refine ⟨z :: 0 :: junk, ?_, ?_⟩
  · have hq : before.length + cur.length = (before ++ cur).length := by simp
    have hs : s - 1 = (before ++ (cur ++ body)).length := by simp; omega
    have he : st.strEnd - 2 = (before ++ (cur ++ (body ++ rest))).length := by simp; omega
    have hn : s - 1 - (before ++ cur).length = body.length := by simp; omega
    have hm : st.strEnd - 2 - (before ++ (cur ++ body)).length = rest.length := by simp; omega
    have hbuf : st.buf = before ++ cur ++ (quote :: body ++ (c :: rest ++ 0 :: junk)) := by
      rw [h.buf]
      simp [quoted]
    rw [OptionsEnv.dropQuotes, hq, hn, hbuf, h1, inBlock_some, ok_bind, hs, hm]
    have hmid : before ++ cur ++ (List.drop 1 (quote :: body) ++ ([x] ++ (c :: rest ++ 0 :: junk)))
        = before ++ (cur ++ body) ++ (x :: c :: rest ++ 0 :: junk) := by simp
    rw [hmid, h2, inBlock_some, ok_bind, he]
    have hlast : before ++ (cur ++ body) ++ (List.drop 2 (x :: c :: rest) ++ ([y, z] ++ 0 :: junk))
        = before ++ (cur ++ (body ++ rest)) ++ ([y, z] ++ 0 :: junk) := by simp
    rw [hlast, h3, inBlock_some, ok_bind]
    simp
  · refine ⟨by simp [quoted], h.str, by simp [quoted]; omega, ?_, rfl, h.done, ?_⟩
    · show st.strEnd - 2 = s - 1 + rest.length
      omega
    · have hnul := h.nul
      simp only [quoted] at hnul ⊢
      intro hmem
      apply hnul
      simp only [List.mem_append, List.mem_cons, List.not_mem_nil, false_or] at hmem ⊢
      tauto

/-- The outcome of a scan: the words, if there is room for them. -/
def ScansTo (slots : Nat) (words : List CStr) (result : Except Fault EnvScan) : Prop :=
  (words.length < slots → ∃ st, result = .ok st ∧ List.Forall₂ (StandsAt st.buf) st.argv words) ∧
    (slots ≤ words.length → result = .error .outOfBounds)

/-- The end of the variable. -/
theorem Scanned.finish (h : Scanned st s words q cur [] before junk) (fuel : Nat)
    (hslots : words.length < slots) :
    ScansTo slots (words ++ if cur ++ quoted q = [] then [] else [cur ++ quoted q])
      (scanEnv slots (fuel + 1) s st) := by
  have hc : st.buf[s]? = some 0 := h.read
  have hlen := h.done.length_eq
  have hpos := h.pos
  have hstr := h.str
  have hdone : List.Forall₂ (StandsAt st.buf) st.argv words := by
    rw [h.buf]
    exact h.done.imp (fun p w hw => hw.append _)
  rw [scanEnv, hc, inBlock_some, ok_bind, if_pos rfl]
  by_cases hempty : cur ++ quoted q = []
  · have hlength := congrArg List.length hempty
    rw [List.length_append, List.length_nil] at hlength
    rw [if_pos hempty, List.append_nil, if_neg (by omega)]
    exact ⟨fun _ => ⟨st, rfl, hdone⟩, fun hle => absurd hle (by omega)⟩
  · have hlength := List.length_pos_iff.mpr hempty
    rw [List.length_append] at hlength
    rw [if_neg hempty, if_pos (by omega), storeArg, hlen]
    refine ⟨fun hlt => ?_, fun hle => ?_⟩
    · rw [List.length_append, List.length_singleton] at hlt
      rw [if_pos hlt]
      refine ⟨_, rfl, List.rel_append hdone (.cons ⟨?_, before, junk, ?_, hstr.symm⟩ .nil)⟩
      · simpa using h.nul
      · show st.buf = _
        rw [h.buf]
        simp
    · rw [List.length_append, List.length_singleton] at hle
      rw [if_neg (by omega)]

/-- A word has been read: it is stored, or there is no room. -/
theorem scansTo_store {word : CStr} {more : List CStr} {p : Nat}
    {f : EnvScan → Except Fault EnvScan}
    (hlen : st.argv.length = words.length)
    (hmore : words.length + 1 < slots →
      ScansTo slots ((words ++ [word]) ++ more) (f { st with argv := st.argv ++ [p] })) :
    ScansTo slots (words ++ word :: more) (storeArg slots st p >>= f) := by
  rw [storeArg, hlen, ← List.singleton_append, ← List.append_assoc]
  by_cases hroom : words.length + 1 < slots
  · rw [if_pos hroom, ok_bind]
    exact hmore hroom
  · rw [if_neg hroom, error_bind]
    refine ⟨fun hlt => ?_, fun _ => rfl⟩
    simp only [List.length_append, List.length_singleton] at hlt
    omega

/-- The scan reads the words of the rest, wherever it stands. -/
def ReadsRest (slots fuel : Nat) (rest : CStr) : Prop :=
  ∀ (q : Option (UInt8 × CStr)) (cur : CStr) (words : List CStr) (before junk : List UInt8)
    (st : EnvScan)
    (s : Nat), Scanned st s words q cur rest before junk → words.length < slots →
    ScansTo slots (words ++ readWords q cur rest) (scanEnv slots fuel s st)

/-- A round reads the character at `s`. -/
theorem Scanned.scanEnv_succ (h : Scanned st s words q cur (c :: rest) before junk) (fuel : Nat) :
    scanEnv slots (fuel + 1) s st =
      scanChar slots s c st >>= fun r => scanEnv slots fuel (r.1 + 1) r.2 := by
  have hread : st.buf[s]? = some c := h.read
  have hc : c ≠ 0 := by
    rintro rfl
    exact h.nul (by simp)
  rw [scanEnv, hread, inBlock_some, ok_bind, if_neg hc]

/-- A round outside of quotes. -/
theorem Scanned.outside {fuel : Nat} (hrest : ReadsRest slots fuel rest)
    (h : Scanned st s words none cur (c :: rest) before junk) (hslots : words.length < slots) :
    ScansTo slots (words ++ readWords none cur (c :: rest)) (scanEnv slots (fuel + 1) s st) := by
  rw [h.scanEnv_succ, scanChar, h.quote]
  dsimp only [Option.map_none]
  rw [readWords]
  by_cases hspace : c = 32
  · -- a word ends
    rw [if_pos hspace, if_pos hspace, bind_assoc]
    refine scansTo_store h.done.length_eq (fun hroom => ?_)
    show ScansTo slots _ (scanEnv slots fuel (s + 1)
      ⟨st.buf.set s 0, st.argv ++ [st.str], s + 1, st.quote, st.strEnd⟩)
    rw [h.quote]
    exact hrest none [] _ _ junk _ _ (h.store h.word) (by simpa using hroom)
  · rw [if_neg hspace, if_neg hspace]
    by_cases hopen : c = 34 ∨ c = 39
    · rw [if_pos hopen, if_pos hopen, ok_bind]
      exact hrest _ _ _ _ junk _ _ h.opened hslots
    · rw [if_neg hopen, if_neg hopen, ok_bind]
      have hscanned := h.next none (cur ++ [c]) (by simp [quoted]) h.quote.symm
      exact hrest _ _ _ _ junk _ _ hscanned hslots

/-- A round between quotes. -/
theorem Scanned.inside {fuel : Nat} {quote : UInt8} {body : CStr}
    (hrest : ReadsRest slots fuel rest)
    (h : Scanned st s words (some (quote, body)) cur (c :: rest) before junk)
    (hslots : words.length < slots) :
    ScansTo slots (words ++ readWords (some (quote, body)) cur (c :: rest))
      (scanEnv slots (fuel + 1) s st) := by
  rw [h.scanEnv_succ, scanChar, h.quote]
  dsimp only [Option.map_some]
  rw [readWords, h.quoteAt, inBlock_some, ok_bind]
  by_cases hclose : c = quote
  · rw [if_pos hclose, if_pos hclose]
    by_cases hcur : cur = []
    · -- the word began with the quote: it ends here
      subst hcur
      rw [if_pos rfl, if_pos (by rw [h.str]; rfl), bind_assoc]
      refine scansTo_store h.done.length_eq (fun hroom => ?_)
      show ScansTo slots _ (scanEnv slots fuel (s + 1)
        ⟨st.buf.set s 0, st.argv ++ [st.str + 1], s + 1, none, st.strEnd⟩)
      exact hrest none [] _ _ junk _ _ (h.store h.quotedWord) (by simpa using hroom)
    · have hlen := List.length_pos_iff.mpr hcur
      have hpos := h.pos
      simp only [quoted, List.length_cons] at hpos
      have hne : before.length + cur.length ≠ st.str := by
        rw [h.str]
        omega
      obtain ⟨junk', hdrop, hscanned⟩ := h.dropQuotes
      rw [if_neg hcur, if_neg hne, hdrop, ok_bind, ok_bind]
      show ScansTo slots _ (scanEnv slots fuel (s - 2 + 1) _)
      rw [show s - 2 + 1 = s - 1 by omega]
      exact hrest _ _ _ _ junk' _ _ hscanned hslots
  · rw [if_neg hclose, if_neg hclose, ok_bind]
    have hscanned := h.next (some (quote, body ++ [c])) cur (by simp [quoted]) h.quote.symm
    exact hrest _ _ _ _ junk _ _ hscanned hslots

/-- **The scan reads the words of the rest.** -/
theorem Scanned.scansTo :
    ∀ (rest : CStr) (fuel : Nat), rest.length < fuel → ReadsRest slots fuel rest := by
  intro rest
  induction rest with
  | nil =>
    intro fuel hfuel q cur words before junk st s h hslots
    obtain ⟨fuel, rfl⟩ := Nat.exists_eq_succ_of_ne_zero (Nat.ne_of_gt hfuel)
    have hfinish := h.finish fuel hslots
    cases q with
    | none =>
      rw [readWords]
      simpa [quoted] using hfinish
    | some quote =>
      obtain ⟨quote, body⟩ := quote
      rw [readWords]
      simpa [quoted] using hfinish
  | cons c rest ih =>
    intro fuel hfuel q cur words before junk st s h hslots
    rw [List.length_cons] at hfuel
    obtain ⟨fuel, rfl⟩ :=
      Nat.exists_eq_succ_of_ne_zero (Nat.ne_of_gt (Nat.lt_trans (Nat.succ_pos _) hfuel))
    have hrest := ih fuel (by omega)
    cases q with
    | none => exact h.outside hrest hslots
    | some quote => exact h.inside hrest hslots

end Scanned

/--
**What the variable is read as.** Its words come
before the arguments, if there is room for them.
-/
theorem prependOptionsFromEnv_eq (junk : Nat → UInt8) {env : CStr} (hnul : 0 ∉ env) (hne : env ≠ [])
    (argv0 : CStr) (args : List CStr) :
    prependOptionsFromEnv junk (some env) argv0 args =
      if (readWords none [] env).length < env.count 32 + 3
      then .ok (argv0 :: (readWords none [] env ++ args)) else .error .outOfBounds := by
  have hpos := List.length_pos_iff.mpr hne
  obtain ⟨rest, hput⟩ : ∃ rest, putRange ((List.range (8 * env.length)).map junk) 0 (env ++ [0])
      = some (env ++ 0 :: rest) := by
    rw [putRange, if_pos (by simp; omega)]
    exact ⟨_, congrArg some (by rw [List.take_zero, List.nil_append, List.append_assoc]; rfl)⟩
  have hstart : Scanned ⟨env ++ 0 :: rest, [], 0, none, env.length⟩ 0 [] none [] env [] rest :=
    ⟨by simp [quoted], rfl, rfl, by simp, rfl, .nil, by simpa [quoted] using hnul⟩
  have hscan : ScansTo (args.length + 1 + env.count 32 + 3) (readWords none [] env)
      (scanEnv (args.length + 1 + env.count 32 + 3) (env.length + 1) 0
        ⟨env ++ 0 :: rest, [], 0, none, env.length⟩) :=
    Scanned.scansTo env _ (Nat.lt_succ_self _) none [] [] [] rest _ 0 hstart (by simp)
  simp only [prependOptionsFromEnv, hput, inBlock_some, ok_bind]
  by_cases hroom : (readWords none [] env).length < args.length + 1 + env.count 32 + 3
  · obtain ⟨st, hst, hwords⟩ := hscan.1 hroom
    rw [hst, ok_bind, mapM_stringAt hwords, ok_bind, hwords.length_eq]
    by_cases hfits : (readWords none [] env).length < env.count 32 + 3
    · rw [if_pos hfits, if_pos (by omega)]
    · rw [if_neg hfits, if_neg (by omega)]
  · rw [hscan.2 (Nat.not_lt.mp hroom), error_bind, if_neg (by omega)]

/-! ## Which words survive -/

/-- A text without a space or a quote. -/
def Plain (s : CStr) : Prop := ∀ c ∈ s, c ≠ 32 ∧ c ≠ 34 ∧ c ≠ 39

instance (s : CStr) : Decidable (Plain s) :=
  inferInstanceAs (Decidable (∀ c ∈ s, c ≠ 32 ∧ c ≠ 34 ∧ c ≠ 39))

/--
A text that survives at the end of the variable: it is not empty, and if it has a space
or a quote, the first of them is a quote that does not occur again.
-/
def SurvivesLast (s : CStr) : Prop :=
  s ≠ [] ∧ (Plain s ∨ ∃ u q v, s = u ++ q :: v ∧ Plain u ∧ (q = 34 ∨ q = 39) ∧ q ∉ v)

theorem readWords_plain {u : CStr} (hu : Plain u) (cur rest : CStr) :
    readWords none cur (u ++ rest) = readWords none (cur ++ u) rest := by
  induction u generalizing cur with
  | nil => simp
  | cons c u ih =>
    obtain ⟨hspace, hdouble, hsingle⟩ := hu c (by simp)
    rw [List.cons_append, readWords, if_neg hspace, if_neg (not_or.mpr ⟨hdouble, hsingle⟩),
      ih (fun c hc => hu c (List.mem_cons_of_mem _ hc)), List.append_assoc]
    rfl

/-- A quote that is closed. -/
theorem readWords_closed {q : UInt8} {v : CStr} (hv : q ∉ v) (body cur rest : CStr) :
    readWords (some (q, body)) cur (v ++ q :: rest) =
      if cur = [] then (body ++ v) :: readWords none [] rest
      else readWords none (cur ++ (body ++ v)) rest := by
  induction v generalizing body with
  | nil => rw [List.nil_append, readWords, if_pos rfl, List.append_nil]
  | cons c v ih =>
    obtain ⟨hc, hv'⟩ := not_or.mp (fun h => hv (List.mem_cons.mpr h))
    rw [List.cons_append, readWords, if_neg (Ne.symm hc), ih hv', List.append_assoc]
    rfl

/-- A quote that is not closed. -/
theorem readWords_open {q : UInt8} {v : CStr} (hv : q ∉ v) (body cur : CStr) :
    readWords (some (q, body)) cur v = [cur ++ q :: (body ++ v)] := by
  induction v generalizing body with
  | nil => rw [readWords, List.append_nil]
  | cons c v ih =>
    obtain ⟨hc, hv'⟩ := not_or.mp (fun h => hv (List.mem_cons.mpr h))
    rw [readWords, if_neg (Ne.symm hc), ih hv', List.append_assoc]
    rfl

/-- The length of words with a separator behind each. -/
def spread (words : List CStr) : Nat := (words.map (fun w => w.length + 1)).sum

@[simp] theorem spread_nil : spread [] = 0 := rfl

@[simp] theorem spread_cons (w : CStr) (words : List CStr) :
    spread (w :: words) = w.length + 1 + spread words := rfl

/-- Words never take more room than the text they come from. -/
theorem spread_readWords_le (rest : CStr) :
    ∀ (q : Option (UInt8 × CStr)) (cur : CStr),
      spread (readWords q cur rest) ≤ cur.length + (quoted q).length + rest.length + 1 := by
  induction rest with
  | nil =>
    intro q cur
    cases q with
    | none =>
      rw [readWords]
      split
      · exact Nat.zero_le _
      · simp [quoted]
    | some q => simp [readWords, quoted]
  | cons c rest ih =>
    intro q cur
    cases q with
    | none =>
      rw [readWords]
      split
      · have := ih none []
        simp only [spread_cons, quoted, List.length_nil, List.length_cons] at this ⊢
        omega
      · split
        · have := ih (some (c, [])) cur
          simp only [quoted, List.length_nil, List.length_cons] at this ⊢
          omega
        · have := ih none (cur ++ [c])
          simp only [quoted, List.length_append, List.length_nil, List.length_cons] at this ⊢
          omega
    | some q =>
      obtain ⟨q, body⟩ := q
      rw [readWords]
      split
      · split
        · have := ih none []
          simp only [spread_cons, quoted, List.length_nil, List.length_cons] at this ⊢
          omega
        · have := ih none (cur ++ body)
          simp only [quoted, List.length_append, List.length_nil, List.length_cons] at this ⊢
          omega
      · have := ih (some (q, body ++ [c])) cur
        simp only [quoted, List.length_append, List.length_nil, List.length_cons] at this ⊢
        omega

/-- A pair of quotes is lost. -/
theorem spread_closed_lt {q : UInt8} {v : CStr} (hv : q ∉ v) (cur rest : CStr) :
    spread (readWords (some (q, [])) cur (v ++ q :: rest)) < cur.length + v.length + rest.length + 3 := by
  rw [readWords_closed hv, List.nil_append]
  split
  · have := spread_readWords_le rest none []
    simp only [spread_cons, quoted, List.length_nil] at this ⊢
    omega
  · have := spread_readWords_le rest none (cur ++ v)
    simp only [quoted, List.length_append, List.length_nil] at this ⊢
    omega

/-- The first space or quote of a text. -/
theorem exists_special {s : CStr} (h : ¬ Plain s) :
    ∃ u c v, s = u ++ c :: v ∧ Plain u ∧ (c = 32 ∨ c = 34 ∨ c = 39) := by
  induction s with
  | nil => exact absurd (by simp [Plain]) h
  | cons c s ih =>
    by_cases hc : c = 32 ∨ c = 34 ∨ c = 39
    · exact ⟨[], c, s, rfl, by simp [Plain], hc⟩
    · have hrest : ¬ Plain s := by
        refine fun hs => h (fun d hd => ?_)
        rcases List.mem_cons.mp hd with rfl | hd
        · simpa [not_or] using hc
        · exact hs d hd
      obtain ⟨u, d, v, rfl, hu, hd⟩ := ih hrest
      refine ⟨c :: u, d, v, rfl, fun e he => ?_, hd⟩
      rcases List.mem_cons.mp he with rfl | he
      · simpa [not_or] using hc
      · exact hu e he

/-- There is only one first space or quote. -/
theorem special_unique {u v u' v' : CStr} {c c' : UInt8} (hu : Plain u) (hu' : Plain u')
    (hc : c = 32 ∨ c = 34 ∨ c = 39) (hc' : c' = 32 ∨ c' = 34 ∨ c' = 39)
    (heq : u ++ c :: v = u' ++ c' :: v') : c = c' ∧ v = v' := by
  have hno : ∀ {x : UInt8} {w : CStr}, Plain w → x ∈ w → ¬ (x = 32 ∨ x = 34 ∨ x = 39) := by
    intro x w hw hx
    simpa [not_or] using hw x hx
  rcases List.append_eq_append_iff.mp heq with ⟨x, rfl, hx⟩ | ⟨x, rfl, hx⟩
  · cases x with
    | nil => exact List.cons.inj hx
    | cons y x =>
      obtain ⟨rfl, _⟩ := List.cons.inj hx
      exact absurd hc (hno hu' (by simp))
  · cases x with
    | nil =>
      obtain ⟨h1, h2⟩ := List.cons.inj hx
      exact ⟨h1.symm, h2.symm⟩
    | cons y x =>
      obtain ⟨rfl, _⟩ := List.cons.inj hx
      exact absurd hc' (hno hu (by simp))

/-- A text whose first special character is a quote: the quote is closed, or all is one word. -/
theorem readWords_quote {u : CStr} {q : UInt8} (hu : Plain u) (hq : q = 34 ∨ q = 39) (rest : CStr) :
    (q ∈ rest ∧ spread (readWords none [] (u ++ q :: rest)) < (u ++ q :: rest).length + 1) ∨
      (q ∉ rest ∧ readWords none [] (u ++ q :: rest) = [u ++ q :: rest]) := by
  have hspace : q ≠ 32 := by
    rintro rfl
    rcases hq with hq | hq <;> cases hq
  rw [readWords_plain hu, List.nil_append, readWords, if_neg hspace, if_pos hq]
  by_cases hmem : q ∈ rest
  · refine .inl ⟨hmem, ?_⟩
    obtain ⟨v, w, rfl, hv⟩ := List.eq_append_cons_of_mem hmem
    have := spread_closed_lt hv u w
    simp only [List.length_append, List.length_cons]
    omega
  · exact .inr ⟨hmem, by rw [readWords_open hmem, List.nil_append]⟩

/-- Words with a space between them. -/
def joinWords : List CStr → CStr
  | [] => []
  | [w] => w
  | w :: words => w ++ 32 :: joinWords words

theorem joinWords_cons {words : List CStr} (h : words ≠ []) (w : CStr) :
    joinWords (w :: words) = w ++ 32 :: joinWords words := by
  cases words with
  | nil => exact absurd rfl h
  | cons v words => rfl

theorem spread_eq {words : List CStr} (h : words ≠ []) :
    spread words = (joinWords words).length + 1 := by
  induction words with
  | nil => exact absurd rfl h
  | cons w words ih =>
    by_cases hrest : words = []
    · subst hrest
      simp [joinWords]
    · rw [joinWords_cons hrest, spread_cons, ih hrest]
      simp only [List.length_append, List.length_cons]
      omega

/-- One word comes back exactly if it survives at the end. -/
theorem readWords_last_iff (w : CStr) : readWords none [] w = [w] ↔ SurvivesLast w := by
  by_cases hplain : Plain w
  · have hread : readWords none [] w = if w = [] then [] else [w] := by
      have := readWords_plain hplain [] []
      rwa [List.append_nil, List.nil_append, readWords] at this
    rw [hread]
    by_cases hempty : w = []
    · simp [hempty, SurvivesLast]
    · simp [hempty, SurvivesLast, hplain]
  · obtain ⟨u, c, v, rfl, hu, hc | hc⟩ := exists_special hplain
    · -- a space divides the word
      subst hc
      refine iff_of_false (fun heq => ?_) ?_
      · rw [readWords_plain hu, List.nil_append, readWords, if_pos rfl] at heq
        have := congrArg List.length (List.cons.inj heq).1
        simp only [List.length_append, List.length_cons] at this
        omega
      · rintro ⟨_, hp | ⟨u', q, v', heq, hu', hq, _⟩⟩
        · exact hplain hp
        · obtain ⟨rfl, _⟩ := special_unique hu hu' (.inl rfl) (.inr hq) heq
          rcases hq with hq | hq <;> cases hq
    · rcases readWords_quote hu hc v with ⟨hmem, hlt⟩ | ⟨hmem, hread⟩
      · refine iff_of_false (fun heq => ?_) ?_
        · rw [heq, spread_eq (by simp)] at hlt
          exact absurd hlt (Nat.lt_irrefl _)
        · rintro ⟨_, hp | ⟨u', q, v', heq, hu', hq, hv'⟩⟩
          · exact hplain hp
          · obtain ⟨rfl, rfl⟩ := special_unique hu hu' (.inr hc) (.inr hq) heq
            exact hv' hmem
      · exact iff_of_true hread ⟨by simp, .inr ⟨u, c, v, rfl, hu, hc, hmem⟩⟩

/-- **Words come back** exactly if all but the last are plain and the last survives. -/
theorem readWords_joinWords_iff (words : List CStr) (last : CStr) :
    readWords none [] (joinWords (words ++ [last])) = words ++ [last] ↔
      (∀ w ∈ words, Plain w) ∧ SurvivesLast last := by
  induction words with
  | nil => simpa [joinWords] using readWords_last_iff last
  | cons w words ih =>
    have hne : words ++ [last] ≠ [] := by simp
    rw [List.cons_append, joinWords_cons hne]
    by_cases hplain : Plain w
    · rw [readWords_plain hplain, List.nil_append, readWords, if_pos rfl, List.cons_inj_right, ih]
      simp [hplain]
    · refine iff_of_false (fun heq => ?_) (fun hall => hplain (hall.1 w (by simp)))
      obtain ⟨u, c, v, rfl, hu, hc | hc⟩ := exists_special hplain
      · -- the word is divided
        subst hc
        rw [List.append_assoc, readWords_plain hu, List.nil_append, List.cons_append, readWords,
          if_pos rfl] at heq
        have := congrArg List.length (List.cons.inj heq).1
        simp only [List.length_append, List.length_cons] at this
        omega
      · have hjoined : u ++ c :: v ++ 32 :: joinWords (words ++ [last])
            = u ++ c :: (v ++ 32 :: joinWords (words ++ [last])) := by simp
        have hspread : spread ((u ++ c :: v) :: (words ++ [last])) = _ := spread_eq (by simp)
        rw [hjoined] at heq
        rw [joinWords_cons hne, hjoined] at hspread
        rcases readWords_quote hu hc (v ++ 32 :: joinWords (words ++ [last])) with ⟨_, hlt⟩ | ⟨_, hread⟩
        · -- a pair of quotes is lost
          rw [heq, hspread] at hlt
          exact absurd hlt (Nat.lt_irrefl _)
        · -- all is one word
          rw [hread] at heq
          have := congrArg List.length heq
          simp at this

/-! ## Options -/

/-- The arguments an option was given as. -/
def optionArgs : ModprobeOption → List CStr
  | .config path => [cstr "-C", path]
  | .syslog => [cstr "-s"]
  | .quiet => [cstr "-q"]
  | .verbose => [cstr "-v"]

/-- The variable that holds some words. -/
def envOf (words : List CStr) : Option CStr := if words = [] then none else some (joinWords words)

theorem envOf_of_ne {words : List CStr} (h : words ≠ []) :
    envOf words = some (joinWords words) := if_neg h

theorem envOf_append (words : List CStr) (w : CStr) :
    envOf (words ++ [w]) = some (envModprobeOptionsAppend (envOf words) w) := by
  rw [envOf_of_ne (by simp)]
  refine congrArg some ?_
  induction words with
  | nil => rfl
  | cons v words ih =>
    rw [List.cons_append, joinWords_cons (by simp), ih, envOf_of_ne (List.cons_ne_nil v words)]
    by_cases hempty : words = []
    · subst hempty
      rfl
    · rw [envOf_of_ne hempty, joinWords_cons hempty]
      simp [envModprobeOptionsAppend]

/-- An option adds its arguments to the variable. -/
theorem appendOption_envOf (words : List CStr) (o : ModprobeOption) :
    appendOption (envOf words) o = envOf (words ++ optionArgs o) := by
  cases o with
  | config path =>
    rw [appendOption, ← envOf_append, ← envOf_append, List.append_assoc]
    rfl
  | syslog => exact (envOf_append words _).symm
  | quiet => exact (envOf_append words _).symm
  | verbose => exact (envOf_append words _).symm

/-- The variable holds the arguments of all options. -/
theorem modprobeOptions_eq (opts : List ModprobeOption) :
    modprobeOptions opts = envOf (opts.flatMap optionArgs) := by
  induction opts using List.reverseRecOn with
  | nil => rfl
  | append_singleton opts o ih =>
    rw [modprobeOptions, List.foldl_append, List.foldl_cons, List.foldl_nil]
    change appendOption (modprobeOptions opts) o = _
    rw [ih, appendOption_envOf, List.flatMap_append, List.flatMap_singleton]

theorem joinWords_ne_nil {w : CStr} {words : List CStr} (hmem : w ∈ words) (hw : w ≠ []) :
    joinWords words ≠ [] := by
  induction words with
  | nil => cases hmem
  | cons v words ih =>
    by_cases hempty : words = []
    · subst hempty
      rwa [joinWords, ← List.mem_singleton.mp hmem]
    · rw [joinWords_cons hempty]
      simp

theorem nul_not_mem_joinWords {words : List CStr} (h : ∀ w ∈ words, 0 ∉ w) :
    0 ∉ joinWords words := by
  induction words with
  | nil => simp [joinWords]
  | cons w words ih =>
    by_cases hempty : words = []
    · subst hempty
      exact h w (by simp)
    · rw [joinWords_cons hempty]
      simp only [List.mem_append, List.mem_cons, not_or]
      exact ⟨h w (by simp), by decide, ih (fun v hv => h v (List.mem_cons_of_mem _ hv))⟩

/-- There are enough spaces for the pointers. -/
theorem length_le_count (words : List CStr) : words.length ≤ (joinWords words).count 32 + 1 := by
  induction words with
  | nil => exact Nat.zero_le _
  | cons w words ih =>
    by_cases hempty : words = []
    · subst hempty
      simp
    · rw [joinWords_cons hempty, List.length_cons, List.count_append, List.count_cons_self]
      omega

/-- What a process makes of words in the variable. -/
theorem prepend_words_iff (junk : Nat → UInt8) {words : List CStr} {last : CStr}
    (hnul : ∀ w ∈ words ++ [last], 0 ∉ w)
    (hfirst : joinWords (words ++ [last]) ≠ []) (argv0 : CStr) (args : List CStr) :
    prependOptionsFromEnv junk (envOf (words ++ [last])) argv0 args =
      .ok (argv0 :: (words ++ [last] ++ args)) ↔
      (∀ w ∈ words, Plain w) ∧ SurvivesLast last := by
  rw [envOf_of_ne (by simp), prependOptionsFromEnv_eq junk (nul_not_mem_joinWords hnul) hfirst,
    ← readWords_joinWords_iff]
  constructor
  · intro h
    split at h
    · have := (List.cons.inj (Except.ok.inj h)).2
      exact List.append_cancel_right this
    · cases h
  · intro h
    have hroom := length_le_count (words ++ [last])
    rw [h, if_pos (by omega)]

/-- The arguments of an option: a flag that is plain and, last, a path if it has one. -/
theorem optionArgs_cases (o : ModprobeOption) :
    (∃ path, o = .config path ∧ optionArgs o = [cstr "-C", path]) ∨
      ∃ flag, (∀ path, o ≠ .config path) ∧ optionArgs o = [flag] ∧ flag ≠ [] ∧ Plain flag ∧
        0 ∉ flag := by
  cases o with
  | config path => exact .inl ⟨path, rfl, rfl⟩
  | syslog => exact .inr ⟨_, by simp, rfl, by decide⟩
  | quiet => exact .inr ⟨_, by simp, rfl, by decide⟩
  | verbose => exact .inr ⟨_, by simp, rfl, by decide⟩

theorem flagC_plain : Plain (cstr "-C") ∧ 0 ∉ cstr "-C" ∧ cstr "-C" ≠ [] := by decide

/-- What holds of the flags and of every path holds of every argument. -/
theorem forall_args_iff {p : CStr → Prop} (opts : List ModprobeOption)
    (hflag : ∀ flag : CStr, flag ≠ [] → Plain flag → 0 ∉ flag → p flag) :
    (∀ w ∈ opts.flatMap optionArgs, p w) ↔ ∀ path, .config path ∈ opts → p path := by
  constructor
  · intro h path hpath
    exact h path (List.mem_flatMap.mpr ⟨_, hpath, by simp [optionArgs]⟩)
  · intro h w hw
    obtain ⟨o, ho, hw⟩ := List.mem_flatMap.mp hw
    rcases optionArgs_cases o with ⟨path, rfl, hargs⟩ | ⟨flag, _, hargs, hne, hplain, hnul⟩
    · rw [hargs] at hw
      rcases List.mem_cons.mp hw with rfl | hw
      · exact hflag _ flagC_plain.2.2 flagC_plain.1 flagC_plain.2.1
      · rw [List.mem_singleton.mp hw]
        exact h path ho
    · rw [hargs] at hw
      rw [List.mem_singleton.mp hw]
      exact hflag flag hne hplain hnul

/--
**Which options come back.** A process that is started reads the options of the one that
started it, in front of its own arguments, exactly if every path that is not the very
last word has no space and no quote, and the path that is, if there is one, is not empty
and has none either, or a quote as the first of them, which does not occur again.
-/
theorem modprobeOptions_intact_iff (junk : Nat → UInt8) (argv0 : CStr) (args : List CStr)
    (opts : List ModprobeOption) (hnul : ∀ path, .config path ∈ opts → 0 ∉ path) :
    prependOptionsFromEnv junk (modprobeOptions opts) argv0 args
        = .ok (argv0 :: (opts.flatMap optionArgs ++ args)) ↔
      (∀ path, .config path ∈ opts.dropLast → Plain path) ∧
        ∀ path, opts.getLast? = some (.config path) → SurvivesLast path := by
  rw [modprobeOptions_eq]
  cases opts using List.reverseRecOn with
  | nil => simp [envOf, prependOptionsFromEnv]
  | append_singleton opts o =>
    have hargs : ∀ w ∈ (opts ++ [o]).flatMap optionArgs, 0 ∉ w :=
      (forall_args_iff _ (fun _ _ _ hflag => hflag)).mpr hnul
    have hpaths := forall_args_iff opts (fun _ _ hplain _ => hplain)
    rw [List.dropLast_concat, List.getLast?_concat]
    rw [List.flatMap_append, List.flatMap_singleton] at hargs ⊢
    rcases optionArgs_cases o with ⟨path, rfl, ho⟩ | ⟨flag, hconfig, ho, hne, hplain, _⟩
    · -- the last word is a path
      have hsplit : opts.flatMap optionArgs ++ optionArgs (.config path)
          = (opts.flatMap optionArgs ++ [cstr "-C"]) ++ [path] := by simp [ho]
      rw [hsplit] at hargs ⊢
      rw [prepend_words_iff junk hargs (joinWords_ne_nil (w := cstr "-C") (by simp) flagC_plain.2.2),
        List.forall_mem_append, hpaths]
      simp [flagC_plain.1]
    · -- the last word is a flag
      rw [ho] at hargs ⊢
      rw [prepend_words_iff junk hargs (joinWords_ne_nil (w := flag) (by simp) hne), hpaths]
      have hsurvives : SurvivesLast flag := ⟨hne, .inl hplain⟩
      simp [hsurvives, hconfig]

/-- A path with a quote and then a space in it, as the very last word. -/
def quotePath : List ModprobeOption := [.verbose, .config (cstr "/tmp/it's my.d")]

theorem modprobeOptions_intact_quote :
    (∀ path, .config path ∈ quotePath → 0 ∉ path) ∧
      prependOptionsFromEnv (fun _ => 0) (modprobeOptions quotePath)
          (cstr "modprobe") [cstr "loop"]
        = .ok [cstr "modprobe", cstr "-v", cstr "-C", cstr "/tmp/it's my.d", cstr "loop"] := by
  have hnul : ∀ path, .config path ∈ quotePath → 0 ∉ path := by
    intro path hpath
    simp only [quotePath, List.mem_cons, reduceCtorEq, List.not_mem_nil, false_or, or_false,
      ModprobeOption.config.injEq] at hpath
    subst hpath
    decide
  have hlast : SurvivesLast (cstr "/tmp/it's my.d") :=
    ⟨by decide, .inr ⟨cstr "/tmp/it", 39, cstr "s my.d", by decide, by decide, .inr rfl, by decide⟩⟩
  refine ⟨hnul, (modprobeOptions_intact_iff (fun _ => 0) (cstr "modprobe") [cstr "loop"]
    quotePath hnul).mpr ⟨?_, ?_⟩⟩
  · intro path hpath
    exact absurd hpath (by simp [quotePath])
  · intro path hpath
    obtain rfl : cstr "/tmp/it's my.d" = path := by simpa [quotePath] using hpath
    exact hlast

/-- The name of a directory with a space in it becomes two arguments. -/
theorem config_path_divided :
    prependOptionsFromEnv (fun _ => 0) (modprobeOptions [.config (cstr "/my dir")])
        (cstr "modprobe") [cstr "loop"]
      = .ok [cstr "modprobe", cstr "-C", cstr "/my", cstr "dir", cstr "loop"] ∧
    [cstr "modprobe", cstr "-C", cstr "/my", cstr "dir", cstr "loop"]
      ≠ cstr "modprobe" ::
        ([ModprobeOption.config (cstr "/my dir")].flatMap optionArgs ++ [cstr "loop"]) := by
  decide

end Kmod.OptionsEnv
