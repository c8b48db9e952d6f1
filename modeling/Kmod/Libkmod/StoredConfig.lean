import Kmod.Libkmod.SoftdepText

/-!
# What a configuration holds

Whatever lines have been parsed, what is stored of them is in one form (`Stored`): names that
`underscores` leaves alone, texts in one piece, and blocks for the dependencies. A step is a line
(`Stored.parseLine`), a run the lines of the files (`stored_of_parse`).
-/

namespace Kmod.StoredConfig

open Kmod Kmod.Bytes Kmod.Memory

/-! ## What is stored -/

/-- The characters that a line can have, without a backslash. -/
def IsText (s : CStr) : Prop := ∀ c ∈ s, c ≠ 0 ∧ c ≠ 10 ∧ c ≠ 92

instance : DecidablePred IsText := fun s =>
  List.decidableBAll (fun c => c ≠ 0 ∧ c ≠ 10 ∧ c ≠ 92) s

/-- A word that `underscores` leaves alone. -/
structure Name (s : CStr) : Prop where
  ne : s ≠ []
  blank : ∀ c ∈ s, isBlank c = false
  kept : underscoresLoop false s = some s
  text : IsText s

instance : DecidablePred Name := fun s =>
  decidable_of_iff (s ≠ [] ∧ (∀ c ∈ s, isBlank c = false) ∧ underscoresLoop false s = some s ∧
    IsText s) ⟨fun h => ⟨h.1, h.2.1, h.2.2.1, h.2.2.2⟩, fun h => ⟨h.ne, h.blank, h.kept, h.text⟩⟩

/-- What follows a name on a line. -/
def Rest (s : CStr) : Prop := s ≠ [] ∧ IsText s

/-- The words that a text is scanned for: the first one may have a space in front. -/
def ScannedWords : List CStr → Prop
  | [] => True
  | w :: ws =>
    (∃ lead v, w = lead ++ v ∧ IsWord v ∧ lead.length ≤ 1 ∧ ∀ c ∈ lead, isspace c = true) ∧
      ∀ v ∈ ws, IsWord v

/-- The block for the words of a weakdep. -/
def weakBlock (modname : CStr) (ws : List CStr) : WeakdepBlock :=
  ⟨modname ++ [0] ++ packed (weakWords ws), pointers () (modname.length + 1) (weakWords ws)⟩

/-- A softdep as it is stored. -/
def StoredSoftdep (dep : SoftdepBlock) : Prop :=
  ∃ name st, dep = blockOf name st ∧ Name name ∧ SoftdepFits name st ∧
    ∀ e ∈ st, Storable e ∧ IsText e.2

/-- A weakdep as it is stored. -/
def StoredWeakdep (dep : WeakdepBlock) : Prop :=
  ∃ name ws, dep = weakBlock name ws ∧ Name name ∧ WeakdepFits name ws ∧ ScannedWords ws ∧
    ∀ w ∈ ws, IsText w

/-- **What a configuration holds** after some lines have been parsed. -/
structure Stored (config : KmodConfig) : Prop where
  aliases : ∀ a ∈ config.aliases, Name a.1 ∧ Name a.2
  blacklists : ∀ n ∈ config.blacklists, Name n
  options : ∀ o ∈ config.options, Name o.1 ∧ Rest o.2 ∧ 9 ∉ o.2
  install : ∀ c ∈ config.installCommands, Name c.1 ∧ Rest c.2
  remove : ∀ c ∈ config.removeCommands, Name c.1 ∧ Rest c.2
  softdeps : ∀ dep ∈ config.softdeps, StoredSoftdep dep
  weakdeps : ∀ dep ∈ config.weakdeps, StoredWeakdep dep

/-! ## Parsing keeps it so -/

theorem mem_of_mem_underscoresLoop {s : CStr} :
    ∀ {inside : Bool} {t : CStr}, underscoresLoop inside s = some t →
      ∀ c ∈ t, c = 95 ∨ c ∈ s := by
  induction s with
  | nil =>
    intro inside t h c hc
    cases inside with
    | false =>
      obtain rfl := Option.some.inj h
      exact absurd hc List.not_mem_nil
    | true => exact absurd h (by simp [underscoresLoop])
  | cons d s ih =>
    intro inside t h c hc
    have hmap : ∀ {inside : Bool} {x : UInt8}, x = 95 ∨ x = d →
        (underscoresLoop inside s).map (x :: ·) = some t → c = 95 ∨ c ∈ d :: s := by
      intro inside x hx h
      obtain ⟨u, hu, rfl⟩ := Option.map_eq_some_iff.mp h
      rcases List.mem_cons.mp hc with rfl | hc
      · rcases hx with hx | hx
        · exact .inl hx
        · exact .inr (hx ▸ List.mem_cons_self ..)
      · exact (ih hu c hc).imp id (List.mem_cons_of_mem _)
    cases inside with
    | true => exact hmap (.inr rfl) h
    | false =>
      unfold underscoresLoop at h
      split at h
      · exact hmap (.inl rfl) h
      · split at h
        · exact absurd h (by simp)
        · exact hmap (.inr rfl) h

/-- What `underscores` leaves, it leaves alone. -/
theorem underscoresLoop_again {s : CStr} :
    ∀ {inside : Bool} {t : CStr}, underscoresLoop inside s = some t →
      underscoresLoop inside t = some t := by
  induction s with
  | nil =>
    intro inside t h
    cases inside with
    | false =>
      obtain rfl := Option.some.inj h
      rfl
    | true => exact absurd h (by simp [underscoresLoop])
  | cons d s ih =>
    intro inside t h
    cases inside with
    | true =>
      obtain ⟨u, hu, rfl⟩ := Option.map_eq_some_iff.mp h
      rw [underscoresLoop, ih hu]
      rfl
    | false =>
      unfold underscoresLoop at h
      split at h
      · obtain ⟨u, hu, rfl⟩ := Option.map_eq_some_iff.mp h
        show (underscoresLoop false u).map (95 :: ·) = _
        rw [ih hu]
        rfl
      · next hdash =>
        split at h
        · exact absurd h (by simp)
        · next hclose =>
          obtain ⟨u, hu, rfl⟩ := Option.map_eq_some_iff.mp h
          rw [underscoresLoop, if_neg hdash, if_neg hclose, ih hu]
          rfl

theorem IsText.subset {s t : CStr} (h : IsText s) (hsub : ∀ c ∈ t, c ∈ s) : IsText t :=
  fun c hc => h c (hsub c hc)

theorem IsText.append {s t : CStr} (hs : IsText s) (ht : IsText t) : IsText (s ++ t) := by
  intro c hc
  rcases List.mem_append.mp hc with hc | hc
  · exact hs c hc
  · exact ht c hc

theorem IsText.nul {s : CStr} (h : IsText s) : 0 ∉ s := fun h0 => (h 0 h0).1 rfl

section Tokens

variable {delim : UInt8 → Bool} {s tok rest : CStr}

/-- A token, and what is left of the line. -/
theorem strtokR_some (h : strtokR delim s = (some tok, rest)) :
    tok ≠ [] ∧ (∀ c ∈ tok, delim c = false) ∧ (∀ c ∈ tok, c ∈ s) ∧ ∀ c ∈ rest, c ∈ s := by
  unfold strtokR at h
  have hsub := List.dropWhile_subset (l := s) delim
  cases hdrop : s.dropWhile delim with
  | nil =>
    rw [hdrop] at h
    exact absurd (Prod.mk.inj h).1 (by simp)
  | cons c t =>
    rw [hdrop] at h hsub
    obtain ⟨htok, rfl⟩ := Prod.mk.inj h
    obtain rfl := Option.some.inj htok
    have hc : delim c = false := by
      have := List.head?_dropWhile_not delim s
      rw [hdrop] at this
      simpa using this
    refine ⟨?_, fun x hx => ?_, fun x hx => ?_, fun x hx => ?_⟩
    · rw [List.takeWhile_cons_of_pos (by simp [hc])]
      simp
    · simpa using List.mem_takeWhile_imp hx
    · exact hsub (List.takeWhile_subset _ hx)
    · exact hsub (List.dropWhile_subset _ (List.drop_subset _ _ hx))

/-- What `underscores` makes of a token is a name. -/
theorem name_of_underscores {tok : Option CStr} {name : CStr} (hs : IsText s)
    (htok : ∀ t ∈ tok, t ≠ [] ∧ (∀ c ∈ t, isBlank c = false) ∧ ∀ c ∈ t, c ∈ s)
    (h : underscores tok = some name) : Name name := by
  obtain ⟨t, rfl, ht⟩ := Option.bind_eq_some_iff.mp h
  obtain ⟨hne, hblank, hsub⟩ := htok t rfl
  have hchars := mem_of_mem_underscoresLoop ht
  refine ⟨fun hnil => ?_, fun c hc => ?_, underscoresLoop_again ht, fun c hc => ?_⟩
  · have hlen := underscoresLoop_length ht
    rw [hnil] at hlen
    exact hne (List.eq_nil_of_length_eq_zero hlen.symm)
  · rcases hchars c hc with rfl | hc
    · rfl
    · exact hblank c hc
  · rcases hchars c hc with rfl | hc
    · decide
    · exact hs c (hsub c hc)

end Tokens

/-- The characters of scanned words are those of the line. -/
theorem mem_of_mem_scanWords (line : CStr) :
    ∀ {tok : CStr} {wasSpace : Bool} {w : CStr} {c : UInt8}, w ∈ scanWords line tok wasSpace →
      c ∈ w → c ∈ line ∨ c ∈ tok := by
  induction line with
  | nil =>
    intro tok wasSpace w c hw hc
    unfold scanWords at hw
    split at hw
    · exact absurd hw List.not_mem_nil
    · exact .inr (List.mem_singleton.mp hw ▸ hc)
  | cons d line ih =>
    intro tok wasSpace w c hw hc
    have hlift : ∀ {tok' : CStr} {wasSpace' : Bool}, (∀ x ∈ tok', x = d ∨ x ∈ tok) →
        w ∈ scanWords line tok' wasSpace' → c ∈ d :: line ∨ c ∈ tok := by
      intro tok' wasSpace' htok hw
      rcases ih hw hc with hc | hc
      · exact .inl (List.mem_cons_of_mem _ hc)
      · rcases htok c hc with rfl | hc
        · exact .inl (List.mem_cons_self ..)
        · exact .inr hc
    unfold scanWords at hw
    split at hw
    · refine hlift (fun x hx => ?_) hw
      rcases List.mem_append.mp hx with hx | hx
      · exact .inr hx
      · exact .inl (List.mem_singleton.mp hx)
    · split at hw
      · exact hlift (by simp) hw
      · split at hw
        · exact hlift (fun x hx => .inl (List.mem_singleton.mp hx)) hw
        · rcases List.mem_cons.mp hw with rfl | hw
          · exact .inr hc
          · exact hlift (by simp) hw

/-- A character in front of a word that is being read stays there. -/
theorem scanWords_glued (c : UInt8) (line : CStr) : ∀ tok : CStr, tok ≠ [] →
    ∃ w ws, scanWords line tok false = w :: ws ∧
      scanWords line (c :: tok) false = (c :: w) :: ws := by
  induction line with
  | nil => exact fun tok _ => ⟨tok, [], rfl, rfl⟩
  | cons d line ih =>
    intro tok htok
    unfold scanWords
    by_cases hd : isspace d = true
    · refine ⟨tok, scanWords line [] true, ?_, ?_⟩
      · rw [if_neg (by simp [hd]), if_neg (by simp), if_neg htok]
      · rw [if_neg (by simp [hd]), if_neg (by simp), if_neg (by simp)]
    · rw [if_pos (by simp [hd]), if_pos (by simp [hd])]
      exact ih _ (by simp)

/-- **What a text is scanned for.** -/
theorem scanned_of_line {line : CStr} (hne : line ≠ []) : ScannedWords (scanWords line [] false) := by
  have hwords : ∀ {ws : List CStr}, (∀ w ∈ ws, IsWord w) → ScannedWords ws := by
    intro ws hws
    cases ws with
    | nil => trivial
    | cons w ws =>
      exact ⟨⟨[], w, rfl, hws w (List.mem_cons_self ..), Nat.zero_le _,
        fun _ h => absurd h List.not_mem_nil⟩, fun v hv => hws v (List.mem_cons_of_mem _ hv)⟩
  cases line with
  | nil => exact absurd rfl hne
  | cons c line =>
    by_cases hc : isspace c = true
    · have hfirst : scanWords (c :: line) [] false = scanWords line [c] true := by
        rw [scanWords, if_neg (by simp [hc]), if_neg (by simp), if_pos rfl]
      rw [hfirst]
      cases line with
      | nil => trivial
      | cons d line =>
        by_cases hd : isspace d = true
        · rw [scanWords, if_neg (by simp [hd]), if_pos rfl]
          exact hwords ((isWord_of_scanned line [] true).2 (.inl ⟨rfl, rfl⟩))
        · have hword : IsWord [d] := ⟨by simp, fun x hx => by
            rw [List.mem_singleton.mp hx]
            simpa using hd⟩
          have hall := (isWord_of_scanned line [d] false).2 (.inr ⟨rfl, hword⟩)
          obtain ⟨w, ws, hplain, hglued⟩ := scanWords_glued c line [d] (by simp)
          rw [hplain] at hall
          rw [scanWords, if_pos (by simp [hd])]
          show ScannedWords (scanWords line [c, d] false)
          rw [hglued]
          exact ⟨⟨[c], w, rfl, hall w (List.mem_cons_self ..), Nat.le_refl _,
            fun x hx => List.mem_singleton.mp hx ▸ hc⟩,
            fun v hv => hall v (List.mem_cons_of_mem _ hv)⟩
    · have hword : IsWord [c] := ⟨by simp, fun x hx => by
        rw [List.mem_singleton.mp hx]
        simpa using hc⟩
      rw [scanWords, if_pos (by simp [hc])]
      exact hwords ((isWord_of_scanned line [c] false).2 (.inr ⟨rfl, hword⟩))

theorem mem_of_mem_stored {ws : List CStr} :
    ∀ {mode : SoftdepMode} {e : SoftdepMode × CStr}, e ∈ stored mode ws → e.2 ∈ ws := by
  induction ws with
  | nil => exact fun h => absurd h List.not_mem_nil
  | cons w ws ih =>
    intro mode e he
    rw [stored, List.mem_append] at he
    rcases he with he | he
    · split at he
      · exact absurd he List.not_mem_nil
      · rw [List.mem_singleton.mp he]
        exact List.mem_cons_self ..
    · exact List.mem_cons_of_mem _ (ih he)

/-- The block that `kmod_config_add_weakdep` stores. -/
theorem kmodConfigAddWeakdep_block (config : KmodConfig) {modname line : CStr}
    (h : WeakdepFits modname (scanWords line [] false)) :
    kmodConfigAddWeakdep config modname line = .ok (0, { config with
      weakdeps := config.weakdeps ++ [weakBlock modname (scanWords line [] false)] }) := by
  obtain ⟨hcount, hsize⟩ := h
  generalize hws : scanWords line [] false = ws at *
  have hcopy : scanLine
      (weakdepCopy ws.length (modname.length + 1 + (packed (weakWords ws)).length))
        line [] false ⟨modname ++ [0], []⟩ = .ok (weakBlock modname ws) := by
    rw [scanLine_eq (fun _ _ _ => rfl) line [] false _ (by simp), hws, weakdepCopy_words]
    · simp [weakBlock]
    · simp
    · simp
  unfold kmodConfigAddWeakdep
  rw [scanLine_weakdepCount, hws, if_pos hcount]
  simp only
  rw [if_neg (Nat.not_lt.mpr hsize), hcopy]
  rfl

section Step

variable {config config' : KmodConfig} {line : CStr}

theorem Stored.addSoftdep (h : Stored config) {name text : CStr} (hname : Name name)
    (htext : IsText text)
    (hadd : (kmodConfigAddSoftdep config name text).map Prod.snd = .ok config') :
    Stored config' := by
  by_cases hfits : SoftdepFits name (softdepWords text)
  · rw [kmodConfigAddSoftdep_fits config hfits] at hadd
    obtain rfl := Except.ok.inj hadd
    refine { h with softdeps := fun dep hdep => ?_ }
    rcases List.mem_append.mp hdep with hdep | hdep
    · exact h.softdeps dep hdep
    · rw [List.mem_singleton.mp hdep]
      refine ⟨name, softdepWords text, rfl, hname, hfits, fun e he =>
        ⟨storable_of_line text e he, htext.subset (fun c hc => ?_)⟩⟩
      rcases mem_of_mem_scanWords text (mem_of_mem_stored he) hc with hc | hc
      · exact hc
      · exact absurd hc List.not_mem_nil
  · obtain ⟨err, -, hrefused⟩ := kmodConfigAddSoftdep_refuses config hfits
    rw [hrefused] at hadd
    obtain rfl := Except.ok.inj hadd
    exact h

theorem Stored.addWeakdep (h : Stored config) {name text : CStr} (hname : Name name)
    (htext : Rest text)
    (hadd : (kmodConfigAddWeakdep config name text).map Prod.snd = .ok config') :
    Stored config' := by
  by_cases hfits : WeakdepFits name (scanWords text [] false)
  · rw [kmodConfigAddWeakdep_block config hfits] at hadd
    obtain rfl := Except.ok.inj hadd
    refine { h with weakdeps := fun dep hdep => ?_ }
    rcases List.mem_append.mp hdep with hdep | hdep
    · exact h.weakdeps dep hdep
    · rw [List.mem_singleton.mp hdep]
      refine ⟨name, _, rfl, hname, hfits, scanned_of_line htext.1, fun w hw =>
        htext.2.subset (fun c hc => ?_)⟩
      rcases mem_of_mem_scanWords text hw hc with hc | hc
      · exact hc
      · exact absurd hc List.not_mem_nil
  · obtain ⟨err, -, hrefused⟩ := kmodConfigAddWeakdep_refuses config hfits
    rw [hrefused] at hadd
    obtain rfl := Except.ok.inj hadd
    exact h

/-- What is added by a line with a name and a text. -/
theorem Stored.withModname (h : Stored config) {rest : CStr} (hrest : IsText rest)
    {add : CStr → CStr → Except Fault KmodConfig}
    (hadd : ∀ name text, Name name → Rest text → add name text = .ok config' → Stored config')
    (hline : Kmod.withModname config rest add = .ok config') : Stored config' := by
  unfold Kmod.withModname at hline
  obtain ⟨⟨tok, rest₁⟩, htok⟩ : ∃ p, strtokR isBlank rest = p := ⟨_, rfl⟩
  obtain ⟨⟨text, rest₂⟩, htext⟩ : ∃ p, strtokR noDelim rest₁ = p := ⟨_, rfl⟩
  rw [htok] at hline
  dsimp only at hline
  rw [htext] at hline
  dsimp only at hline
  split at hline
  · next name text hname =>
    refine hadd name text ?_ ?_ hline
    · refine name_of_underscores hrest (fun t ht => ?_) hname
      obtain rfl : tok = some t := ht
      obtain ⟨hne, hblank, hsub, -⟩ := strtokR_some htok
      exact ⟨hne, hblank, hsub⟩
    · cases tok with
      | none => exact absurd hname (by simp [underscores])
      | some t =>
        obtain ⟨-, -, -, hsub⟩ := strtokR_some htok
        obtain ⟨hne, -, hchars, -⟩ := strtokR_some htext
        exact ⟨hne, hrest.subset (fun c hc => hsub c (hchars c hc))⟩
  · obtain rfl := Except.ok.inj hline
    exact h

/-- **A line** adds what is in the form that is stored. -/
theorem Stored.parseLine (h : Stored config) (htext : IsText line)
    (hline : kmodConfigParseLine config line = .ok config') : Stored config' := by
  unfold kmodConfigParseLine at hline
  split at hline
  · obtain rfl := Except.ok.inj hline
    exact h
  · split at hline
    · obtain rfl := Except.ok.inj hline
      exact h
    · next cmd rest hcmd =>
      have hrest : IsText rest := htext.subset (strtokR_some hcmd).2.2.2
      have htoken : ∀ (rest' : CStr) {s : CStr} {tok : Option CStr},
          strtokR isBlank s = (tok, rest') →
          ∀ t ∈ tok, t ≠ [] ∧ (∀ c ∈ t, isBlank c = false) ∧ ∀ c ∈ t, c ∈ s := by
        intro rest' s tok htok t ht
        obtain rfl : tok = some t := ht
        obtain ⟨hne, hblank, hsub, -⟩ := strtokR_some htok
        exact ⟨hne, hblank, hsub⟩
      -- the commands, in the order of the code
      split at hline
      · obtain ⟨⟨tok, rest₁⟩, htok⟩ : ∃ p, strtokR isBlank rest = p := ⟨_, rfl⟩
        obtain ⟨⟨tok', rest₂⟩, htok'⟩ : ∃ p, strtokR isBlank rest₁ = p := ⟨_, rfl⟩
        rw [htok] at hline
        dsimp only at hline
        rw [htok'] at hline
        dsimp only at hline
        split at hline
        · next name modname hname hmodname =>
          obtain rfl := Except.ok.inj hline
          refine { h with aliases := fun a ha => ?_ }
          rcases List.mem_append.mp ha with ha | ha
          · exact h.aliases a ha
          · rw [List.mem_singleton.mp ha]
            have hsub : ∀ c ∈ rest₁, c ∈ rest := by
              cases tok with
              | none => exact absurd hname (by simp [underscores])
              | some t => exact (strtokR_some htok).2.2.2
            exact ⟨name_of_underscores hrest (htoken _ htok) hname,
              name_of_underscores (hrest.subset hsub) (htoken _ htok') hmodname⟩
        · obtain rfl := Except.ok.inj hline
          exact h
      · split at hline
        · split at hline
          · next name hname =>
            obtain rfl := Except.ok.inj hline
            refine { h with blacklists := fun n hn => ?_ }
            rcases List.mem_append.mp hn with hn | hn
            · exact h.blacklists n hn
            · rw [List.mem_singleton.mp hn]
              exact name_of_underscores hrest (htoken (strtokR isBlank rest).2 rfl) hname
          · obtain rfl := Except.ok.inj hline
            exact h
        · split at hline
          · refine h.withModname hrest (fun name text hname htext hadd => ?_) hline
            obtain rfl := Except.ok.inj hadd
            refine { h with options := fun o ho => ?_ }
            rcases List.mem_append.mp ho with ho | ho
            · exact h.options o ho
            · rw [List.mem_singleton.mp ho]
              refine ⟨hname, ⟨by simpa using htext.1, fun c hc => ?_⟩, fun htab => ?_⟩
              · obtain ⟨x, hx, rfl⟩ := List.mem_map.mp hc
                split
                · decide
                · exact htext.2 x hx
              · obtain ⟨x, _, hx⟩ := List.mem_map.mp htab
                split at hx
                · exact absurd hx (by decide)
                · next hne => exact hne hx
          · split at hline
            · refine h.withModname hrest (fun name text hname htext hadd => ?_) hline
              obtain rfl := Except.ok.inj hadd
              refine { h with install := fun c hc => ?_ }
              rcases List.mem_append.mp hc with hc | hc
              · exact h.install c hc
              · rw [List.mem_singleton.mp hc]
                exact ⟨hname, htext⟩
            · split at hline
              · refine h.withModname hrest (fun name text hname htext hadd => ?_) hline
                obtain rfl := Except.ok.inj hadd
                refine { h with remove := fun c hc => ?_ }
                rcases List.mem_append.mp hc with hc | hc
                · exact h.remove c hc
                · rw [List.mem_singleton.mp hc]
                  exact ⟨hname, htext⟩
              · split at hline
                · exact h.withModname hrest (fun name text hname htext hadd =>
                    h.addSoftdep hname htext.2 hadd) hline
                · split at hline
                  · exact h.withModname hrest (fun name text hname htext hadd =>
                      h.addWeakdep hname htext hadd) hline
                  · obtain rfl := Except.ok.inj hline
                    exact h

end Step

/-- **Whatever is parsed**, the configuration is in the form that is stored. -/
theorem stored_of_parse {lines : List CStr} (hlines : ∀ line ∈ lines, IsText line) :
    ∀ {config config' : KmodConfig}, Stored config → kmodConfigParse config lines = .ok config' →
      Stored config' := by
  induction lines with
  | nil =>
    intro config config' h hparse
    obtain rfl := Except.ok.inj hparse
    exact h
  | cons line lines ih =>
    intro config config' h hparse
    replace hparse : (kmodConfigParseLine config line >>= fun config =>
      kmodConfigParse config lines) = .ok config' := hparse
    cases hline : kmodConfigParseLine config line with
    | error fault =>
      rw [hline] at hparse
      exact absurd hparse (by simp [bind, Except.bind])
    | ok config₁ =>
      rw [hline, ok_bind] at hparse
      exact ih (fun l hl => hlines l (List.mem_cons_of_mem _ hl))
        (h.parseLine (hlines line (List.mem_cons_self ..)) hline) hparse

theorem stored_empty : Stored emptyConfig where
  aliases := fun _ h => absurd h List.not_mem_nil
  blacklists := fun _ h => absurd h List.not_mem_nil
  options := fun _ h => absurd h List.not_mem_nil
  install := fun _ h => absurd h List.not_mem_nil
  remove := fun _ h => absurd h List.not_mem_nil
  softdeps := fun _ h => absurd h List.not_mem_nil
  weakdeps := fun _ h => absurd h List.not_mem_nil

end Kmod.StoredConfig
