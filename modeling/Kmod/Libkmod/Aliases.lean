import Kmod.Index.Agree
import Kmod.Lib.Fnmatch
import Kmod.Libkmod.Config

/-!
# Aliases of the configuration and of the index

An alias can come from a configuration file or from `modules.alias.bin`. The
first kind is handed to `fnmatch` as a whole; of the second kind, the part before
the first wildcard character is compared with the query byte by byte on the way
down the tree, and only the rest is a pattern.

The two ways agree on every character but the backslash, which `fnmatch` takes as
an escape and the tree as itself (`aliases_alike_iff`).
-/

namespace Kmod

open Index Fnmatch

/-! ## The two lookups -/

/--
The loop of `alias_normalize`, outside or inside of brackets, with so much room in the buffer.
-/
def aliasNormalizeLoop : Bool → Nat → CStr → Option CStr
  | false, 0, _ => some []
  | true, 0, _ => none
  | false, _ + 1, [] => some []
  | true, _ + 1, [] => none
  | true, room + 1, c :: s => (aliasNormalizeLoop (c ≠ 93) room s).map (c :: ·)
  | false, room + 1, c :: s =>
    if c = 45 then (aliasNormalizeLoop false room s).map (95 :: ·)
    else if c = 93 then none
    else (aliasNormalizeLoop (c = 91) room s).map (c :: ·)

/-- `alias_normalize`: what is in the buffer, unless it returns an error. -/
def aliasNormalize (s : CStr) : Option CStr := aliasNormalizeLoop false (PATH_MAX - 1) s

/-- The loop of `kmod_lookup_alias_from_config`. -/
def lookupAliases (fnmatch : CStr → CStr → Bool) (name : CStr) :
    List (CStr × CStr) → List CStr → Except Int (List CStr)
  | [], list => .ok list
  | (aliasname, modname) :: aliases, list =>
    if fnmatch aliasname name then
      match kmodModuleNewFromAlias aliasname modname with
      | .error err => .error err
      | .ok mod => lookupAliases fnmatch name aliases (list ++ [mod])
    else lookupAliases fnmatch name aliases list

/--
`kmod_lookup_alias_from_config`: the names under which the context keeps the
modules that are listed, or a negative error number.
-/
def kmodLookupAliasFromConfig (fnmatch : CStr → CStr → Bool) (config : KmodConfig) (name : CStr) :
    Except Int (List CStr) :=
  lookupAliases fnmatch name config.aliases []

/-- With the one alias `a` for `m` configured, `m` is found for `n`. -/
def ConfigFinds (fnmatch : CStr → CStr → Bool) (a m n : CStr) : Prop :=
  ∃ mods, kmodLookupAliasFromConfig fnmatch (kmodConfigAddAlias emptyConfig a m) n = .ok mods ∧
    m ++ cstr "\\" ++ a ∈ mods

/-- From the index with these entries, the search for `n` returns `out`. -/
def SearchwildReturns (fnmatch : CStr → CStr → Bool) (es : List Entry) (n : CStr)
    (out : List IndexValue) : Prop :=
  ∃ root idx bound, insertEntries indexCreate es = .ok root ∧
    indexMmOpen (indexWrite root) = .ok idx ∧
    ∀ host, ∀ fuel ≥ bound, indexMmSearchwild host fnmatch fuel idx n = .ok out

/-- In the index with the one entry `a` for `m`, `m` is found for `n`. -/
def IndexFinds (fnmatch : CStr → CStr → Bool) (a m : CStr) (priority : UInt32) (n : CStr) : Prop :=
  ∃ out, SearchwildReturns fnmatch [⟨a, m, priority⟩] n out ∧ ∃ v ∈ out, v.value = m

/-- What a caller can ask for, if it asks for no wildcard: a string in normal form. -/
structure Query (n : CStr) : Prop where
  nul : 0 ∉ n
  wild : ∀ c ∈ n, isWild c = false
  normal : ∃ s, underscores (some s) = some n

/-! ## Strings in normal form -/

/-- A character that `underscores` leaves alone and that is not a wildcard. -/
def Settled (c : UInt8) : Prop := c ≠ 0 ∧ isWild c = false ∧ c ≠ 45 ∧ c ≠ 93

instance : DecidablePred Settled := fun c =>
  inferInstanceAs (Decidable (c ≠ 0 ∧ isWild c = false ∧ c ≠ 45 ∧ c ≠ 93))

theorem underscoresLoop_settled {s : CStr} (h : ∀ c ∈ s, Settled c) :
    underscoresLoop false s = some s := by
  induction s with
  | nil => rfl
  | cons c s ih =>
    obtain ⟨_, hwild, hdash, hclose⟩ := h c (List.mem_cons_self ..)
    have hopen : ¬ c = 91 := by
      rintro rfl
      exact nomatch hwild
    rw [underscoresLoop, if_neg hdash, if_neg hclose, decide_eq_false hopen,
      ih (fun c hc => h c (List.mem_cons_of_mem _ hc))]
    rfl

/-- What stands before the first bracket. -/
theorem underscoresLoop_outside {s : CStr} :
    ∀ {t : CStr}, underscoresLoop false s = some t →
      ∀ c ∈ t.takeWhile (fun c => c ≠ 91), c ≠ 45 ∧ c ≠ 93 := by
  induction s with
  | nil =>
    intro t h c hc
    rw [← Option.some.inj h] at hc
    exact absurd hc (by simp)
  | cons d s ih =>
    intro t h c hc
    unfold underscoresLoop at h
    split at h
    · obtain ⟨t', ht', rfl⟩ := Option.map_eq_some_iff.mp h
      rw [List.takeWhile_cons_of_pos (by decide)] at hc
      rcases List.mem_cons.mp hc with rfl | hc
      · decide
      · exact ih ht' c hc
    · split at h
      · exact nomatch h
      · next hdash hclose =>
        obtain ⟨t', ht', rfl⟩ := Option.map_eq_some_iff.mp h
        by_cases hopen : d = 91
        · rw [List.takeWhile_cons_of_neg (by simpa using hopen)] at hc
          exact absurd hc (by simp)
        · rw [List.takeWhile_cons_of_pos (by simpa using hopen)] at hc
          rw [decide_eq_false hopen] at ht'
          rcases List.mem_cons.mp hc with rfl | hc
          · exact ⟨hdash, hclose⟩
          · exact ih ht' c hc

theorem query_iff {n : CStr} : Query n ↔ ∀ c ∈ n, Settled c := by
  refine ⟨fun h c hc => ?_, fun h => ⟨fun h0 => (h 0 h0).1 rfl, fun c hc => (h c hc).2.1, n, ?_⟩⟩
  · obtain ⟨s, hs⟩ := h.normal
    have hall : n.takeWhile (fun c => c ≠ 91) = n := by
      refine List.takeWhile_eq_self_iff.mpr (fun c hc => ?_)
      have hwild := h.wild c hc
      simp only [ne_eq, decide_not, Bool.not_eq_eq_eq_not, Bool.not_true, decide_eq_false_iff_not]
      rintro rfl
      exact nomatch hwild
    have hout := underscoresLoop_outside hs
    rw [hall] at hout
    exact ⟨fun h0 => h.nul (h0 ▸ hc), h.wild c hc, hout c hc⟩
  · exact underscoresLoop_settled h

theorem Query.append {m n : CStr} (hm : ∀ c ∈ m, Settled c) (hn : Query n) : Query (m ++ n) := by
  rw [query_iff] at hn ⊢
  intro c hc
  rcases List.mem_append.mp hc with hc | hc
  · exact hm c hc
  · exact hn c hc

theorem Query.of_append {m n : CStr} (h : Query (m ++ n)) : Query n := by
  rw [query_iff] at h ⊢
  exact fun c hc => h c (List.mem_append_right _ hc)

/-- `alias_normalize` leaves what `underscores` leaves alone, and it fits in the buffer. -/
theorem aliasNormalizeLoop_normal (room : Nat) :
    ∀ {inside : Bool} {s t : CStr}, aliasNormalizeLoop inside room s = some t →
      underscoresLoop inside t = some t ∧ t.length ≤ room := by
  induction room with
  | zero =>
    intro inside s t h
    cases inside with
    | false =>
      rw [← Option.some.inj h]
      exact ⟨rfl, Nat.le_refl _⟩
    | true => exact nomatch h
  | succ room ih =>
    intro inside s t h
    cases s with
    | nil =>
      cases inside with
      | false =>
        rw [← Option.some.inj h]
        exact ⟨rfl, Nat.zero_le _⟩
      | true => exact nomatch h
    | cons c s =>
      cases inside with
      | true =>
        obtain ⟨t', ht', rfl⟩ := Option.map_eq_some_iff.mp h
        obtain ⟨hnormal, hlen⟩ := ih ht'
        refine ⟨?_, Nat.succ_le_succ hlen⟩
        rw [underscoresLoop, hnormal]
        rfl
      | false =>
        unfold aliasNormalizeLoop at h
        split at h
        · obtain ⟨t', ht', rfl⟩ := Option.map_eq_some_iff.mp h
          obtain ⟨hnormal, hlen⟩ := ih ht'
          refine ⟨?_, Nat.succ_le_succ hlen⟩
          rw [underscoresLoop, if_neg (by decide), if_neg (by decide),
            decide_eq_false (by decide), hnormal]
          rfl
        · split at h
          · exact nomatch h
          · next hdash hclose =>
            obtain ⟨t', ht', rfl⟩ := Option.map_eq_some_iff.mp h
            obtain ⟨hnormal, hlen⟩ := ih ht'
            refine ⟨?_, Nat.succ_le_succ hlen⟩
            rw [underscoresLoop, if_neg hdash, if_neg hclose, hnormal]
            rfl

/-- The characters of an alias stay, but for the underscore. -/
theorem mem_of_mem_aliasNormalizeLoop (room : Nat) :
    ∀ {inside : Bool} {s t : CStr}, aliasNormalizeLoop inside room s = some t →
      ∀ c ∈ t, c = 95 ∨ c ∈ s := by
  induction room with
  | zero =>
    intro inside s t h c hc
    cases inside with
    | false =>
      rw [← Option.some.inj h] at hc
      cases hc
    | true => exact nomatch h
  | succ room ih =>
    intro inside s t h c hc
    have hrest : ∀ {d e : UInt8} {inside : Bool} {s : CStr},
        (aliasNormalizeLoop inside room s).map (d :: ·) = some t → d = 95 ∨ d = e →
        c = 95 ∨ c ∈ e :: s := by
      intro d e inside s hmap hd
      obtain ⟨t', ht', rfl⟩ := Option.map_eq_some_iff.mp hmap
      rcases List.mem_cons.mp hc with rfl | hc
      · refine hd.imp_right (fun he => ?_)
        rw [he]
        exact List.mem_cons_self ..
      · exact (ih ht' c hc).imp_right (List.mem_cons_of_mem e)
    cases s with
    | nil =>
      cases inside with
      | false =>
        rw [← Option.some.inj h] at hc
        cases hc
      | true => exact nomatch h
    | cons e s =>
      cases inside with
      | true => exact hrest h (.inr rfl)
      | false =>
        unfold aliasNormalizeLoop at h
        split at h
        · exact hrest h (.inl rfl)
        · split at h
          · exact nomatch h
          · exact hrest h (.inr rfl)

/-! ## The parts of an alias -/

section Alias

variable {s a : CStr} (hnorm : aliasNormalize s = some a)
include hnorm

theorem length_aliasNormalize : a.length < PATH_MAX := by
  have hlen := (aliasNormalizeLoop_normal _ hnorm).2
  unfold PATH_MAX at hlen ⊢
  omega

/-- The literal part of an alias can be asked for. -/
theorem literalPart_settled (ha : Index.Clean a) : ∀ c ∈ literalPart a, Settled c := by
  intro c hc
  have hwild : isWild c = false := by simpa using List.mem_takeWhile_imp hc
  have hmem : c ∈ a := List.takeWhile_subset _ hc
  refine ⟨(ha c hmem).1, hwild, ?_⟩
  refine underscoresLoop_outside (aliasNormalizeLoop_normal _ hnorm).1 c ?_
  -- the first bracket is a wildcard, so the literal part ends before it
  have hsub : literalPart a = literalPart (a.takeWhile (fun c => c ≠ 91)) := by
    unfold literalPart
    rw [List.takeWhile_takeWhile]
    refine congrArg (fun p => List.takeWhile p a) (funext (fun c => ?_))
    by_cases hc : c = 91
    · simp [hc, isWild]
    · simp [hc]
  rw [hsub] at hc
  exact List.takeWhile_subset _ hc

end Alias

/-! ## What is found -/

theorem configFinds_iff (fnmatch : CStr → CStr → Bool) (a m n : CStr) :
    ConfigFinds fnmatch a m n ↔ fnmatch a n = true ∧ m.length + a.length + 2 ≤ PATH_MAX := by
  have hrun : kmodLookupAliasFromConfig fnmatch (kmodConfigAddAlias emptyConfig a m) n
      = if fnmatch a n then
          if m.length + a.length + 2 > PATH_MAX then .error (-ENAMETOOLONG)
          else .ok [m ++ cstr "\\" ++ a]
        else .ok [] := by
    show lookupAliases fnmatch n [(a, m)] [] = _
    unfold lookupAliases
    split
    · unfold kmodModuleNewFromAlias
      by_cases hlen : m.length + a.length + 2 > PATH_MAX
      · rw [if_pos hlen, if_pos hlen]
      · rw [if_neg hlen, if_neg hlen]
        rfl
    · rfl
  unfold ConfigFinds
  rw [hrun]
  by_cases hmatch : fnmatch a n = true
  · by_cases hlen : m.length + a.length + 2 > PATH_MAX
    · simp only [hmatch, if_true, if_pos hlen]
      exact ⟨fun ⟨_, h, _⟩ => (nomatch h), fun ⟨_, h⟩ => absurd h (by omega)⟩
    · simp only [hmatch, if_true, if_neg hlen]
      exact ⟨fun _ => ⟨trivial, by omega⟩, fun _ => ⟨_, rfl, List.mem_singleton_self _⟩⟩
  · simp only [hmatch]
    refine ⟨fun ⟨mods, h, hmem⟩ => ?_, fun h => absurd h.1 (by simp)⟩
    rw [← Except.ok.inj h] at hmem
    exact absurd hmem (by simp)

/-- The model is a function, so two searches return the same. -/
theorem SearchwildReturns.unique {fnmatch : CStr → CStr → Bool} {es : List Entry} {n : CStr}
    {out out' : List IndexValue} (h : SearchwildReturns fnmatch es n out)
    (h' : SearchwildReturns fnmatch es n out') : out = out' := by
  obtain ⟨root, idx, bound, hrun, hopen, hout⟩ := h
  obtain ⟨root', idx', bound', hrun', hopen', hout'⟩ := h'
  obtain rfl : root' = root := Except.ok.inj (hrun'.symm.trans hrun)
  obtain rfl : idx' = idx := Except.ok.inj (hopen'.symm.trans hopen)
  have hfuel := hout' littleHost (max bound bound') (Nat.le_max_right ..)
  rw [hout littleHost _ (Nat.le_max_left ..)] at hfuel
  exact Except.ok.inj hfuel

/-! ## Trees with one branch -/

/-- A node with one child. -/
def onlyChild (pfx : CStr) (values : List IndexValue) (c : UInt8) (child : IndexNode) : IndexNode :=
  .node ⟨pfx, values, c, c, 0, 0⟩ (Function.update noChildren c child)

/-- A node with one value and no child. -/
def leafNode (pfx value : CStr) (priority : UInt32) : IndexNode :=
  .node ⟨pfx, [⟨priority, value⟩], INDEX_CHILDMAX, 0, 0, 0⟩ noChildren

section Trees

variable {c : UInt8} {pfx value rest : CStr} {values : List IndexValue} {child : IndexNode}

theorem byteLen_onlyChild (hc : c < INDEX_CHILDMAX) :
    byteLen (onlyChild pfx values c child)
      = bodyLen ⟨pfx, values, c, c, 0, 0⟩ + byteLen child := by
  have hchars : charsOf ⟨pfx, values, c, c, 0, 0⟩ = [c] := by
    simp [charsOf, indexHaschildren, hc, charsBetween]
  show bodyLen ⟨pfx, values, c, c, 0, 0⟩ + ((charsOf ⟨pfx, values, c, c, 0, 0⟩).map
    (fun x => byteLen (Function.update noChildren c child x))).sum = _
  rw [hchars]
  simp

theorem byteLen_leafNode_le (pfx value : CStr) (priority : UInt32) :
    byteLen (leafNode pfx value priority) ≤ pfx.length + value.length + 10 := by
  show (0 + (if pfx ≠ [] then pfx.length + 1 else 0) + (4 + ((4 + (value.length + 1)) + 0))) + 0 ≤ _
  split <;> omega

/-- A first child. -/
theorem addChild_first (hkey : Index.Clean (c :: rest)) (pfx : CStr) (values : List IndexValue)
    (priority : UInt32) :
    addChild ⟨pfx, values, INDEX_CHILDMAX, 0, 0, 0⟩ noChildren c rest value priority
      = onlyChild pfx values c (leafNode rest value priority) := by
  obtain ⟨hc0, hc⟩ := hkey c (List.mem_cons_self ..)
  have hpos : 0 < c := UInt8.pos_iff_ne_zero.mpr hc0
  unfold addChild
  simp only [if_pos hc, if_pos hpos]
  rfl

/-- The first insertion, unless its key is empty. -/
theorem indexInsert_first (hkey : Index.Clean (c :: rest)) (hvalue : Index.Clean value)
    (priority : UInt32) :
    indexInsert indexCreate (c :: rest) value priority
      = .ok (onlyChild [] [] c (leafNode rest value priority), 0) := by
  unfold indexInsert
  rw [checkstring_of_clean hkey, checkstring_of_clean hvalue]
  exact congrArg (fun t => Except.ok (t, 0)) (addChild_first hkey [] [] priority)

theorem insertEntries_single (hkey : Index.Clean (c :: rest)) (hvalue : Index.Clean value)
    (priority : UInt32) :
    insertEntries indexCreate [⟨c :: rest, value, priority⟩]
      = .ok (onlyChild [] [] c (leafNode rest value priority)) := by
  rw [insertEntries, indexInsert_first hkey hvalue]
  rfl

end Trees

theorem single_clean {a m : CStr} (ha : Index.Clean a) (hm : Index.Clean m) (priority : UInt32) :
    ∀ e ∈ [(⟨a, m, priority⟩ : Entry)], e.Clean := by
  intro e he
  rw [List.mem_singleton.mp he]
  exact ⟨ha, hm⟩

/-- The file with one entry is small. -/
theorem length_indexWrite_single {a m : CStr} {priority : UInt32} {root : IndexNode}
    (ha : Index.Clean a) (hm : Index.Clean m)
    (hroot : insertEntries indexCreate [⟨a, m, priority⟩] = .ok root) :
    (indexWrite root).length ≤ a.length + m.length + 28 := by
  obtain ⟨root', hrun, hcont⟩ := insertEntries_contains (single_clean ha hm priority)
  obtain rfl : root' = root := Except.ok.inj (hrun.symm.trans hroot)
  cases a with
  | nil =>
    simp only [insertEntries, indexInsert, checkstring_of_clean ha, checkstring_of_clean hm,
      Bool.and_self, if_true, ok_bind] at hroot
    have hnode : root' = leafNode [] m priority := (Except.ok.inj hroot).symm
    have hleaf := byteLen_leafNode_le [] m priority
    subst hnode
    unfold leafNode at hcont hleaf ⊢
    rw [length_indexWrite hcont.ok]
    rw [List.length_nil] at hleaf ⊢
    omega
  | cons c rest =>
    have hnode : root' = onlyChild [] [] c (leafNode rest m priority) :=
      Except.ok.inj (hroot.symm.trans (insertEntries_single ha hm priority))
    have hbytes : byteLen (onlyChild [] [] c (leafNode rest m priority)) = _ :=
      byteLen_onlyChild (ha c (List.mem_cons_self ..)).2
    have hbody : bodyLen ⟨[], [], c, c, 0, 0⟩ = 6 := by
      simp [bodyLen, indexHaschildren, (ha c (List.mem_cons_self ..)).2]
    have hleaf := byteLen_leafNode_le rest m priority
    subst hnode
    unfold onlyChild at hcont hbytes ⊢
    rw [length_indexWrite hcont.ok, hbytes, hbody, List.length_cons]
    omega

/-- A key matches what begins with its literal part and goes on as its pattern says. -/
theorem keyMatches_iff {fnmatch : CStr → CStr → Bool} (hf : Literals fnmatch) (a n : CStr) :
    keyMatches fnmatch a n = true ↔
      ∃ n', n = literalPart a ++ n' ∧ fnmatch (patternPart a) n' = true := by
  show (if patternPart a = [] then decide (literalPart a = n)
    else (literalPart a).isPrefixOf n && fnmatch (patternPart a) (n.drop (literalPart a).length))
      = true ↔ _
  split
  · next hnil =>
    rw [hnil, decide_eq_true_iff]
    refine ⟨fun h => ⟨[], ?_, (hf.nil []).mpr rfl⟩, fun ⟨n', hn, hmatch⟩ => ?_⟩
    · rw [List.append_nil, h]
    · rw [hn, (hf.nil n').mp hmatch, List.append_nil]
  · rw [Bool.and_eq_true, List.isPrefixOf_iff_prefix]
    refine ⟨fun ⟨⟨n', hn⟩, hmatch⟩ => ⟨n', hn.symm, ?_⟩,
      fun ⟨n', hn, hmatch⟩ => ⟨⟨n', hn.symm⟩, ?_⟩⟩
    · rw [← hn, List.drop_left] at hmatch
      exact hmatch
    · rw [hn, List.drop_left]
      exact hmatch

theorem indexFinds_iff {fnmatch : CStr → CStr → Bool} {a m n : CStr} (ha : Index.Clean a)
    (hm : Index.Clean m) (hsize : a.length + m.length + 28 < 2 ^ 28) (priority : UInt32)
    (hn : ∀ c ∈ n, isWild c = false) :
    IndexFinds fnmatch a m priority n ↔ keyMatches fnmatch a n = true := by
  obtain ⟨root, hrun, hread⟩ := indexMmSearchwild_written (single_clean ha hm priority) fnmatch
  obtain ⟨idx, bound, hopen, hsearch⟩ :=
    hread (Nat.lt_of_le_of_lt (length_indexWrite_single ha hm hrun) hsize)
  obtain ⟨out, hout, hperm, _⟩ := hsearch n hn
  have hfound : (∃ v ∈ out, v.value = m) ↔ keyMatches fnmatch a n = true := by
    refine ⟨fun ⟨v, hv, _⟩ => ?_, fun hmatch => ⟨⟨priority, m⟩, ?_, rfl⟩⟩
    · obtain ⟨e, he, _⟩ := List.mem_map.mp (hperm.mem_iff.mp hv)
      obtain ⟨he, hmatch⟩ := List.mem_filter.mp he
      rw [List.mem_singleton.mp he] at hmatch
      exact hmatch
    · refine hperm.mem_iff.mpr (List.mem_map.mpr ⟨⟨a, m, priority⟩, ?_, rfl⟩)
      exact List.mem_filter.mpr ⟨List.mem_singleton_self _, hmatch⟩
  rw [← hfound]
  have hreturns : SearchwildReturns fnmatch [⟨a, m, priority⟩] n out :=
    ⟨root, idx, bound, hrun, hopen, hout⟩
  refine ⟨fun ⟨out', hout', hmem⟩ => ?_, fun hmem => ⟨out, hreturns, hmem⟩⟩
  rw [hreturns.unique hout']
  exact hmem

/-! ## Where they agree -/

theorem plain_of_not_wild {c : UInt8} (h : isWild c = false) : Plain c := by
  simpa [isWild, Plain, and_assoc] using h

theorem literalPart_plain (a : CStr) : ∀ c ∈ literalPart a, Plain c := by
  intro c hc
  exact plain_of_not_wild (by simpa using List.mem_takeWhile_imp hc)

/-- The pattern of a key begins with a wildcard. -/
theorem patternPart_head {a : CStr} {c : UInt8} (h : (patternPart a).head? = some c) :
    isWild c = true := by
  unfold patternPart at h
  have hne : a.dropWhile (fun c => !isWild c) ≠ [] := fun hnil => by rw [hnil] at h; exact nomatch h
  have hnot := List.head_dropWhile_not (fun c => !isWild c) (l := a) hne
  rw [List.head?_eq_some_head hne] at h
  rw [Option.some.inj h] at hnot
  simpa using hnot

section Alike

variable {fnmatch : CStr → CStr → Bool} (hf : Literals fnmatch)
include hf

/-- What `fnmatch` makes of an alias whose literal part stands for `u`. -/
theorem fnmatch_alias {a u : CStr} (hu : unescape (literalPart a) = some u) (n : CStr) :
    fnmatch a n = true ↔ ∃ n', n = u ++ n' ∧ fnmatch (patternPart a) n' = true := by
  have h := hf.match_iff (literalPart_plain a) (patternPart a) hu n
  rw [literalPart_append] at h
  exact h

/-- A literal part that ends in a backslash: the wildcard after it stands for itself. -/
theorem fnmatch_alias_dangling {a n : CStr} (hu : unescape (literalPart a) = none) (hn : Query n) :
    fnmatch a n = false := by
  by_contra hmatch
  rw [Bool.not_eq_false, ← literalPart_append a] at hmatch
  obtain ⟨c, hc, hhead⟩ := hf.mem_of_match (literalPart_plain a) (patternPart a) hu hmatch
  exact nomatch (patternPart_head hhead).symm.trans (hn.wild c hc)

/-- Without a backslash in the literal part, the two ways to match are the same. -/
theorem keyMatches_eq_fnmatch {a : CStr} (hback : 92 ∉ literalPart a) (n : CStr) :
    fnmatch a n = true ↔ keyMatches fnmatch a n = true := by
  rw [keyMatches_iff hf, fnmatch_alias hf (unescape_eq hback)]

/-- Nothing is found if the pattern matches nothing. -/
theorem fnmatch_alias_of_none {a n : CStr} (hn : Query n)
    (hnone : ∀ n, Query n → fnmatch (patternPart a) n = false) : fnmatch a n = false := by
  cases hu : unescape (literalPart a) with
  | none => exact fnmatch_alias_dangling hf hu hn
  | some u =>
    by_contra hmatch
    rw [Bool.not_eq_false] at hmatch
    obtain ⟨n', rfl, hmatch'⟩ := (fnmatch_alias hf hu n).mp hmatch
    rw [hnone n' hn.of_append] at hmatch'
    exact nomatch hmatch'

/-- A backslash in the literal part makes a difference, if the pattern matches something: the
shortest query that `fnmatch` finds is too short for the tree. -/
theorem exists_different {a : CStr} (hlit : ∀ c ∈ literalPart a, Settled c)
    (hback : 92 ∈ literalPart a) {n₀ : CStr} (hn₀ : Query n₀)
    (hmatch : fnmatch (patternPart a) n₀ = true) :
    ∃ n, Query n ∧ ¬ (fnmatch a n = true ↔ keyMatches fnmatch a n = true) := by
  cases hu : unescape (literalPart a) with
  | none =>
    refine ⟨literalPart a ++ n₀, hn₀.append hlit, fun hiff => ?_⟩
    have hkey := (keyMatches_iff hf a _).mpr ⟨n₀, rfl, hmatch⟩
    have hno := fnmatch_alias_dangling hf hu (hn₀.append hlit)
    rw [hiff.mpr hkey] at hno
    exact nomatch hno
  | some u =>
    have hex : ∃ k n, Query n ∧ n.length = k ∧ fnmatch (patternPart a) n = true :=
      ⟨n₀.length, n₀, hn₀, rfl, hmatch⟩
    classical
    obtain ⟨n, hn, hlen, hn'⟩ := Nat.find_spec hex
    have hq : Query (u ++ n) := hn.append (fun c hc => hlit c (mem_of_mem_unescape hu c hc))
    refine ⟨u ++ n, hq, fun hiff => ?_⟩
    obtain ⟨n', heq, hmatch'⟩ := (keyMatches_iff hf a _).mp
      (hiff.mp ((fnmatch_alias hf hu _).mpr ⟨n, rfl, hn'⟩))
    -- what the tree leaves for the pattern is shorter still
    have hshort : n'.length < n.length := by
      have hlt := length_unescape_lt hback hu
      have hlens := congrArg List.length heq
      rw [List.length_append, List.length_append] at hlens
      omega
    refine Nat.find_min hex (m := n'.length) (by omega) ⟨n', ?_, rfl, hmatch'⟩
    rw [heq] at hq
    exact hq.of_append

/--
**Aliases of the configuration and of the index.** For every alias in normal form, made
of characters an index can hold, and every module name: the two lookups find the
module for the same queries, if and only if the alias has no backslash before its
first wildcard and is, with the module name, not too long for a module of the
context; or if its pattern matches no query at all.
-/
theorem aliases_alike_iff {s a m : CStr} (hnorm : aliasNormalize s = some a) (ha : Index.Clean a)
    (hm : Index.Clean m) (hlen : m.length < PATH_MAX) (priority : UInt32) :
    (∀ n, Query n → (ConfigFinds fnmatch a m n ↔ IndexFinds fnmatch a m priority n)) ↔
      (92 ∉ literalPart a ∧ m.length + a.length + 2 ≤ PATH_MAX) ∨
        ∀ n, Query n → fnmatch (patternPart a) n = false := by
  have hlit := literalPart_settled hnorm ha
  have hsize : a.length + m.length + 28 < 2 ^ 28 := by
    have hlen' := length_aliasNormalize hnorm
    unfold PATH_MAX at hlen hlen'
    omega
  have hfinds : ∀ n, Query n → ((ConfigFinds fnmatch a m n ↔ IndexFinds fnmatch a m priority n) ↔
      (fnmatch a n = true ∧ m.length + a.length + 2 ≤ PATH_MAX ↔
      keyMatches fnmatch a n = true)) := by
    intro n hn
    rw [configFinds_iff, indexFinds_iff ha hm hsize priority hn.wild]
  refine ⟨fun h => ?_, fun h n hn => (hfinds n hn).mpr ?_⟩
  · by_contra hno
    rw [not_or] at hno
    obtain ⟨hfirst, hsecond⟩ := hno
    push Not at hsecond
    obtain ⟨n₀, hn₀, hmatch⟩ := hsecond
    rw [ne_eq, Bool.not_eq_false] at hmatch
    by_cases hfits : m.length + a.length + 2 ≤ PATH_MAX
    · have hback : 92 ∈ literalPart a := by
        by_contra hback
        exact hfirst ⟨hback, hfits⟩
      obtain ⟨n, hn, hdiff⟩ := exists_different hf hlit hback hn₀ hmatch
      refine hdiff (Iff.trans ?_ ((hfinds n hn).mp (h n hn)))
      exact ⟨fun hm => ⟨hm, hfits⟩, And.left⟩
    · -- the index finds the module, the configuration never does
      have hq : Query (literalPart a ++ n₀) := hn₀.append hlit
      have hkey := (keyMatches_iff hf a _).mpr ⟨n₀, rfl, hmatch⟩
      exact hfits (((hfinds _ hq).mp (h _ hq)).mpr hkey).2
  · rcases h with ⟨hback, hfits⟩ | hnone
    · rw [keyMatches_eq_fnmatch hf hback n]
      exact ⟨And.left, fun hm => ⟨hm, hfits⟩⟩
    · refine ⟨fun ⟨hmatch, _⟩ => ?_, fun hkey => ?_⟩
      · rw [fnmatch_alias_of_none hf hn hnone] at hmatch
        exact nomatch hmatch
      · obtain ⟨n', rfl, hmatch⟩ := (keyMatches_iff hf a n).mp hkey
        rw [hnone n' hn.of_append] at hmatch
        exact nomatch hmatch

end Alike

/-- An alias with a wildcard. -/
theorem aliases_alike_iff_wildcard :
    aliasNormalize (cstr "pci:v*-d?") = some (cstr "pci:v*_d?") ∧
      ((∀ n, Query n → (ConfigFinds simpleMatch (cstr "pci:v*_d?") (cstr "m") n ↔
        IndexFinds simpleMatch (cstr "pci:v*_d?") (cstr "m") 0 n)) ↔
      (92 ∉ literalPart (cstr "pci:v*_d?") ∧
          (cstr "m").length + (cstr "pci:v*_d?").length + 2 ≤ PATH_MAX) ∨
        ∀ n, Query n → simpleMatch (patternPart (cstr "pci:v*_d?")) n = false) :=
  ⟨by decide, aliases_alike_iff simpleMatch_posix.toLiterals (s := cstr "pci:v*-d?") (by decide)
    (by decide) (by decide) (by decide) 0⟩

/-- With the alias `a\b`, the configuration finds the module for `ab` and the index does not. -/
theorem backslash_not_alike :
    aliasNormalize (cstr "a\\b") = some (cstr "a\\b") ∧ Query (cstr "ab") ∧
      ConfigFinds simpleMatch (cstr "a\\b") (cstr "m") (cstr "ab") ∧
      ¬ IndexFinds simpleMatch (cstr "a\\b") (cstr "m") 0 (cstr "ab") := by
  have hq : Query (cstr "ab") := query_iff.mpr (by decide)
  refine ⟨by decide, hq, (configFinds_iff ..).mpr (by decide), ?_⟩
  rw [indexFinds_iff (by decide) (by decide) (by decide) 0 hq.wild]
  decide

end Kmod
