import Kmod.Libkmod.ConfigWords
import Kmod.Libkmod.Depline
import Kmod.Libkmod.KcmdlineTokens

/-!
# Blacklists

A module is blacklisted if its name, which is always normalised, is on the list of
the configuration. The names of `blacklist` lines are put on the list with
underscores, those of `modprobe.blacklist=` as they are, and only as far as the command
line fits into the buffer. So a name with a dash has no effect on the kernel command
line, nor has one that stands too far back, and the two ways agree exactly if every such
name is also read in the spelling of a module's name (`blacklists_agree_iff`).
-/

namespace Kmod

/-- `module_is_blacklisted`, for a module with this name. -/
def nameIsBlacklisted (config : KmodConfig) (name : CStr) : Bool :=
  config.blacklists.any (fun modname => modname = name)

/-- The token `modprobe.blacklist=` with a list of names. -/
def blacklistToken (names : List CStr) : CStr :=
  cstr "modprobe.blacklist=" ++ [44].intercalate names

/-- The names in that part of the token that fits into the buffer; the last one may be cut. -/
def namesRead (names : List CStr) : List CStr :=
  (([44].intercalate names).take
    (KCMD_LINE_SIZE - 1 - (cstr "modprobe.blacklist=").length)).splitOn 44

/-- The lines of a configuration file with one name each. -/
def blacklistLines (names : List CStr) : List CStr := names.map (fun n => cstr "blacklist " ++ n)

/-- With underscores for dashes. -/
def dashless (n : CStr) : CStr := n.map (fun c => if c = 45 then 95 else c)

/-- A name without commas, brackets, quotes and blanks. -/
def PlainName (n : CStr) : Prop :=
  n ≠ [] ∧ ∀ c ∈ n, c ≠ 0 ∧ c ≠ 44 ∧ c ≠ 91 ∧ c ≠ 93 ∧ c ≠ 34 ∧ isspace c = false

instance (n : CStr) : Decidable (PlainName n) :=
  inferInstanceAs (Decidable (n ≠ [] ∧ ∀ c ∈ n, _))

/-! ## Names -/

theorem underscores_plain {n : CStr} (hn : PlainName n) :
    underscores (some n) = some (dashless n) := by
  obtain ⟨-, hn⟩ := hn
  show underscoresLoop false n = some (dashless n)
  induction n with
  | nil => rfl
  | cons c n ih =>
    obtain ⟨-, -, hopen, hclose, -, -⟩ := hn c (List.mem_cons_self ..)
    have hrest := ih (fun d hd => hn d (List.mem_cons_of_mem _ hd))
    unfold underscoresLoop dashless
    rw [List.map_cons]
    by_cases hc : c = 45
    · rw [if_pos hc, if_pos hc, hrest]
      rfl
    · rw [if_neg hc, if_neg hclose, if_neg hc]
      simp only [hopen, decide_false, hrest]
      rfl

theorem dashless_eq_self {n : CStr} (hn : 45 ∉ n) : dashless n = n := by
  refine (List.map_congr_left (g := id) (fun c hc => ?_)).trans (List.map_id n)
  have hne : c ≠ 45 := fun h => hn (h ▸ hc)
  exact if_neg hne

/-- Neither dashes nor dots are left in a normalised name. -/
theorem modnameNormalize_chars (name : CStr) :
    45 ∉ modnameNormalize name ∧ 46 ∉ modnameNormalize name := by
  refine ⟨fun h => ?_, fun h => ?_⟩
  · obtain ⟨c, _, hc⟩ := List.mem_map.mp h
    split at hc
    · exact absurd hc (by decide)
    · next hne => exact hne hc
  · obtain ⟨c, hmem, hc⟩ := List.mem_map.mp h
    have hdot : c ≠ 46 := by simpa using List.mem_takeWhile_imp hmem
    split at hc
    · exact absurd hc (by decide)
    · exact hdot hc

theorem length_modnameNormalize (name : CStr) : (modnameNormalize name).length < PATH_MAX := by
  unfold modnameNormalize
  rw [List.length_map]
  have h1 := (List.takeWhile_prefix (l := name.take (PATH_MAX - 1))
    (fun c => decide (c ≠ 46))).length_le
  have h2 := List.length_take_le (PATH_MAX - 1) name
  have h3 : PATH_MAX - 1 < PATH_MAX := by decide
  omega

/-- Normalising a short name without dots. -/
theorem modnameNormalize_plain {n : CStr} (hdot : 46 ∉ n) (hlen : n.length < PATH_MAX) :
    modnameNormalize n = dashless n := by
  have htake : n.take (PATH_MAX - 1) = n := List.take_of_length_le (by omega)
  have hwhile : n.takeWhile (fun c => decide (c ≠ 46)) = n := by
    refine List.takeWhile_eq_self_iff.mpr (fun c hc => ?_)
    have hne : c ≠ 46 := fun h => hdot (h ▸ hc)
    simpa using hne
  unfold modnameNormalize
  rw [htake, hwhile]
  rfl

/-! ## The two lists -/

/-- The list after the lines of a configuration file. -/
theorem kmodConfigParse_blacklists {names : List CStr} (hnames : ∀ n ∈ names, PlainName n) :
    ∀ config : KmodConfig, kmodConfigParse config (blacklistLines names)
      = .ok { config with blacklists := config.blacklists ++ names.map dashless } := by
  induction names with
  | nil =>
    intro config
    show Except.ok config = _
    simp
  | cons n names ih =>
    intro config
    have hn := hnames n (List.mem_cons_self ..)
    have hblank : ∀ c ∈ n, isBlank c = false := by
      intro c hc
      by_contra hne
      have := isspace_of_isBlank (Bool.eq_true_of_not_eq_false hne)
      rw [(hn.2 c hc).2.2.2.2.2] at this
      exact absurd this (by decide)
    have hcmd : strtokR isBlank ([] ++ (cstr "blacklist" ++ 32 :: n)) =
        (some (cstr "blacklist"), n) :=
      strtokR_word [] n (by simp) (by decide) (by decide) (by decide)
    rw [List.nil_append, show cstr "blacklist" ++ 32 :: n = cstr "blacklist " ++ n by simp [cstr]] at hcmd
    have hname : (strtokR isBlank n).1 = some n := by rw [strtokR_whole hn.1 hblank]
    have hline : kmodConfigParseLine config (cstr "blacklist " ++ n)
        = .ok (kmodConfigAddBlacklist config (dashless n)) := by
      unfold kmodConfigParseLine
      rw [if_neg (by simp [cstr]), hcmd]
      simp only [hname, underscores_plain hn]
      rfl
    show (kmodConfigParseLine config (cstr "blacklist " ++ n) >>= fun config =>
      kmodConfigParse config (blacklistLines names)) = _
    rw [hline, ok_bind, ih (fun n hn => hnames n (List.mem_cons_of_mem _ hn))]
    simp [kmodConfigAddBlacklist]

theorem foldl_addBlacklist (names : List CStr) :
    ∀ config : KmodConfig, names.foldl kmodConfigAddBlacklist config
      = { config with blacklists := config.blacklists ++ names } := by
  induction names with
  | nil => intro config; simp
  | cons n names ih =>
    intro config
    rw [List.foldl_cons, ih]
    simp [kmodConfigAddBlacklist]

theorem mem_intercalate {sep c : UInt8} {names : List CStr} (h : c ∈ [sep].intercalate names) :
    c = sep ∨ ∃ n ∈ names, c ∈ n := by
  induction names with
  | nil => exact absurd h (by simp)
  | cons n names ih =>
    cases names with
    | nil =>
      rw [List.intercalate_singleton] at h
      exact .inr ⟨n, List.mem_cons_self .., h⟩
    | cons m names =>
      rw [List.intercalate_cons_cons, List.mem_append, List.mem_append, List.mem_singleton] at h
      rcases h with (h | h) | h
      · exact .inr ⟨n, List.mem_cons_self .., h⟩
      · exact .inl h
      · rcases ih h with h | ⟨k, hk, h⟩
        · exact .inl h
        · exact .inr ⟨k, List.mem_cons_of_mem _ hk, h⟩

theorem intercalate_plain {names : List CStr} (hnames : ∀ n ∈ names, PlainName n) :
    ∀ c ∈ [44].intercalate names, c ≠ 0 ∧ c ≠ 34 ∧ isspace c = false := by
  intro c hc
  rcases mem_intercalate hc with rfl | ⟨n, hn, hc⟩
  · decide
  · obtain ⟨h0, -, -, -, hquote, hspace⟩ := (hnames n hn).2 c hc
    exact ⟨h0, hquote, hspace⟩

/-- The list after a token `modprobe.blacklist=` with any text. -/
theorem parseKcmdline_blacklists {text : CStr}
    (htext : ∀ c ∈ text, c ≠ 0 ∧ c ≠ 34 ∧ isspace c = false) (config : KmodConfig)
    (junk : List UInt8) :
    parseKcmdline config (cstr "modprobe.blacklist=" ++ text ++ 0 :: junk)
      = .ok { config with blacklists := config.blacklists ++ text.splitOn 44 } := by
  have htoken : cstr "modprobe.blacklist=" ++ text
      = cstr "modprobe" ++ 46 :: (cstr "blacklist" ++ 61 :: text) := by
    simp [cstr]
  have hzero : 0 ∉ cstr "modprobe.blacklist=" ++ text := by
    intro h
    rcases List.mem_append.mp h with h | h
    · exact absurd h (by decide)
    · exact (htext 0 h).1 rfl
  have hpieces : kcmdlineTokens (cstr "modprobe.blacklist=" ++ text)
      = [cstr "modprobe.blacklist=" ++ text] := by
    have hkey : ∀ c ∈ cstr "modprobe.blacklist=", isspace c = false ∧ c ≠ 34 := by decide
    have hplain : ∀ c ∈ cstr "modprobe.blacklist=" ++ text, isspace c = false ∧ c ≠ 34 := by
      intro c hc
      rcases List.mem_append.mp hc with hc | hc
      · exact hkey c hc
      · exact ⟨(htext c hc).2.2, (htext c hc).2.1⟩
    have := pieces_plain hplain false [] []
    rw [List.append_nil, List.nil_append] at this
    unfold kcmdlineTokens
    rw [this]
    simp [pieces, htoken]
  have hresult : tokenResult (cstr "modprobe.blacklist=" ++ text)
      = some (cstr "modprobe", cstr "blacklist=" ++ text) := by
    have hgives := GivesResult.value text
      (show IsName (cstr "modprobe") by unfold IsName; decide)
      (show IsName (cstr "blacklist") by unfold IsName; decide)
    rw [htoken, (tokenResult_iff _ _).mpr hgives]
    simp [cstr]
  rw [parseKcmdline_tokens config hzero, hpieces]
  show Except.ok (kcmdlineToken config (cstr "modprobe.blacklist=" ++ text)) = _
  unfold kcmdlineToken kcmdlineAdd
  rw [hresult, Option.elim_some, if_pos ⟨rfl, text, rfl⟩, foldl_addBlacklist, List.drop_left]

/-- The list after the kernel command line. -/
theorem kmodConfigParseKcmdline_blacklists {names : List CStr}
    (hnames : ∀ n ∈ names, PlainName n) (junk : Nat → UInt8) (config : KmodConfig) :
    kmodConfigParseKcmdline junk config (.ok (blacklistToken names))
      = .ok (0, { config with blacklists := config.blacklists ++ namesRead names }) := by
  have hkey : (cstr "modprobe.blacklist=").length ≤ KCMD_LINE_SIZE - 1 := by decide
  have hread : (blacklistToken names).take (KCMD_LINE_SIZE - 1)
      = cstr "modprobe.blacklist=" ++ ([44].intercalate names).take
        (KCMD_LINE_SIZE - 1 - (cstr "modprobe.blacklist=").length) := by
    unfold blacklistToken
    rw [List.take_append, List.take_of_length_le hkey]
  have htext : ∀ c ∈ ([44].intercalate names).take
      (KCMD_LINE_SIZE - 1 - (cstr "modprobe.blacklist=").length),
      c ≠ 0 ∧ c ≠ 34 ∧ isspace c = false :=
    fun c hc => intercalate_plain hnames c (List.mem_of_mem_take hc)
  unfold kmodConfigParseKcmdline
  simp only [hread]
  rw [List.append_assoc (cstr "modprobe.blacklist=" ++ _), List.singleton_append,
    parseKcmdline_blacklists htext, ok_bind]
  rfl

/-- A token that fits into the buffer is read whole. -/
theorem namesRead_short {names : List CStr} (hnames : ∀ n ∈ names, PlainName n)
    (hne : names ≠ []) (hlen : (blacklistToken names).length < KCMD_LINE_SIZE) :
    namesRead names = names := by
  have hfits : ([44].intercalate names).length
      ≤ KCMD_LINE_SIZE - 1 - (cstr "modprobe.blacklist=").length := by
    unfold blacklistToken at hlen
    rw [List.length_append] at hlen
    omega
  have hcomma : ∀ n ∈ names, (44 : UInt8) ∉ n := fun n hn h => ((hnames n hn).2 44 h).2.1 rfl
  unfold namesRead
  rw [List.take_of_length_le hfits, List.splitOn_intercalate 44 hcomma hne]

theorem length_le_intercalate (sep : UInt8) {ws : List CStr} {w : CStr} (hw : w ∈ ws) :
    w.length ≤ ([sep].intercalate ws).length := by
  induction ws with
  | nil => exact absurd hw (by simp)
  | cons v ws ih =>
    cases ws with
    | nil =>
      rw [List.mem_singleton.mp hw, List.intercalate_singleton]
    | cons u ws =>
      rw [List.intercalate_cons_cons, List.length_append, List.length_append]
      rcases List.mem_cons.mp hw with rfl | hw
      · omega
      · have := ih hw
        omega

/-- The buffer is no longer than a path, so neither is a name read from it. -/
theorem length_of_mem_namesRead {names : List CStr} {m : CStr} (hm : m ∈ namesRead names) :
    m.length < PATH_MAX := by
  have hle := length_le_intercalate 44 hm
  unfold namesRead at hle
  rw [List.intercalate_splitOn, List.length_take] at hle
  have hsize : KCMD_LINE_SIZE - 1 - (cstr "modprobe.blacklist=").length < PATH_MAX := by decide
  omega

/-- A text is a module's name if it is short and has neither dots nor dashes. -/
theorem modnameNormalize_self {m : CStr} (hdash : 45 ∉ m) (hdot : 46 ∉ m)
    (hlen : m.length < PATH_MAX) : modnameNormalize m = m := by
  rw [modnameNormalize_plain hdot hlen, dashless_eq_self hdash]

/--
**When the two ways to blacklist agree.** The same modules are blacklisted after the
token of the kernel command line and after the lines of a configuration file, exactly
if every name that can be a module's but for its dashes is read from the token with
underscores, and what is read from it and can be a module's name is the name of a line.
-/
theorem blacklists_agree_iff (names : List CStr) (hnames : ∀ n ∈ names, PlainName n)
    (junk : Nat → UInt8) :
    ∃ kcmdline conf,
      kmodConfigParseKcmdline junk emptyConfig (.ok (blacklistToken names)) = .ok (0, kcmdline) ∧
      kmodConfigParse emptyConfig (blacklistLines names) = .ok conf ∧
      ((∀ name, nameIsBlacklisted kcmdline (modnameNormalize name)
          = nameIsBlacklisted conf (modnameNormalize name)) ↔
        (∀ n ∈ names, 46 ∉ n → n.length < PATH_MAX → dashless n ∈ namesRead names) ∧
        ∀ m ∈ namesRead names, 45 ∉ m → 46 ∉ m → m ∈ names.map dashless) := by
  refine ⟨_, _, kmodConfigParseKcmdline_blacklists hnames junk _,
    kmodConfigParse_blacklists hnames _, ?_⟩
  have hiff : ∀ (config : KmodConfig) name, nameIsBlacklisted config name = true ↔
      name ∈ config.blacklists := by
    intro config name
    simp [nameIsBlacklisted]
  simp only [Bool.eq_iff_iff, hiff]
  show (∀ name, modnameNormalize name ∈ [] ++ namesRead names ↔
    modnameNormalize name ∈ [] ++ names.map dashless) ↔ _
  simp only [List.nil_append]
  refine ⟨fun h => ⟨fun n hn hdot hlen => ?_, fun m hm hdash hdot => ?_⟩,
    fun h name => ⟨fun hmem => ?_, fun hmem => ?_⟩⟩
  · rw [← modnameNormalize_plain hdot hlen]
    refine (h n).mpr ?_
    rw [modnameNormalize_plain hdot hlen]
    exact List.mem_map_of_mem hn
  · -- what is read is the name of some module, so it has to be on the other list
    have hself := modnameNormalize_self hdash hdot (length_of_mem_namesRead hm)
    have := (h m).mp (by rw [hself]; exact hm)
    rwa [hself] at this
  · obtain ⟨hdash, hdot⟩ := modnameNormalize_chars name
    exact h.2 _ hmem hdash hdot
  · obtain ⟨n, hn, heq⟩ := List.mem_map.mp hmem
    have hdot : 46 ∉ n := by
      intro hin
      have : (46 : UInt8) ∈ dashless n := List.mem_map.mpr ⟨46, hin, by decide⟩
      rw [heq] at this
      exact (modnameNormalize_chars name).2 this
    have hlen : n.length < PATH_MAX := by
      have := length_modnameNormalize name
      rw [← heq] at this
      simpa [dashless] using this
    rw [← heq]
    exact h.1 n hn hdot hlen

/-- Names without dashes. -/
theorem blacklists_agree_plain :
    ∃ kcmdline conf,
      kmodConfigParseKcmdline (fun _ => 7) emptyConfig (.ok (cstr "modprobe.blacklist=a,b_c"))
        = .ok (0, kcmdline) ∧
      kmodConfigParse emptyConfig [cstr "blacklist a", cstr "blacklist b_c"] = .ok conf ∧
      ∀ name, nameIsBlacklisted kcmdline (modnameNormalize name)
        = nameIsBlacklisted conf (modnameNormalize name) := by
  have hplain : ∀ n ∈ [cstr "a", cstr "b_c"], PlainName n := by decide
  have hread := namesRead_short hplain (by decide) (by decide)
  obtain ⟨kcmdline, conf, h1, h2, hiff⟩ :=
    blacklists_agree_iff [cstr "a", cstr "b_c"] hplain (fun _ => 7)
  refine ⟨kcmdline, conf, h1, h2, hiff.mpr ?_⟩
  rw [hread]
  decide

/-- `b-c` on the kernel command line does not blacklist the module `b_c`. -/
theorem blacklists_differ_dash :
    ∃ kcmdline conf,
      kmodConfigParseKcmdline (fun _ => 7) emptyConfig (.ok (cstr "modprobe.blacklist=b-c"))
        = .ok (0, kcmdline) ∧
      kmodConfigParse emptyConfig [cstr "blacklist b-c"] = .ok conf ∧
      nameIsBlacklisted kcmdline (modnameNormalize (cstr "b-c")) = false ∧
      nameIsBlacklisted conf (modnameNormalize (cstr "b-c")) = true := by
  have hplain : ∀ n ∈ [cstr "b-c"], PlainName n := by decide
  refine ⟨_, { emptyConfig with blacklists := [cstr "b_c"] },
    kmodConfigParseKcmdline_blacklists hplain _ _, ?_⟩
  rw [namesRead_short hplain (by decide) (by decide)]
  decide

end Kmod
