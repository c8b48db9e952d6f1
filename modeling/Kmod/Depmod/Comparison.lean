import Mathlib.Data.List.TakeWhile
import Kmod.Depmod.SearchOrder

/-!
# Comparing two files of a module

The comparison of depmod agrees with the documented order but for slips of two kinds. As an
entry of the search list that fits the new file is not looked at for the old one, an old
file can lose all its entries; it is then taken for a built-in one, and wins if the built-in
files come first (`Hidden`). And not every path is read as documented (`Misread`): one that
only begins like that of the module directory is taken for a path in it, and a relative
external directory has no registered module, as the registered paths are absolute.

Files are compared as documented just if they are no such pair (`respects_iff`). Absolute
paths that are not beside the module directory are read right (`readRight_of_absolute`), so
that only hidden files are left.
-/

namespace Kmod

open Kmod.Ranking

/-! ## Paths -/

theorem append_slash_prefix_iff {d p : CStr} :
    d ++ [47] <+: p ↔ p[d.length]? = some 47 ∧ p.take d.length = d := by
  refine ⟨?_, ?_⟩
  · intro ⟨t, ht⟩
    rw [← ht]
    simp
  · intro ⟨hget, htake⟩
    obtain ⟨hlt, hget⟩ := List.getElem?_eq_some_iff.mp hget
    refine ⟨p.drop (d.length + 1), ?_⟩
    conv_rhs => rw [← List.take_append_drop d.length p, htake, List.drop_eq_getElem_cons hlt, hget]
    simp

namespace FoundFile

variable (f : FoundFile)

/-- All slashes of a path are in front of the name. -/
theorem slash_lt_baselen {k : Nat} (h : f.path[k]? = some 47) : k < f.baselen := by
  unfold path at h
  unfold baselen
  by_contra hge
  rw [List.getElem?_append_right (by omega),
    show k - f.dir.length = (k - f.dir.length - 1) + 1 by omega, List.getElem?_cons_succ] at h
  exact f.name_slash (List.mem_of_getElem? h)

theorem baselen_le_stem : f.baselen ≤ f.stem.len := Nat.le_add_right _ _

theorem stem_le_path : f.stem.len ≤ f.path.length := by
  have hname : f.modname.length ≤ f.name.length := by
    unfold modname modnameNormalize
    rw [List.length_map]
    exact Nat.le_trans (List.takeWhile_prefix _).length_le (List.take_prefix _ _).length_le
  unfold stem baselen path
  rw [List.length_append, List.length_cons]
  dsimp only
  omega

theorem path_length_le : f.path.length ≤ SIZE_MAX := by
  have := f.fits
  unfold path
  rw [List.length_append, List.length_cons]
  omega

/-- The test for an external directory. -/
theorem startsWith_eq (d : CStr) :
    depmodIsPathStartsWith f.path f.stem.len d = decide (d ++ [47] <+: f.path) := by
  unfold depmodIsPathStartsWith
  rw [decide_eq_decide, append_slash_prefix_iff]
  refine ⟨fun h => h.2, fun h => ⟨?_, h⟩⟩
  have hslash := f.slash_lt_baselen h.1
  have hstem := f.baselen_le_stem
  omega

theorem basename_path : basename f.path = f.name := by
  unfold path
  rw [basename_append, basename_of_notMem f.name_slash]

/-- What is registered for an absolute path. -/
theorem mod_stem {f : FoundFile} (habs : pathIsAbsolute f.path = true) (cwd : CStr) :
    (f.mod cwd).stem = f.stem := by
  have habspath : pathMakeAbsoluteCwd cwd f.path = f.path := if_pos habs
  have hlen : f.path.length - f.name.length - 1 = f.dir.length := by
    unfold path
    rw [List.length_append, List.length_cons]
    omega
  unfold mod Mod.stem Mod.modnamesz modBaselen stem baselen
  dsimp only
  rw [habspath, f.basename_path, hlen]
  congr 1
  omega

end FoundFile

section Inside

variable {cfg : Cfg} {f : FoundFile}

/-- A file in the module directory. -/
theorem relStem_inside (h : cfg.dirname ++ [47] <+: f.path) :
    ∃ rest, f.path = cfg.dirname ++ 47 :: rest ∧
      relStem cfg f.stem = ⟨rest, f.stem.len - (cfg.dirname.length + 1)⟩ ∧
      cfg.dirname.length + 1 ≤ f.stem.len := by
  obtain ⟨hget, htake⟩ := append_slash_prefix_iff.mp h
  have hslash := f.slash_lt_baselen hget
  have hstem := f.baselen_le_stem
  have hpath := f.stem_le_path
  have hsize := f.path_length_le
  obtain ⟨rest, hrest⟩ := h
  refine ⟨rest, by rw [← hrest]; simp, ?_, by omega⟩
  unfold relStem
  rw [if_pos (show f.stem.path.take cfg.dirname.length = cfg.dirname from htake)]
  congr 1
  · rw [show f.stem.path = f.path from rfl, ← hrest, show cfg.dirname.length + 1 =
      (cfg.dirname ++ [47]).length by simp, List.drop_left]
  · rw [show f.stem.len + (SIZE_MAX + 1) - (cfg.dirname.length + 1) =
      f.stem.len - (cfg.dirname.length + 1) + (SIZE_MAX + 1) by omega, Nat.add_mod_right,
      Nat.mod_eq_of_lt (by omega)]

theorem matchesSearch_inside (h : cfg.dirname ++ [47] <+: f.path) (d : CStr) :
    matchesSearch (relStem cfg f.stem) d =
      decide (cfg.dirname ++ 47 :: (d ++ [47]) <+: f.path) := by
  obtain ⟨rest, hpath, hrel, hle⟩ := relStem_inside h
  have hstem := f.baselen_le_stem
  rw [hrel]
  unfold matchesSearch
  rw [decide_eq_decide, hpath, List.prefix_append_right_inj, List.cons_prefix_cons,
    append_slash_prefix_iff]
  refine ⟨fun h => ⟨rfl, h.2⟩, fun h => ⟨?_, h.2⟩⟩
  -- the slash behind the directory is in front of the name
  have hslash : f.path[cfg.dirname.length + 1 + d.length]? = some 47 := by
    rw [hpath, List.getElem?_append_right (by omega),
      show cfg.dirname.length + 1 + d.length - cfg.dirname.length = d.length + 1 by omega,
      List.getElem?_cons_succ]
    exact h.2.1
  have := f.slash_lt_baselen hslash
  dsimp only
  omega

theorem matchesOverride_inside (h : cfg.dirname ++ [47] <+: f.path) (ov : CStr) :
    matchesOverride (relStem cfg f.stem) ov = atOverride cfg.dirname f.stem ov := by
  obtain ⟨rest, hpath, hrel, hle⟩ := relStem_inside h
  have hstem := f.stem_le_path
  have hlen : f.path.length = cfg.dirname.length + (rest.length + 1) := by
    rw [hpath, List.length_append, List.length_cons]
  have htake : f.path.take f.stem.len =
      cfg.dirname ++ 47 :: rest.take (f.stem.len - (cfg.dirname.length + 1)) := by
    rw [hpath, List.take_append, List.take_of_length_le (by omega),
      show f.stem.len - cfg.dirname.length = f.stem.len - (cfg.dirname.length + 1) + 1 by omega,
      List.take_succ_cons]
  rw [hrel]
  unfold matchesOverride atOverride
  rw [decide_eq_decide, show f.stem.path = f.path from rfl, htake, List.append_cancel_left_eq,
    List.cons.injEq]
  dsimp only
  refine ⟨fun h => ⟨rfl, h.2⟩, fun h => ⟨?_, h.2⟩⟩
  rw [← h.2, List.length_take]
  omega

theorem relStem_outside (h : ¬ f.path.take cfg.dirname.length = cfg.dirname) :
    relStem cfg f.stem = ⟨[], 0⟩ := if_neg h

end Inside

/--
The path of the file continues that of the module directory without a slash, and what follows
fits the configuration.
-/
def Beside (cfg : Cfg) (f : FoundFile) : Prop :=
  (f.path.take cfg.dirname.length = cfg.dirname ∧ f.path[cfg.dirname.length]? ≠ some 47) ∧
    ((∃ ov ∈ cfg.overrides, matchesOverride (relStem cfg f.stem) ov = true) ∨
      ∃ d, .path d ∈ cfg.searches ∧ matchesSearch (relStem cfg f.stem) d = true)

section Placed

variable {cfg : Cfg} {f : FoundFile} (hbeside : ¬ Beside cfg f)

include hbeside

theorem matchesSearch_eq {d : CStr} (hd : .path d ∈ cfg.searches) :
    matchesSearch (relStem cfg f.stem) d =
      decide (cfg.dirname ++ 47 :: (d ++ [47]) <+: f.path) := by
  by_cases hin : cfg.dirname ++ [47] <+: f.path
  · exact matchesSearch_inside hin d
  · have hnot : ¬ cfg.dirname ++ 47 :: (d ++ [47]) <+: f.path := by
      intro h
      refine hin (List.IsPrefix.trans ?_ h)
      rw [List.prefix_append_right_inj]
      exact ⟨d ++ [47], rfl⟩
    rw [decide_eq_false hnot]
    by_cases hstart : f.path.take cfg.dirname.length = cfg.dirname
    · have hslash : f.path[cfg.dirname.length]? ≠ some 47 :=
        fun hget => hin (append_slash_prefix_iff.mpr ⟨hget, hstart⟩)
      rw [← Bool.not_eq_true]
      exact fun hmatch => hbeside ⟨⟨hstart, hslash⟩, .inr ⟨d, hd, hmatch⟩⟩
    · rw [relStem_outside hstart]
      simp [matchesSearch]

theorem matchesOverride_eq {ov : CStr} (hov : ov ∈ cfg.overrides) (hne : ov ≠ []) :
    matchesOverride (relStem cfg f.stem) ov = atOverride cfg.dirname f.stem ov := by
  by_cases hin : cfg.dirname ++ [47] <+: f.path
  · exact matchesOverride_inside hin ov
  · have hnot : atOverride cfg.dirname f.stem ov = false := by
      unfold atOverride
      rw [decide_eq_false_iff_not]
      intro h
      refine hin (List.IsPrefix.trans ?_ (List.take_prefix f.stem.len f.stem.path))
      rw [h, List.prefix_append_right_inj]
      exact ⟨ov, rfl⟩
    rw [hnot]
    by_cases hstart : f.path.take cfg.dirname.length = cfg.dirname
    · have hslash : f.path[cfg.dirname.length]? ≠ some 47 :=
        fun hget => hin (append_slash_prefix_iff.mpr ⟨hget, hstart⟩)
      rw [← Bool.not_eq_true]
      exact fun hmatch => hbeside ⟨⟨hstart, hslash⟩, .inl ⟨ov, hov, hmatch⟩⟩
    · rw [relStem_outside hstart]
      simp [matchesOverride, hne]

end Placed

/-- The entries that search directories of the module directory are those of the search list. -/
theorem mem_searches_of_subdir {cfg : Cfg} {d : CStr} (h : .subdir d ∈ cfgOrder cfg) :
    .path d ∈ cfg.searches := by
  unfold cfgOrder at h
  rw [List.mem_reverse, List.mem_flatMap] at h
  obtain ⟨se, hse, he⟩ := h
  cases se with
  | builtin => simp [entriesOf] at he
  | external => simp [entriesOf] at he
  | path p =>
    simp only [entriesOf, List.mem_singleton, SearchEntry.subdir.injEq] at he
    rw [he]
    exact hse

/-- The entries that search external directories are those that are listed. -/
theorem mem_externals_of_external {cfg : Cfg} {d : CStr} (h : .external d ∈ cfgOrder cfg) :
    d ∈ cfg.externals := by
  unfold cfgOrder at h
  rw [List.mem_reverse, List.mem_flatMap] at h
  obtain ⟨se, hse, he⟩ := h
  cases se with
  | builtin => simp [entriesOf] at he
  | external =>
    obtain ⟨d', hd', heq⟩ := List.mem_map.mp he
    cases heq
    exact hd'
  | path p => simp [entriesOf] at he

/-! ## Comparing two files -/

section Positions

variable {order : List SearchEntry} {p q : SearchEntry → Bool}

theorem position_congr (h : ∀ e ∈ order, p e = q e) : position order p = position order q := by
  have hany : order.any p = order.any q := by
    rw [← Bool.coe_iff_coe, List.any_eq_true, List.any_eq_true]
    refine ⟨?_, ?_⟩
    · intro ⟨e, he, hp⟩
      exact ⟨e, he, h e he ▸ hp⟩
    · intro ⟨e, he, hq⟩
      exact ⟨e, he, (h e he).symm ▸ hq⟩
  unfold position
  rw [hany]
  cases order.any q with
  | false => rfl
  | true => exact findIdx_congr h

theorem position_of_any (h : order.any p = true) : position order p = order.findIdx p := by
  unfold position
  rw [if_pos h]

theorem position_of_not_any (h : order.any p = false) :
    position order p = order.findIdx isBuiltin := by
  unfold position
  rw [if_neg (by rw [h]; simp)]

/-- If the best entry of the old file does not count, it ranks the new file too. -/
theorem findIdx_le_of_not_counted (hq : order.any q = true)
    (hlt : order.findIdx q < order.findIdx (fun e => q e && !(isSubdir e && p e))) :
    order.any p = true ∧ order.findIdx p ≤ order.findIdx q := by
  have hlen : order.findIdx q < order.length :=
    List.findIdx_lt_length_of_exists (List.any_eq_true.mp hq)
  have hqe : q order[order.findIdx q] = true := List.findIdx_getElem
  have hce : (q order[order.findIdx q] && !(isSubdir order[order.findIdx q] &&
      p order[order.findIdx q])) = false := List.not_of_lt_findIdx hlt
  have hpe : p order[order.findIdx q] = true := by
    rw [hqe] at hce
    simp only [Bool.true_and, Bool.not_eq_false', Bool.and_eq_true] at hce
    exact hce.2
  refine ⟨List.any_eq_true.mpr ⟨_, List.getElem_mem hlen, hpe⟩, ?_⟩
  by_contra hgt
  have hnot : p order[order.findIdx q] = false := List.not_of_lt_findIdx (Nat.lt_of_not_le hgt)
  rw [hpe] at hnot
  cases hnot

/--
Comparing with the entries that count for the old file instead of all its entries `q`: this
goes wrong just if none counts, and the built-in files come before the new one.
-/
theorem position_respects_iff :
    ((position order (fun e => q e && !(isSubdir e && p e)) ≤ position order p →
        position order q ≤ position order p) ∧
      (¬ position order (fun e => q e && !(isSubdir e && p e)) ≤ position order p →
        position order p ≤ position order q)) ↔
    ¬ (order.any q = true ∧
      (∀ e ∈ order, q e = true → isSubdir e = true ∧ p e = true) ∧
      position order p < position order q ∧ order.findIdx isBuiltin ≤ position order p) := by
  have hsub : order.findIdx q ≤ order.findIdx (fun e => q e && !(isSubdir e && p e)) :=
    List.findIdx_le_findIdx (fun e _ h => by simp only [Bool.and_eq_true] at h; exact h.1)
  cases hq : order.any q with
  | false =>
    -- the old file has no entry at all
    have hc : order.any (fun e => q e && !(isSubdir e && p e)) = false := by
      rw [List.any_eq_false] at hq ⊢
      intro e he
      simp [hq e he]
    rw [position_of_not_any hc, position_of_not_any hq]
    simp only [Bool.false_eq_true, false_and, not_false_eq_true, iff_true]
    omega
  | true =>
    rw [position_of_any hq]
    cases hc : order.any (fun e => q e && !(isSubdir e && p e)) with
    | true =>
      rw [position_of_any hc]
      have hshared : ¬ ∀ e ∈ order, q e = true → isSubdir e = true ∧ p e = true := by
        intro hall
        obtain ⟨e, he, hce⟩ := List.any_eq_true.mp hc
        simp only [Bool.and_eq_true, Bool.not_eq_true'] at hce
        have := hall e he hce.1
        rw [this.1, this.2] at hce
        cases hce.2
      refine ⟨fun _ h => hshared h.2.1, fun _ => ?_⟩
      by_cases heq : order.findIdx q = order.findIdx (fun e => q e && !(isSubdir e && p e))
      · omega
      · obtain ⟨hany, hle⟩ := findIdx_le_of_not_counted hq (Nat.lt_of_le_of_ne hsub heq)
        rw [position_of_any hany]
        omega
    | false =>
      have hshared : ∀ e ∈ order, q e = true → isSubdir e = true ∧ p e = true := by
        intro e he hqe
        have := List.any_eq_false.mp hc e he
        simpa [hqe] using this
      have hany : order.any p = true := by
        obtain ⟨e, he, hqe⟩ := List.any_eq_true.mp hq
        exact List.any_eq_true.mpr ⟨e, he, (hshared e he hqe).2⟩
      have hle : order.findIdx p ≤ order.findIdx q :=
        List.findIdx_le_findIdx (fun e he hqe => (hshared e he hqe).2)
      rw [position_of_not_any hc, position_of_any hany]
      refine ⟨fun h hbad => ?_, fun h => ⟨fun hb => ?_, fun _ => hle⟩⟩
      · have := h.1 hbad.2.2.2
        omega
      · by_contra hgt
        exact h ⟨rfl, hshared, by omega, hb⟩

end Positions

/-! ## Pairs of files -/

section Pairs

variable (dirname cwd : CStr) (commands : List CfgCommand)

/-- The comparison finds for a path `s` what is documented for a path `m`. -/
structure ReadsAs (s m : Stem) : Prop where
  override : ∀ ov ∈ overridePaths commands,
    matchesOverride (relStem (cfgLoad dirname commands) s) ov = atOverride dirname m ov
  entry : ∀ e ∈ searchOrder commands,
    fitsEntry (cfgLoad dirname commands) s e = ranks dirname cwd m e

/--
The paths are read as documented: for the old file `g` the one that is registered, for the
new file `f` the one it was found under.
-/
structure ReadRight (g f : FoundFile) : Prop where
  old : ReadsAs dirname cwd commands (g.mod cwd).stem (g.mod cwd).stem
  new : ReadsAs dirname cwd commands f.stem (f.mod cwd).stem

/--
The new file `f` ranks higher than the old file `g`, but all entries that rank `g` rank `f`
too, so that `g` is taken for a built-in file, and these come before `f`.
-/
structure Hidden (g f : FoundFile) : Prop where
  read : ReadRight dirname cwd commands g f
  no_override : ∀ ov ∈ overridePaths commands,
    atOverride dirname (g.mod cwd).stem ov = false ∧ atOverride dirname (f.mod cwd).stem ov = false
  ranked : (searchOrder commands).any (ranks dirname cwd (g.mod cwd).stem) = true
  shared : ∀ e ∈ searchOrder commands, ranks dirname cwd (g.mod cwd).stem e = true →
    isSubdir e = true ∧ ranks dirname cwd (f.mod cwd).stem e = true
  lower : position (searchOrder commands) (ranks dirname cwd (f.mod cwd).stem) <
    position (searchOrder commands) (ranks dirname cwd (g.mod cwd).stem)
  builtin_first : (searchOrder commands).findIdx isBuiltin ≤
    position (searchOrder commands) (ranks dirname cwd (f.mod cwd).stem)

/--
A path is not read as documented, and the places that are read order the files otherwise
than the documented ones.
-/
structure Misread (g f : FoundFile) : Prop where
  misread : ¬ ReadRight dirname cwd commands g f
  wrong :
    (place dirname cwd commands (f.mod cwd).stem < place dirname cwd commands (g.mod cwd).stem ∧
      ReadFirst (cfgLoad dirname commands) f.stem (g.mod cwd).stem) ∨
    (place dirname cwd commands (g.mod cwd).stem < place dirname cwd commands (f.mod cwd).stem ∧
      ¬ ReadFirst (cfgLoad dirname commands) f.stem (g.mod cwd).stem)

/-- The better one of two files is registered then: the old file `g` or the new one `f`. -/
def Respects (g f : FoundFile) : Prop :=
  (depmodModuleIsHigherPriority (cfgLoad dirname commands) (g.mod cwd) f.baselen f.modname.length
      f.path = true →
    place dirname cwd commands (g.mod cwd).stem ≤ place dirname cwd commands (f.mod cwd).stem) ∧
  (depmodModuleIsHigherPriority (cfgLoad dirname commands) (g.mod cwd) f.baselen f.modname.length
      f.path = false →
    place dirname cwd commands (f.mod cwd).stem ≤ place dirname cwd commands (g.mod cwd).stem)

end Pairs

section Compare

variable {dirname cwd : CStr} {commands : List CfgCommand} {g f : FoundFile}

theorem cfgOrder_load : cfgOrder (cfgLoad dirname commands) = searchOrder commands :=
  (searchOrder_eq dirname commands).symm

/-- The place of a new file that is read as documented. -/
theorem ReadsAs.newPlace_eq {s m : Stem} (h : ReadsAs dirname cwd commands s m) :
    newPlace (cfgLoad dirname commands) s = place dirname cwd commands m := by
  unfold newPlace place placeIn
  rw [cfgOrder_load, cfgLoad_overrides, position_congr h.entry,
    findIdx_congr (fun ov hov => h.override ov (List.mem_reverse.mp hov))]

/-- The place of an old file: what ranks the new file does not count. -/
theorem ReadRight.oldPlace_eq (h : ReadRight dirname cwd commands g f) :
    oldPlace (cfgLoad dirname commands) f.stem (g.mod cwd).stem =
      placeIn (overridePaths commands).reverse (searchOrder commands)
        (atOverride dirname (g.mod cwd).stem)
        (fun e => ranks dirname cwd (g.mod cwd).stem e &&
          !(isSubdir e && ranks dirname cwd (f.mod cwd).stem e)) := by
  have hcounts : ∀ e ∈ searchOrder commands,
      countsForOld (cfgLoad dirname commands) f.stem (g.mod cwd).stem e =
        (ranks dirname cwd (g.mod cwd).stem e &&
          !(isSubdir e && ranks dirname cwd (f.mod cwd).stem e)) := by
    intro e he
    unfold countsForOld
    rw [h.old.entry e he, h.new.entry e he]
  unfold oldPlace placeIn
  rw [cfgOrder_load, cfgLoad_overrides, position_congr hcounts,
    findIdx_congr (fun ov hov => h.old.override ov (List.mem_reverse.mp hov))]

/-- If the paths are read as documented, the comparison is right unless the old file is hidden. -/
theorem ReadRight.respects_iff (h : ReadRight dirname cwd commands g f) :
    Respects dirname cwd commands g f ↔ ¬ Hidden dirname cwd commands g f := by
  have hf : (overridePaths commands).reverse.findIdx (atOverride dirname (f.mod cwd).stem) ≤
    (overridePaths commands).reverse.length := List.findIdx_le_length
  have hg : (overridePaths commands).reverse.findIdx (atOverride dirname (g.mod cwd).stem) ≤
    (overridePaths commands).reverse.length := List.findIdx_le_length
  unfold Respects
  rw [← Bool.not_eq_true, kept_iff, show (⟨f.path, f.baselen + f.modname.length⟩ : Stem) = f.stem
    from rfl]
  unfold ReadFirst
  rw [h.oldPlace_eq, h.new.newPlace_eq, cfgLoad_overrides]
  unfold place placeIn
  by_cases hov : (overridePaths commands).reverse.findIdx (atOverride dirname (f.mod cwd).stem) <
        (overridePaths commands).reverse.length ∨
      (overridePaths commands).reverse.findIdx (atOverride dirname (g.mod cwd).stem) <
        (overridePaths commands).reverse.length
  · -- one of the files is that of an override
    have hnot : ¬ Hidden dirname cwd commands g f := by
      intro hidden
      rcases hov with hov | hov
      · obtain ⟨ov, hmem, hat⟩ := List.findIdx_lt_length.mp hov
        rw [(hidden.no_override ov (List.mem_reverse.mp hmem)).2] at hat
        cases hat
      · obtain ⟨ov, hmem, hat⟩ := List.findIdx_lt_length.mp hov
        rw [(hidden.no_override ov (List.mem_reverse.mp hmem)).1] at hat
        cases hat
    refine ⟨fun _ => hnot, fun _ => ?_⟩
    split <;> split <;> omega
  · rw [not_or] at hov
    have hrespects := @position_respects_iff (searchOrder commands)
      (ranks dirname cwd (f.mod cwd).stem) (ranks dirname cwd (g.mod cwd).stem)
    rw [if_neg hov.1, if_neg hov.2, if_neg hov.2]
    refine Iff.trans ?_ (hrespects.trans (not_congr ⟨?_, ?_⟩))
    · refine and_congr (imp_congr ?_ ?_) (imp_congr (not_congr ?_) ?_) <;> omega
    · intro ⟨hranked, hshared, hlower, hbuiltin⟩
      refine ⟨h, ?_, hranked, hshared, hlower, hbuiltin⟩
      intro ov hmem
      have hnone : ∀ s : Stem, ¬ (overridePaths commands).reverse.findIdx (atOverride dirname s) <
          (overridePaths commands).reverse.length → atOverride dirname s ov = false := by
        intro s hs
        rw [List.findIdx_lt_length] at hs
        by_contra hat
        exact hs ⟨ov, List.mem_reverse.mpr hmem, by simpa using hat⟩
      exact ⟨hnone _ hov.2, hnone _ hov.1⟩
    · intro hidden
      exact ⟨hidden.ranked, hidden.shared, hidden.lower, hidden.builtin_first⟩

/-- **The comparison respects the places of two files** unless they are a pair of either kind. -/
theorem respects_iff :
    Respects dirname cwd commands g f ↔
      ¬ Hidden dirname cwd commands g f ∧ ¬ Misread dirname cwd commands g f := by
  by_cases h : ReadRight dirname cwd commands g f
  · rw [h.respects_iff]
    exact ⟨fun hnot => ⟨hnot, fun hmis => hmis.misread h⟩, fun hnot => hnot.1⟩
  · have hhidden : ¬ Hidden dirname cwd commands g f := fun hidden => h hidden.read
    have hmisread : Misread dirname cwd commands g f ↔ _ :=
      ⟨fun hmis => hmis.wrong, fun hwrong => ⟨h, hwrong⟩⟩
    unfold Respects
    rw [and_iff_right hhidden, hmisread, ← Bool.not_eq_true, kept_iff]
    unfold FoundFile.stem
    by_cases hread : ReadFirst (cfgLoad dirname commands) ⟨f.path, f.baselen + f.modname.length⟩
        (g.mod cwd).stem
    · simp only [hread, true_imp_iff, not_true, false_imp_iff, and_true, and_false, or_false,
        Nat.not_lt]
    · simp only [hread, true_imp_iff, not_false_iff, false_imp_iff, true_and, and_true, and_false,
        false_or, Nat.not_lt]

end Compare

/-! ## Absolute paths -/

theorem ne_nil_of_mem_overridePaths {commands : List CfgCommand} {ov : CStr}
    (h : ov ∈ overridePaths commands) : ov ≠ [] := by
  unfold overridePaths at h
  obtain ⟨c, _, hc⟩ := List.mem_filterMap.mp h
  cases c with
  | search path => cases hc
  | external path => cases hc
  | override modname subdir =>
    cases hc
    simp

section Absolute

variable {dirname : CStr} {commands : List CfgCommand}
  (hext : ∀ d ∈ externalDirs commands, pathIsAbsolute d = true)

include hext

/-- A file with an absolute path that is not beside the module directory. -/
theorem readsAs_of_absolute {f : FoundFile} (habs : pathIsAbsolute f.path = true)
    (hbeside : ¬ Beside (cfgLoad dirname commands) f) (cwd : CStr) :
    ReadsAs dirname cwd commands f.stem (f.mod cwd).stem := by
  rw [FoundFile.mod_stem habs]
  refine ⟨?_, ?_⟩
  · intro ov hov
    have hmem : ov ∈ (cfgLoad dirname commands).overrides := by
      rw [cfgLoad_overrides]
      exact List.mem_reverse.mpr hov
    rw [matchesOverride_eq hbeside hmem (ne_nil_of_mem_overridePaths hov), cfgLoad_dirname]
  · intro e he
    rw [← @cfgOrder_load dirname] at he
    cases e with
    | builtin => rfl
    | external d =>
      have hd := mem_externals_of_external he
      rw [cfgLoad_externals, List.mem_reverse] at hd
      have habspath : pathMakeAbsoluteCwd cwd d = d := if_pos (hext d hd)
      show _ = decide (pathMakeAbsoluteCwd cwd d ++ [47] <+: f.path)
      rw [habspath]
      exact f.startsWith_eq d
    | subdir d =>
      have hmatch := matchesSearch_eq hbeside (mem_searches_of_subdir he)
      rw [cfgLoad_dirname] at hmatch
      exact hmatch

/-- **Absolute paths are read right**, but for those beside the module directory. -/
theorem readRight_of_absolute {g f : FoundFile} (hg : pathIsAbsolute g.path = true)
    (hf : pathIsAbsolute f.path = true) (hgbeside : ¬ Beside (cfgLoad dirname commands) g)
    (hfbeside : ¬ Beside (cfgLoad dirname commands) f) (cwd : CStr) :
    ReadRight dirname cwd commands g f := by
  have hold := readsAs_of_absolute hext hg hgbeside cwd
  refine ⟨?_, readsAs_of_absolute hext hf hfbeside cwd⟩
  rw [FoundFile.mod_stem hg] at hold ⊢
  exact hold

end Absolute

end Kmod
