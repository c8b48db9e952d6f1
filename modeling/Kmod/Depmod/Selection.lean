import Mathlib.Data.Set.Insert
import Kmod.Depmod.Comparison

/-!
# Selection by the documented priority

depmod finds the files of a module in the order the directories are read in. One file is
registered at a time and each further one is compared with it, so a best file is
registered in the end if every comparison on the way is right: whatever the order is, and
whatever other modules are found in between (`selected_search`).
-/

namespace Kmod

/-! ## Whole searches -/

/-- The file is one of a module. -/
def isModule (kmodExts : List CStr) (f : FoundFile) : Bool := pathEndsWithKmodExt kmodExts f.name

theorem depmodModuleAdd_eq (cwd : CStr) (mods : ModulesByName) (f : FoundFile) :
    depmodModuleAdd mods (pathMakeAbsoluteCwd cwd f.path) f.modname =
      fun name => if name = f.modname then some (f.mod cwd) else mods name := rfl

theorem pathToModname_path {kmodExts : List CStr} {f : FoundFile}
    (hmod : isModule kmodExts f = true) : pathToModname f.path = some f.modname := by
  unfold pathToModname
  rw [f.basename_path]
  cases hn : f.name with
  | nil =>
    unfold isModule pathEndsWithKmodExt at hmod
    obtain ⟨ext, _, hext⟩ := List.any_eq_true.mp hmod
    rw [hn] at hext
    simp at hext
  | cons c cs =>
    unfold FoundFile.modname
    rw [hn]

/-- The first file of a module. -/
theorem depmodModulesSearchFile_first {kmodExts : List CStr} {f : FoundFile}
    (hmod : isModule kmodExts f = true) (cwd : CStr) (cfg : Cfg) {mods : ModulesByName}
    (hreg : mods f.modname = none) :
    depmodModulesSearchFile kmodExts cwd cfg mods f =
      fun name => if name = f.modname then some (f.mod cwd) else mods name := by
  unfold depmodModulesSearchFile
  rw [if_neg (by rw [Bool.not_eq_false]; exact hmod), pathToModname_path hmod]
  dsimp only
  rw [hreg]
  exact depmodModuleAdd_eq cwd mods f

/-- A further file of a module. -/
theorem depmodModulesSearchFile_next {kmodExts : List CStr} {f : FoundFile}
    (hmod : isModule kmodExts f = true) (cwd : CStr) (cfg : Cfg) {mods : ModulesByName} {mod : Mod}
    (hreg : mods f.modname = some mod) :
    depmodModulesSearchFile kmodExts cwd cfg mods f =
      if depmodModuleIsHigherPriority cfg mod f.baselen f.modname.length f.path then mods
      else fun name => if name = f.modname then some (f.mod cwd) else mods name := by
  unfold depmodModulesSearchFile
  rw [if_neg (by rw [Bool.not_eq_false]; exact hmod), pathToModname_path hmod]
  dsimp only
  rw [hreg, ← depmodModuleAdd_eq cwd mods f]

/-- Of the files seen so far, a best one is registered for each module. -/
structure Selected (kmodExts : List CStr) (dirname cwd : CStr) (commands : List CfgCommand)
    (seen : List FoundFile) (mods : ModulesByName) : Prop where
  registered : ∀ name mod, mods name = some mod → ∃ w ∈ seen, isModule kmodExts w = true ∧
    w.modname = name ∧ mod = w.mod cwd ∧
    ∀ f ∈ seen, isModule kmodExts f = true → f.modname = name →
      place dirname cwd commands (w.mod cwd).stem ≤ place dirname cwd commands (f.mod cwd).stem
  complete : ∀ f ∈ seen, isModule kmodExts f = true → mods f.modname ≠ none

section Search

variable {kmodExts : List CStr} {dirname cwd : CStr} {commands : List CfgCommand}
  {seen : List FoundFile} {mods : ModulesByName} {f : FoundFile}

/-- A file that is no module changes nothing. -/
theorem Selected.skip (h : Selected kmodExts dirname cwd commands seen mods)
    (hf : isModule kmodExts f = false) :
    Selected kmodExts dirname cwd commands (seen ++ [f]) mods := by
  have hmem : ∀ x ∈ seen ++ [f], isModule kmodExts x = true → x ∈ seen := by
    intro x hx hmod
    rcases List.mem_append.mp hx with hx | hx
    · exact hx
    · rw [List.mem_singleton.mp hx, hf] at hmod
      cases hmod
  refine ⟨?_, fun x hx hmod => h.complete x (hmem x hx hmod) hmod⟩
  intro name mod hreg
  obtain ⟨w, hw, hmod, hname, heq, hbest⟩ := h.registered name mod hreg
  exact ⟨w, List.mem_append_left _ hw, hmod, hname, heq,
    fun x hx hxmod => hbest x (hmem x hx hxmod) hxmod⟩

/-- A file that is worse than the registered one changes nothing. -/
theorem Selected.keep (h : Selected kmodExts dirname cwd commands seen mods) {g : FoundFile}
    (hreg : mods f.modname = some (g.mod cwd))
    (hle : place dirname cwd commands (g.mod cwd).stem ≤
      place dirname cwd commands (f.mod cwd).stem) :
    Selected kmodExts dirname cwd commands (seen ++ [f]) mods := by
  refine ⟨?_, ?_⟩
  · intro name mod hname
    obtain ⟨w, hw, hmod, hwname, heq, hbest⟩ := h.registered name mod hname
    refine ⟨w, List.mem_append_left _ hw, hmod, hwname, heq, ?_⟩
    intro x hx hxmod hxname
    rcases List.mem_append.mp hx with hx | hx
    · exact hbest x hx hxmod hxname
    · rw [List.mem_singleton] at hx
      subst hx
      rw [hxname, hname, heq] at hreg
      rw [Option.some.inj hreg]
      exact hle
  · intro x hx hxmod
    rcases List.mem_append.mp hx with hx | hx
    · exact h.complete x hx hxmod
    · rw [List.mem_singleton.mp hx, hreg]
      simp

/-- A file that is as good as all others is registered. -/
theorem Selected.replace (h : Selected kmodExts dirname cwd commands seen mods)
    (hf : isModule kmodExts f = true)
    (hbest : ∀ x ∈ seen, isModule kmodExts x = true → x.modname = f.modname →
      place dirname cwd commands (f.mod cwd).stem ≤ place dirname cwd commands (x.mod cwd).stem) :
    Selected kmodExts dirname cwd commands (seen ++ [f])
      (fun name => if name = f.modname then some (f.mod cwd) else mods name) := by
  refine ⟨?_, ?_⟩
  · intro name mod hname
    split at hname
    · next heq =>
      cases hname
      refine ⟨f, by simp, hf, heq.symm, rfl, ?_⟩
      intro x hx hxmod hxname
      rcases List.mem_append.mp hx with hx | hx
      · exact hbest x hx hxmod (hxname.trans heq)
      · rw [List.mem_singleton.mp hx]
    · next hne =>
      obtain ⟨w, hw, hmod, hwname, heq, hwbest⟩ := h.registered name mod hname
      refine ⟨w, List.mem_append_left _ hw, hmod, hwname, heq, ?_⟩
      intro x hx hxmod hxname
      rcases List.mem_append.mp hx with hx | hx
      · exact hwbest x hx hxmod hxname
      · rw [List.mem_singleton.mp hx] at hxname
        exact absurd hxname.symm hne
  · intro x hx hxmod
    split
    · simp
    · next hne =>
      rcases List.mem_append.mp hx with hx | hx
      · exact h.complete x hx hxmod
      · rw [List.mem_singleton.mp hx] at hne
        exact absurd rfl hne

/-- **One file.** The invariant holds after it, if it was compared as documented. -/
theorem Selected.step (h : Selected kmodExts dirname cwd commands seen mods)
    (hrespects : ∀ g ∈ seen, isModule kmodExts g = true → isModule kmodExts f = true →
      g.modname = f.modname → Respects dirname cwd commands g f) :
    Selected kmodExts dirname cwd commands (seen ++ [f])
      (depmodModulesSearchFile kmodExts cwd (cfgLoad dirname commands) mods f) := by
  cases hf : isModule kmodExts f with
  | false =>
    unfold depmodModulesSearchFile
    rw [if_pos (show pathEndsWithKmodExt kmodExts f.name = false from hf)]
    exact h.skip hf
  | true =>
    cases hreg : mods f.modname with
    | none =>
      rw [depmodModulesSearchFile_first hf cwd _ hreg]
      refine h.replace hf ?_
      intro x hx hxmod hxname
      exact absurd (hxname ▸ hreg) (h.complete x hx hxmod)
    | some mod =>
      obtain ⟨g, hg, hgmod, hgname, heq, hbest⟩ := h.registered _ _ hreg
      obtain ⟨hkeep, hreplace⟩ := hrespects g hg hgmod hf hgname
      subst heq
      rw [depmodModulesSearchFile_next hf cwd _ hreg]
      split
      · next hkept => exact h.keep hreg (hkeep hkept)
      · next hkept =>
        rw [Bool.not_eq_true] at hkept
        refine h.replace hf ?_
        intro x hx hxmod hxname
        exact Nat.le_trans (hreplace hkept) (hbest x hx hxmod hxname)

/-- **Any run.** -/
theorem selected_search (files : List FoundFile)
    (hrespects : ∀ g ∈ files, ∀ f ∈ files, isModule kmodExts g = true →
      isModule kmodExts f = true → g.modname = f.modname → Respects dirname cwd commands g f) :
    Selected kmodExts dirname cwd commands files
      (depmodModulesSearch kmodExts cwd (cfgLoad dirname commands) files) := by
  induction files using List.reverseRecOn with
  | nil =>
    refine ⟨?_, ?_⟩
    · intro name mod h
      cases h
    · intro f hf
      cases hf
  | append_singleton files f ih =>
    unfold depmodModulesSearch
    rw [List.foldl_append]
    refine Selected.step (ih ?_) ?_
    · exact fun g hg x hx => hrespects g (List.mem_append_left _ hg) x (List.mem_append_left _ hx)
    · exact fun g hg => hrespects g (List.mem_append_left _ hg) f (by simp)

end Search

/-- A file of each module that was found is registered, and none of its files has a better place. -/
def SelectsBest (kmodExts : List CStr) (dirname cwd : CStr) (commands : List CfgCommand)
    (files : List FoundFile) : Prop :=
  ∀ f ∈ files, isModule kmodExts f = true → ∃ w ∈ files, w.modname = f.modname ∧
    depmodModulesSearch kmodExts cwd (cfgLoad dirname commands) files f.modname =
      some (w.mod cwd) ∧
    place dirname cwd commands (w.mod cwd).stem ≤ place dirname cwd commands (f.mod cwd).stem

section Select

variable {kmodExts : List CStr} {dirname cwd : CStr} {commands : List CfgCommand}

theorem selectsBest_of_selected {files : List FoundFile}
    (h : Selected kmodExts dirname cwd commands files
      (depmodModulesSearch kmodExts cwd (cfgLoad dirname commands) files)) :
    SelectsBest kmodExts dirname cwd commands files := by
  intro f hf hmod
  obtain ⟨mod, hreg⟩ := Option.ne_none_iff_exists'.mp (h.complete f hf hmod)
  obtain ⟨w, hw, _, hname, heq, hbest⟩ := h.registered _ _ hreg
  exact ⟨w, hw, hname, heq ▸ hreg, hbest f hf hmod rfl⟩

/-- If two files are selected from as documented, they are compared so. -/
theorem respects_of_selectsBest {g f : FoundFile} (hg : isModule kmodExts g = true)
    (hf : isModule kmodExts f = true) (hname : g.modname = f.modname)
    (h : SelectsBest kmodExts dirname cwd commands [g, f]) :
    Respects dirname cwd commands g f := by
  have hrun : depmodModulesSearch kmodExts cwd (cfgLoad dirname commands) [g, f] =
      if depmodModuleIsHigherPriority (cfgLoad dirname commands) (g.mod cwd) f.baselen
          f.modname.length f.path then
        fun name => if name = g.modname then some (g.mod cwd) else none
      else fun name => if name = f.modname then some (f.mod cwd)
        else if name = g.modname then some (g.mod cwd) else none := by
    unfold depmodModulesSearch
    rw [List.foldl_cons, List.foldl_cons, List.foldl_nil,
      depmodModulesSearchFile_first hg cwd _ rfl]
    exact depmodModulesSearchFile_next hf cwd _ (if_pos hname.symm)
  refine ⟨?_, ?_⟩
  · intro hkept
    obtain ⟨w, _, _, hreg, hle⟩ := h f (by simp) hf
    rw [hrun, if_pos hkept, if_pos hname.symm] at hreg
    rw [← Option.some.inj hreg] at hle
    exact hle
  · intro hkept
    obtain ⟨w, _, _, hreg, hle⟩ := h g (by simp) hg
    rw [hrun, if_neg (by simp [hkept]), if_pos hname] at hreg
    rw [← Option.some.inj hreg] at hle
    exact hle

variable (kmodExts dirname cwd commands) in
/--
**Selection follows the documentation.** Whatever files of `U` are found, and in whatever
order, a file with the best place is registered for each module: just if no two files of a
module are such that the first hides the second, or that they are misread.
-/
theorem depmodModulesSearch_selects_iff (U : Set FoundFile) :
    (∀ files : List FoundFile, (∀ f ∈ files, f ∈ U) →
      SelectsBest kmodExts dirname cwd commands files) ↔
    ∀ g ∈ U, ∀ f ∈ U, isModule kmodExts g = true → isModule kmodExts f = true →
      g.modname = f.modname →
      ¬ Hidden dirname cwd commands g f ∧ ¬ Misread dirname cwd commands g f := by
  refine ⟨?_, ?_⟩
  · intro h g hg f hf hgmod hfmod hname
    have hpair : ∀ x ∈ [g, f], x ∈ U := by
      intro x hx
      rcases List.mem_cons.mp hx with rfl | hx
      · exact hg
      · rw [List.mem_singleton.mp hx]
        exact hf
    exact respects_iff.mp (respects_of_selectsBest hgmod hfmod hname (h [g, f] hpair))
  · intro h files hfiles
    refine selectsBest_of_selected (selected_search files ?_)
    intro g hg f hf hgmod hfmod hname
    exact respects_iff.mpr (h g (hfiles g hg) f (hfiles f hf) hgmod hfmod hname)

end Select

/-- A file `m.ko` in a directory. -/
def mko (dir : CStr) (h : dir.length + 4 < SIZE_MAX) : FoundFile :=
  ⟨dir, cstr "m.ko", by decide, h⟩

/-- With `search updates built-in`, the file in `updates` is taken. -/
theorem depmodModulesSearch_updates :
    place (cstr "/d") (cstr "/") [.search (cstr "updates"), .search (cstr "built-in")]
        ((mko (cstr "/d/updates") (by decide)).mod (cstr "/")).stem <
      place (cstr "/d") (cstr "/") [.search (cstr "updates"), .search (cstr "built-in")]
        ((mko (cstr "/d/kernel") (by decide)).mod (cstr "/")).stem ∧
    ∀ files : List FoundFile,
      (∀ f ∈ files, f ∈ ({mko (cstr "/d/updates") (by decide), mko (cstr "/d/kernel") (by decide)} :
        Set FoundFile)) →
      SelectsBest [cstr ".ko"] (cstr "/d") (cstr "/")
        [.search (cstr "updates"), .search (cstr "built-in")] files := by
  refine ⟨by decide, (depmodModulesSearch_selects_iff _ _ _ _ _).mpr ?_⟩
  have hplain : ∀ f ∈ ({mko (cstr "/d/updates") (by decide), mko (cstr "/d/kernel") (by decide)} :
      Set FoundFile), pathIsAbsolute f.path = true ∧ ¬ Beside
        (cfgLoad (cstr "/d") [.search (cstr "updates"), .search (cstr "built-in")]) f := by
    intro f hf
    rcases hf with rfl | rfl
    · exact ⟨by decide, fun h => h.1.2 (by decide)⟩
    · exact ⟨by decide, fun h => h.1.2 (by decide)⟩
  intro g hg f hf _ _ _
  have hread := readRight_of_absolute (by decide) (hplain g hg).1 (hplain f hf).1 (hplain g hg).2
    (hplain f hf).2 (cstr "/")
  refine ⟨fun hidden => ?_, fun hmis => hmis.misread hread⟩
  -- there is no place behind the built-in files
  have hlower := hidden.lower
  have hfirst := hidden.builtin_first
  rcases hg with rfl | rfl
  · rcases hf with rfl | rfl
    · exact absurd hlower (by decide)
    · exact absurd hlower (by decide)
  · rcases hf with rfl | rfl
    · exact absurd hfirst (by decide)
    · exact absurd hlower (by decide)

/-- With `search built-in updates/sub updates`, a file in `updates` hides one in `updates/sub`. -/
theorem depmodModulesSearch_hidden :
    depmodModulesSearch [cstr ".ko"] (cstr "/")
        (cfgLoad (cstr "/d") [.search (cstr "built-in"), .search (cstr "updates/sub"),
          .search (cstr "updates")])
        [mko (cstr "/d/updates") (by decide), mko (cstr "/d/updates/sub") (by decide)] (cstr "m") =
      some ((mko (cstr "/d/updates") (by decide)).mod (cstr "/")) ∧
    place (cstr "/d") (cstr "/") [.search (cstr "built-in"), .search (cstr "updates/sub"),
        .search (cstr "updates")] ((mko (cstr "/d/updates/sub") (by decide)).mod (cstr "/")).stem <
      place (cstr "/d") (cstr "/") [.search (cstr "built-in"), .search (cstr "updates/sub"),
        .search (cstr "updates")] ((mko (cstr "/d/updates") (by decide)).mod (cstr "/")).stem := by
  decide

-- `/d-extra` is taken for `/d/extra`, so a file of the last external directory beats a built-in one
example :
    depmodModulesSearch [cstr ".ko"] (cstr "/")
        (cfgLoad (cstr "/d") [.search (cstr "extra"), .search (cstr "built-in"),
          .search (cstr "external"), .external (cstr "/d-extra")])
        [mko (cstr "/d/kernel") (by decide), mko (cstr "/d-extra") (by decide)] (cstr "m") =
      some ((mko (cstr "/d-extra") (by decide)).mod (cstr "/")) := by
  decide

-- the file of the second external directory is registered as `/w/ext2/m.ko` and counts as built-in
example :
    depmodModulesSearch [cstr ".ko"] (cstr "/w")
        (cfgLoad (cstr "/d") [.search (cstr "built-in"), .search (cstr "external"),
          .external (cstr "ext"), .external (cstr "ext2")])
        [mko (cstr "ext2") (by decide), mko (cstr "ext") (by decide)] (cstr "m") =
      some ((mko (cstr "ext2") (by decide)).mod (cstr "/w")) := by
  decide

end Kmod
