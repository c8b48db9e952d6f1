import Kmod.Depmod.ModulesOrder
import Kmod.Depmod.Symbols
import Kmod.Index.Served
import Kmod.Libkmod.Aliases

/-!
# The other files of depmod

Besides the dependencies depmod writes what it knows of aliases, symbols and built-in modules:
a text file of configuration lines, and an index for the same. Here are the functions that
write the indexes, and what goes into each.

The priority of an alias is the position of its module, so that the module that comes first in
`modules.order` comes first in an answer. Built-in modules have no position.
-/

namespace Kmod.Depmod

open Index ModulesOrder Symbols

variable {μ : Type}

/-! ## Aliases -/

/-- What `output_aliases_bin` inserts for an alias of a module: nothing, if a bracket has no
match. -/
def aliasEntry (d : Depmod μ) (mod : μ) (value : CStr) : Option Entry :=
  (aliasNormalize value).map (fun alias_ => ⟨alias_, d.modname mod, UInt32.ofNat (d.idx mod)⟩)

/-- What `output_aliases_bin` inserts. -/
def insertedAliases (d : Depmod μ) (values : μ → List CStr) : List Entry :=
  d.modules.flatMap (fun mod => (values mod).filterMap (aliasEntry d mod))

/-- `output_aliases_bin`: the bytes written. -/
def outputAliasesBin (d : Depmod μ) (values : μ → List CStr) : Except Fault (List UInt8) := do
  let idx ← insertEntries indexCreate (insertedAliases d values)
  .ok (indexWrite idx)

/-! ## Symbols -/

/-- What `output_symbols_bin` inserts for a symbol: nothing, if it is the kernel's. -/
def symbolEntry (d : Depmod μ) (sym : HashEntry (Symbol μ)) : Option Entry :=
  sym.value.owner.map (fun owner =>
    ⟨cstr "symbol:" ++ sym.key, d.modname owner, UInt32.ofNat (d.idx owner)⟩)

/-- `output_symbols_bin`: the bytes written. -/
def outputSymbolsBin (d : Depmod μ) (symbols : List (HashEntry (Symbol μ))) :
    Except Fault (List UInt8) := do
  let idx ← insertEntries indexCreate (symbols.filterMap (symbolEntry d))
  .ok (indexWrite idx)

/-! ## Built-in modules -/

/-- `isalpha`, in the C locale. -/
def isalpha (c : UInt8) : Bool := (65 ≤ c && c ≤ 90) || (97 ≤ c && c ≤ 122)

/-- The loop of `output_builtin_bin`: what it inserts. `modname` is what is in the buffer; a line
without a name leaves it as it is. -/
def builtinLoop : Nat → CStr → CStr → Except Fault (List Entry)
  | 0, _, _ => .error .outOfFuel
  | fuel + 1, rest, modname =>
    match fgets PATH_MAX rest with
    | none => .ok []
    | some (buf, rest) =>
      let line := buf.takeWhile (· ≠ 0)
      if !isalpha (line.headD 0) then builtinLoop fuel rest modname
      else do
        let modname := (pathToModname line).getD modname
        let entries ← builtinLoop fuel rest modname
        .ok (⟨modname, [], 0⟩ :: entries)

/-- `output_builtin_bin`: the bytes written, for the content of `modules.builtin`, if it can be
opened. `junk` is what is in the buffer for names at first. -/
def outputBuiltinBin (junk : CStr) (file : Option CStr) : Except Fault (List UInt8) :=
  match file with
  | none => .ok []
  | some content => do
    let entries ← builtinLoop (content.length + 1) content junk
    let idx ← insertEntries indexCreate entries
    .ok (indexWrite idx)

/-- The names that the lines of `modules.builtin` give. -/
def builtinNames (modname : CStr) : List CStr → List CStr
  | [] => []
  | buf :: lines =>
    let line := buf.takeWhile (· ≠ 0)
    if !isalpha (line.headD 0) then builtinNames modname lines
    else (pathToModname line).getD modname :: builtinNames ((pathToModname line).getD modname) lines

/-- The loop comes to the end of the file, and inserts a name for each line. -/
theorem builtinLoop_eq : ∀ (fuel : Nat) (rest modname : CStr), rest.length < fuel →
    builtinLoop fuel rest modname
      = .ok ((builtinNames modname (ModulesOrder.readLines fuel rest)).map
        (fun name => ⟨name, [], 0⟩)) := by
  intro fuel
  induction fuel with
  | zero => exact fun _ _ h => absurd h (Nat.not_lt_zero _)
  | succ fuel ih =>
    intro rest modname hlen
    unfold builtinLoop ModulesOrder.readLines
    by_cases hne : rest = []
    · subst hne
      rfl
    · obtain ⟨buf, more, hfgets, rfl, hbuf, -⟩ := exists_fgets hne
      have hpos := List.length_pos_iff.mpr hbuf
      rw [List.length_append] at hlen
      have hih := fun modname => ih more modname (by omega)
      rw [hfgets]
      dsimp only [builtinNames]
      split
      · exact hih _
      · rw [hih, ok_bind]
        rfl

/-! ## The priorities -/

section Aliases

variable [DecidableEq μ] {d : Depmod μ}

omit [DecidableEq μ] in
theorem mem_insertedAliases {values : μ → List CStr} {e : Entry} :
    e ∈ insertedAliases d values ↔ ∃ mod ∈ d.modules, ∃ value ∈ values mod,
      aliasNormalize value = some e.key ∧ e.value = d.modname mod ∧
        e.priority = UInt32.ofNat (d.idx mod) := by
  unfold insertedAliases
  rw [List.mem_flatMap]
  refine exists_congr (fun mod => and_congr_right (fun _ => ?_))
  rw [List.mem_filterMap]
  refine exists_congr (fun value => and_congr_right (fun _ => ?_))
  unfold aliasEntry
  rw [Option.map_eq_some_iff]
  refine ⟨?_, ?_⟩
  · rintro ⟨key, hkey, rfl⟩
    exact ⟨hkey, rfl, rfl⟩
  · rintro ⟨hkey, hvalue, hprio⟩
    refine ⟨e.key, hkey, ?_⟩
    rw [← hvalue, ← hprio]

/-- Positions are small, so the priority says which one it is. -/
theorem WellFormed.priority_inj (h : d.WellFormed) {a b : μ} (ha : a ∈ d.modules)
    (hb : b ∈ d.modules) (hab : UInt32.ofNat (d.idx a) = UInt32.ofNat (d.idx b)) : a = b := by
  have hlen : d.modules.length < 65535 := h.count_lt
  have hlt : ∀ {x}, x ∈ d.modules → d.idx x < 65535 := fun hx => (h.idx_lt hx).trans hlen
  refine h.idx_inj ha hb ?_
  have heq := congrArg UInt32.toNat hab
  rw [UInt32.toNat_ofNat', UInt32.toNat_ofNat', Nat.mod_eq_of_lt, Nat.mod_eq_of_lt] at heq
  · exact heq
  · exact (hlt hb).trans (by decide)
  · exact (hlt ha).trans (by decide)

/-- The modules are in the order of their priorities. -/
theorem WellFormed.pairwise_priority (h : d.WellFormed) :
    d.modules.Pairwise (fun a b => UInt32.ofNat (d.idx a) ≤ UInt32.ofNat (d.idx b)) := by
  have hlen : d.modules.length < 65535 := h.count_lt
  rw [List.pairwise_iff_getElem]
  intro i j hi hj hij
  rw [h.idx_eq i _ (List.getElem?_eq_getElem hi), h.idx_eq j _ (List.getElem?_eq_getElem hj),
    UInt32.le_iff_toNat_le, UInt32.toNat_ofNat', UInt32.toNat_ofNat',
    Nat.mod_eq_of_lt (by omega), Nat.mod_eq_of_lt (by omega)]
  omega

/-- The entries for aliases are inserted in the order of their priorities. -/
theorem insertedAliases_ordered (h : d.WellFormed) (values : μ → List CStr) :
    (insertedAliases d values).Pairwise (fun a b => a.priority ≤ b.priority) := by
  unfold insertedAliases
  have hprio : ∀ {mod e}, e ∈ (values mod).filterMap (aliasEntry d mod) →
      e.priority = UInt32.ofNat (d.idx mod) := by
    intro mod e he
    obtain ⟨value, _, hentry⟩ := List.mem_filterMap.mp he
    obtain ⟨key, _, rfl⟩ := Option.map_eq_some_iff.mp hentry
    rfl
  rw [List.pairwise_flatMap]
  refine ⟨fun mod _ => List.pairwise_of_forall_mem_list (fun a ha b hb => ?_),
    h.pairwise_priority.imp (fun {x y} hxy a ha b hb => ?_)⟩
  · rw [hprio ha, hprio hb]
    exact UInt32.le_refl _
  · rw [hprio ha, hprio hb]
    exact hxy

/-- The entries for aliases have one value for each priority. -/
theorem insertedAliases_ranked (h : d.WellFormed) (values : μ → List CStr)
    (fnmatch : CStr → CStr → Bool) (query : CStr) :
    Ranked fnmatch (insertedAliases d values) query := by
  intro e he e' he' _ _ hprio
  obtain ⟨mod, hmod, _, _, _, hvalue, hp⟩ := mem_insertedAliases.mp he
  obtain ⟨mod', hmod', _, _, _, hvalue', hp'⟩ := mem_insertedAliases.mp he'
  rw [hp, hp'] at hprio
  rw [hvalue, hvalue', h.priority_inj hmod hmod' hprio]

/-- The entries for symbols, too. -/
theorem symbolEntries_ranked (h : d.WellFormed) {symbols : List (HashEntry (Symbol μ))}
    (howner : ∀ sym ∈ symbols, ∀ owner, sym.value.owner = some owner → owner ∈ d.modules)
    (fnmatch : CStr → CStr → Bool) (query : CStr) :
    Ranked fnmatch (symbols.filterMap (symbolEntry d)) query := by
  have hentry : ∀ {e}, e ∈ symbols.filterMap (symbolEntry d) → ∃ owner ∈ d.modules,
      e.value = d.modname owner ∧ e.priority = UInt32.ofNat (d.idx owner) := by
    intro e he
    obtain ⟨sym, hsym, heq⟩ := List.mem_filterMap.mp he
    obtain ⟨owner, ho, rfl⟩ := Option.map_eq_some_iff.mp heq
    exact ⟨owner, howner sym hsym owner ho, rfl, rfl⟩
  intro e he e' he' _ _ hprio
  obtain ⟨owner, ho, hvalue, hp⟩ := hentry he
  obtain ⟨owner', ho', hvalue', hp'⟩ := hentry he'
  rw [hp, hp'] at hprio
  rw [hvalue, hvalue', h.priority_inj ho ho' hprio]

end Aliases

end Kmod.Depmod
