import Kmod.Depmod.Output
import Kmod.Depmod.Register

/-!
# The order of the modules

depmod puts the modules it has registered into an array, in the order in which the table
happens to hold them. `modules.order` then says which of them come first. Each line names
a module, and a module that is named gets a key: the first one minus the number of
modules, the next one a number more, and so on. A module that is not named keeps the
positive key it was made with. The array is sorted by the keys.

So a negative key says two things: that the module has been seen, and where it goes. A
second line for it must leave it alone, and there are enough negative numbers because no
module gets a second one. The invariant is `Keyed`, about the lines that have been read
and the modules they named.

The array is only sorted when the whole file has been read. A line without a newline ends
the reading early, and the keys given until then have no effect.
-/

namespace Kmod.ModulesOrder

open Kmod.Register

/-! ## The source -/

def ERANGE : Int := 34

/--
`depmod->modules`, and the fields of the modules that have to do with it. A pointer to a
module is the module with its address.
-/
structure ModArray where
  array : List RegisteredMod
  sortIdx : RegisteredMod → Int
  idx : RegisteredMod → Nat

/--
What `depmod_module_add` leaves: the array is empty, and `sort_idx` is one more than its count.
-/
def ModArray.added : ModArray :=
  ⟨[], fun _ => (([] : List RegisteredMod).length : Int) + 1, fun _ => 0⟩

/--
`depmod_modules_build_array`, for the entries that `hash_iter_next` visits: its return
value and the array. `appends` says whether `array_append` has the memory it needs.
-/
def depmodModulesBuildArray (appends : Nat → Bool) :
    List (HashEntry RegisteredMod) → ModArray → Int × ModArray
  | [], d => if d.array.length ≥ UINT16_MAX then (-ERANGE, d) else (0, d)
  | e :: entries, d =>
    let idx := Function.update d.idx e.value (d.array.length % 2 ^ 16)
    if appends d.array.length = false then (-ENOMEM, { d with idx := idx })
    else depmodModulesBuildArray appends entries { d with array := d.array ++ [e.value], idx := idx }

/-- `qsort` of pointers to modules, with a comparison function. -/
abbrev Qsort := (RegisteredMod → RegisteredMod → Int) → List RegisteredMod → List RegisteredMod

/-- `mod_cmp` -/
def modCmp (sortIdx : RegisteredMod → Int) (a b : RegisteredMod) : Int := sortIdx a - sortIdx b

/-- `fgets`: what it reads and what is left. -/
def fgets (size : Nat) (rest : CStr) : Option (CStr × CStr) :=
  if rest = [] then none
  else
    let n := min (size - 1) ((rest.takeWhile (· ≠ 10)).length + 1)
    some (rest.take n, rest.drop n)

/-- The loop over the lines: whether it got to the end of the file, and `sort_idx` then. -/
def readOrder (reg : Registry) :
    Nat → CStr → Int → (RegisteredMod → Int) → Except Fault (Bool × (RegisteredMod → Int))
  | 0, _, _, _ => .error .outOfFuel
  | fuel + 1, rest, i, sortIdx =>
    match fgets PATH_MAX rest with
    | none => .ok (true, sortIdx)
    | some (buf, rest) =>
      let len := (buf.takeWhile (· ≠ 0)).length
      if len = 0 then readOrder reg fuel rest i sortIdx
      else if buf[len - 1]? ≠ some 10 then .ok (false, sortIdx)
      else
        match reg.modulesByUncrelpath.lookup (buf.take (len - 1)) with
        | none => readOrder reg fuel rest i sortIdx
        | some m =>
          if sortIdx m < 0 then readOrder reg fuel rest i sortIdx
          else readOrder reg fuel rest (i + 1) (Function.update sortIdx m i)

/-- `m->idx = idx` for the modules of the array, from the index `n` on. -/
def renumber : Nat → List RegisteredMod → (RegisteredMod → Nat) → (RegisteredMod → Nat)
  | _, [], idx => idx
  | n, m :: array, idx => renumber (n + 1) array (Function.update idx m (n % 2 ^ 16))

/-- `depmod_modules_sort`, with the content of `modules.order` if it can be opened. -/
def depmodModulesSort (qsort : Qsort) (reg : Registry) (file : Option CStr) (d : ModArray) :
    Except Fault ModArray :=
  match file with
  | none => .ok d
  | some content => do
    let r ← readOrder reg (content.length + 1) content (-(d.array.length : Int)) d.sortIdx
    if r.1 = false then .ok { d with sortIdx := r.2 }
    else if d.array.length > 1 then
      let array := qsort (modCmp r.2) d.array
      .ok ⟨array, r.2, renumber 0 array d.idx⟩
    else .ok { d with sortIdx := r.2 }

/-! ## What the order is -/

/-- The lines that `fgets` reads, in at most `fuel` calls. -/
def readLines : Nat → CStr → List CStr
  | 0, _ => []
  | fuel + 1, rest =>
    match fgets PATH_MAX rest with
    | none => []
    | some (line, rest) => line :: readLines fuel rest

/-- The lines of a file. -/
def fgetsLines (content : CStr) : List CStr := readLines content.length content

/-- Every line ends in a newline. -/
def Complete (lines : List CStr) : Prop := ∀ line ∈ lines, line.getLast? = some 10

instance (lines : List CStr) : Decidable (Complete lines) :=
  inferInstanceAs (Decidable (∀ line ∈ lines, line.getLast? = some 10))

/-- The module's path is a line. -/
def Named (paths : List CStr) (m : RegisteredMod) : Prop := m.uncrelpath ∈ paths.map some

/-- The first line that names a module. -/
def firstLine (paths : List CStr) (m : RegisteredMod) : Nat := (paths.map some).idxOf m.uncrelpath

/-- A module that is registered. -/
def Registered (reg : Registry) (m : RegisteredMod) : Prop :=
  reg.modulesByName.lookup m.mod.modname = some m

/-- The index of a module is where it is in the array. -/
def Positions (array : List RegisteredMod) (idx : RegisteredMod → Nat) : Prop :=
  ∀ k m, array[k]? = some m → idx m = k

/-- The array has the registered modules, those first that are named, in the order of the lines. -/
structure Ordered (reg : Registry) (paths : List CStr) (d : ModArray) : Prop where
  nodup : d.array.Nodup
  mem_iff : ∀ m, m ∈ d.array ↔ Registered reg m
  order : d.array.Pairwise (fun a b =>
    Named paths b → Named paths a ∧ firstLine paths a < firstLine paths b)
  idx : Positions d.array d.idx

/-- `qsort` gives some permutation that is sorted. -/
structure IsQsort (qsort : Qsort) : Prop where
  perm : ∀ sortIdx array, (qsort (modCmp sortIdx) array).Perm array
  sorted : ∀ sortIdx array,
    (qsort (modCmp sortIdx) array).Pairwise (fun a b => modCmp sortIdx a b ≤ 0)

/-! ## Lines -/

/--
What is left of a file is not empty: `fgets` reads a
line of it, with a newline at its end only.
-/
theorem exists_fgets {rest : CStr} (hne : rest ≠ []) :
    ∃ line more, fgets PATH_MAX rest = some (line, more) ∧ rest = line ++ more ∧ line ≠ [] ∧
      10 ∉ line.dropLast := by
  refine ⟨_, _, if_neg hne, (List.take_append_drop _ _).symm, ?_, ?_⟩
  · intro hnil
    rw [List.take_eq_nil_iff] at hnil
    rcases hnil with hnil | hnil
    · have hmax : PATH_MAX = 4096 := rfl
      omega
    · exact hne hnil
  · -- without its last character, the line is a part of what precedes the first newline
    intro hmem
    rw [List.dropLast_eq_take, List.take_take] at hmem
    have hshort : ∀ n : Nat, min ((rest.take n).length - 1) n ≤ n - 1 := by
      intro n
      rw [List.length_take]
      omega
    have hle := (hshort (min (PATH_MAX - 1) ((rest.takeWhile (· ≠ 10)).length + 1))).trans
      (show _ ≤ (rest.takeWhile (· ≠ 10)).length by omega)
    have hsub := List.take_subset_take_left rest hle hmem
    have htake : rest.take (rest.takeWhile (· ≠ 10)).length = rest.takeWhile (· ≠ 10) :=
      (List.prefix_iff_eq_take.mp (List.takeWhile_prefix _)).symm
    rw [htake] at hsub
    have hne10 := List.mem_takeWhile_imp hsub
    simp at hne10

/--
**The lines are those of the text**: put together they are the file, and no path has a newline.
-/
theorem readLines_flatten (fuel : Nat) :
    ∀ rest : CStr, rest.length ≤ fuel → (readLines fuel rest).flatten = rest ∧
      ∀ line ∈ readLines fuel rest, 10 ∉ line.dropLast := by
  induction fuel with
  | zero =>
    intro rest hlen
    rw [List.eq_nil_of_length_eq_zero (Nat.le_zero.mp hlen)]
    exact ⟨rfl, by simp [readLines]⟩
  | succ fuel ih =>
    intro rest hlen
    by_cases hne : rest = []
    · subst hne
      exact ⟨rfl, by simp [readLines, fgets]⟩
    · obtain ⟨line, more, hfgets, rfl, hline, hpath⟩ := exists_fgets hne
      have hpos := List.length_pos_iff.mpr hline
      rw [List.length_append] at hlen
      obtain ⟨hflat, hpaths⟩ := ih more (by omega)
      have hlines : readLines (fuel + 1) (line ++ more) = line :: readLines fuel more := by
        rw [readLines, hfgets]
      rw [hlines, List.flatten_cons, hflat]
      exact ⟨rfl, List.forall_mem_cons.mpr ⟨hpath, hpaths⟩⟩

/-! ## The array -/

theorem positions_concat {array : List RegisteredMod} {idx : RegisteredMod → Nat}
    {m : RegisteredMod}
    (h : Positions array idx) (hm : m ∉ array) (hlen : array.length < 2 ^ 16) :
    Positions (array ++ [m]) (Function.update idx m (array.length % 2 ^ 16)) := by
  intro k x hx
  rcases Nat.lt_or_ge k array.length with hk | hk
  · rw [List.getElem?_append_left hk] at hx
    have hne : x ≠ m := by
      rintro rfl
      exact hm (List.mem_of_getElem? hx)
    rw [Function.update_of_ne hne, h k x hx]
  · rw [List.getElem?_append_right hk, List.getElem?_singleton] at hx
    split at hx
    · cases hx
      rw [Function.update_self, Nat.mod_eq_of_lt hlen]
      omega
    · cases hx

/-- What building the array gives, if it returns 0. -/
theorem depmodModulesBuildArray_ok {appends : Nat → Bool}
    (entries : List (HashEntry RegisteredMod)) :
    ∀ d d' : ModArray, depmodModulesBuildArray appends entries d = (0, d') →
      d'.array = d.array ++ entries.map HashEntry.value ∧ d'.array.length < UINT16_MAX ∧
        d'.sortIdx = d.sortIdx ∧
        (d'.array.Nodup → Positions d.array d.idx → Positions d'.array d'.idx) := by
  induction entries with
  | nil =>
    intro d d' h
    rw [depmodModulesBuildArray] at h
    split at h
    · cases h
    · next hcount =>
      cases h
      exact ⟨(List.append_nil _).symm, Nat.lt_of_not_le hcount, rfl, fun _ h => h⟩
  | cons e entries ih =>
    intro d d' h
    rw [depmodModulesBuildArray] at h
    split at h
    · cases h
    · obtain ⟨harray, hcount, hsort, hpos⟩ := ih _ d' h
      rw [List.append_assoc] at harray
      refine ⟨harray, hcount, hsort, fun hnodup hidx => hpos hnodup ?_⟩
      have hlen := congrArg List.length harray
      rw [List.length_append] at hlen
      have hmax : UINT16_MAX < 2 ^ 16 := by decide
      have hfresh : e.value ∉ d.array := by
        rw [harray, List.nodup_append] at hnodup
        intro hmem
        exact hnodup.2.2 _ hmem _ (by simp) rfl
      exact positions_concat hidx hfresh (by omega)

/-- The loop that numbers the array anew. -/
theorem positions_renumber (array : List RegisteredMod) :
    ∀ (done : List RegisteredMod) (idx : RegisteredMod → Nat), (done ++ array).Nodup →
      (done ++ array).length < 2 ^ 16 → Positions done idx →
      Positions (done ++ array) (renumber done.length array idx) := by
  induction array with
  | nil =>
    intro done idx _ _ h
    rwa [List.append_nil]
  | cons m array ih =>
    intro done idx hnodup hlen h
    have hlen' := hlen
    rw [List.length_append, List.length_cons] at hlen'
    have hfresh : m ∉ done := fun hmem =>
      (List.nodup_append.mp hnodup).2.2 m hmem m List.mem_cons_self rfl
    have hnext := ih (done ++ [m]) _ (by rwa [List.append_assoc]) (by rwa [List.append_assoc])
      (positions_concat h hfresh (by omega))
    rw [List.append_assoc, List.length_append] at hnext
    exact hnext

/-! ## Reading the lines -/

section Lines

variable {reg : Registry} {count : Nat} {seen : List CStr} {mods : List RegisteredMod} {i : Int}
  {sortIdx : RegisteredMod → Int}

/-- The state of the loop: the paths it has seen, and the modules they named. -/
structure Keyed (reg : Registry) (count : Nat) (seen : List CStr)
    (mods : List RegisteredMod) (i : Int)
    (sortIdx : RegisteredMod → Int) : Prop where
  nodup : mods.Nodup
  mem_iff : ∀ m, m ∈ mods ↔ ∃ u ∈ seen, reg.modulesByUncrelpath.lookup u = some m
  order : mods.Pairwise (fun a b => firstLine seen a < firstLine seen b)
  next : i = -(count : Int) + mods.length
  key : ∀ m, sortIdx m = if m ∈ mods then -(count : Int) + mods.idxOf m else 1

theorem keyed_nil (reg : Registry) (count : Nat) :
    Keyed reg count [] [] (-(count : Int)) ModArray.added.sortIdx where
  nodup := .nil
  mem_iff := by simp
  order := .nil
  next := by simp
  key := fun m => rfl

theorem firstLine_append (l : CStr) {m : RegisteredMod} (h : Named seen m) :
    firstLine (seen ++ [l]) m = firstLine seen m := by
  unfold firstLine
  rw [List.map_append]
  exact List.idxOf_append_of_mem h

/-- A named module is registered under its path. -/
theorem Keyed.isNamed (h : Keyed reg count seen mods i sortIdx) (hreg : Consistent reg)
    {m : RegisteredMod} (hm : m ∈ mods) : Named seen m := by
  obtain ⟨u, hu, hlookup⟩ := (h.mem_iff m).mp hm
  unfold Named
  rw [((hreg.uncrelpath_iff u m).mp hlookup).1]
  exact List.mem_map_of_mem hu

theorem Keyed.order_append (h : Keyed reg count seen mods i sortIdx) (hreg : Consistent reg)
    (l : CStr) :
    mods.Pairwise (fun a b => firstLine (seen ++ [l]) a < firstLine (seen ++ [l]) b) := by
  refine h.order.imp_of_mem (fun ha hb hab => ?_)
  rw [firstLine_append l (h.isNamed hreg ha), firstLine_append l (h.isNamed hreg hb)]
  exact hab

/-- A line that names no module, or one that was named before, takes no position. -/
theorem Keyed.skip (h : Keyed reg count seen mods i sortIdx) (hreg : Consistent reg) {l : CStr}
    (hl : ∀ m, reg.modulesByUncrelpath.lookup l = some m → m ∈ mods) :
    Keyed reg count (seen ++ [l]) mods i sortIdx where
  nodup := h.nodup
  mem_iff := by
    intro m
    refine ⟨fun hm => ?_, ?_⟩
    · obtain ⟨u, hu, hlookup⟩ := (h.mem_iff m).mp hm
      exact ⟨u, List.mem_append_left _ hu, hlookup⟩
    · rintro ⟨u, hu, hlookup⟩
      rcases List.mem_append.mp hu with hu | hu
      · exact (h.mem_iff m).mpr ⟨u, hu, hlookup⟩
      · rw [List.mem_singleton.mp hu] at hlookup
        exact hl m hlookup
  order := h.order_append hreg l
  next := h.next
  key := h.key

/-- A line that names a module for the first time gives it the next key. -/
theorem Keyed.name (h : Keyed reg count seen mods i sortIdx) (hreg : Consistent reg) {l : CStr}
    {m : RegisteredMod} (hlookup : reg.modulesByUncrelpath.lookup l = some m) (hnew : m ∉ mods) :
    Keyed reg count (seen ++ [l]) (mods ++ [m]) (i + 1) (Function.update sortIdx m i) where
  nodup := by
    rw [List.nodup_append]
    refine ⟨h.nodup, List.nodup_singleton m, ?_⟩
    intro a ha b hb
    rw [List.mem_singleton.mp hb]
    rintro rfl
    exact hnew ha
  mem_iff := by
    intro x
    rw [List.mem_append, List.mem_singleton, h.mem_iff x]
    constructor
    · rintro (⟨u, hu, hx⟩ | rfl)
      · exact ⟨u, List.mem_append_left _ hu, hx⟩
      · exact ⟨l, by simp, hlookup⟩
    · rintro ⟨u, hu, hx⟩
      rcases List.mem_append.mp hu with hu | hu
      · exact .inl ⟨u, hu, hx⟩
      · rw [List.mem_singleton.mp hu, hlookup] at hx
        exact .inr (Option.some.inj hx).symm
  order := by
    have hpath := ((hreg.uncrelpath_iff l m).mp hlookup).1
    -- the path is new, so its first line is this one
    have hfirst : firstLine (seen ++ [l]) m = seen.length := by
      have hnot : some l ∉ seen.map some := by
        intro hmem
        obtain ⟨u, hu, hul⟩ := List.mem_map.mp hmem
        cases hul
        exact hnew ((h.mem_iff m).mpr ⟨l, hu, hlookup⟩)
      unfold firstLine
      rw [hpath, List.map_append, List.idxOf_append_of_notMem hnot, List.length_map]
      simp
    rw [List.pairwise_append]
    refine ⟨h.order_append hreg l, List.pairwise_singleton _ _, ?_⟩
    intro a ha b hb
    have hlt : firstLine seen a < (seen.map some).length :=
      List.idxOf_lt_length_of_mem (h.isNamed hreg ha)
    rw [List.length_map] at hlt
    rwa [List.mem_singleton.mp hb, hfirst, firstLine_append l (h.isNamed hreg ha)]
  next := by
    rw [h.next, List.length_append, List.length_singleton]
    omega
  key := by
    intro x
    by_cases hx : x = m
    · subst hx
      rw [Function.update_self, if_pos (by simp), List.idxOf_append_of_notMem hnew, h.next]
      simp
    · rw [Function.update_of_ne hx, h.key x]
      by_cases hmem : x ∈ mods
      · rw [if_pos hmem, if_pos (List.mem_append_left _ hmem), List.idxOf_append_of_mem hmem]
      · rw [if_neg hmem, if_neg (by simp [hmem, hx])]

/-- A key is negative just if the module has been named. -/
theorem Keyed.neg_iff (h : Keyed reg count seen mods i sortIdx) (hle : mods.length ≤ count)
    (m : RegisteredMod) : sortIdx m < 0 ↔ m ∈ mods := by
  rw [h.key m]
  by_cases hm : m ∈ mods
  · have hlt := List.idxOf_lt_length_of_mem hm
    rw [if_pos hm]
    exact iff_of_true (by omega) hm
  · rw [if_neg hm]
    exact iff_of_false (by decide) hm

/-- There are no more modules than the array has. -/
def Bounds (reg : Registry) (count : Nat) : Prop :=
  ∀ mods : List RegisteredMod, mods.Nodup → (∀ m ∈ mods, Registered reg m) → mods.length ≤ count

theorem Keyed.length_le (h : Keyed reg count seen mods i sortIdx) (hreg : Consistent reg)
    (hbounds : Bounds reg count) : mods.length ≤ count := by
  refine hbounds mods h.nodup (fun m hm => ?_)
  obtain ⟨u, -, hlookup⟩ := (h.mem_iff m).mp hm
  exact ((hreg.uncrelpath_iff u m).mp hlookup).2

/-- What a whole line does to the next key and the keys. -/
def assignKey (reg : Registry) (path : CStr) (i : Int) (sortIdx : RegisteredMod → Int) :
    Int × (RegisteredMod → Int) :=
  match reg.modulesByUncrelpath.lookup path with
  | none => (i, sortIdx)
  | some m => if sortIdx m < 0 then (i, sortIdx) else (i + 1, Function.update sortIdx m i)

theorem Keyed.assign (h : Keyed reg count seen mods i sortIdx) (hreg : Consistent reg)
    (hbounds : Bounds reg count) (path : CStr) :
    ∃ mods', Keyed reg count (seen ++ [path]) mods' (assignKey reg path i sortIdx).1
      (assignKey reg path i sortIdx).2 := by
  unfold assignKey
  cases hlookup : reg.modulesByUncrelpath.lookup path with
  | none => exact ⟨mods, h.skip hreg (fun m hm => by rw [hlookup] at hm; cases hm)⟩
  | some m =>
    have hneg := h.neg_iff (h.length_le hreg hbounds) m
    dsimp only
    by_cases hm : m ∈ mods
    · rw [if_pos (hneg.mpr hm)]
      refine ⟨mods, h.skip hreg (fun x hx => ?_)⟩
      rw [hlookup] at hx
      exact Option.some.inj hx ▸ hm
    · rw [if_neg (mt hneg.mp hm)]
      exact ⟨mods ++ [m], h.name hreg hlookup hm⟩

section Line

variable {rest line more : CStr}

theorem strlen_line (hnul : 0 ∉ line) : (line.takeWhile (· ≠ 0)).length = line.length := by
  rw [List.takeWhile_eq_self_iff.mpr]
  intro c hc
  simp only [ne_eq, decide_eq_true_eq]
  rintro rfl
  exact hnul hc

/-- A round with a whole line. -/
theorem readOrder_line (hfgets : fgets PATH_MAX rest = some (line, more)) (hnul : 0 ∉ line)
    (hend : line.getLast? = some 10) (fuel : Nat) (i : Int) (sortIdx : RegisteredMod → Int) :
    readOrder reg (fuel + 1) rest i sortIdx = readOrder reg fuel more
      (assignKey reg line.dropLast i sortIdx).1 (assignKey reg line.dropLast i sortIdx).2 := by
  have hpos : 0 < line.length := by
    rw [List.length_pos_iff]
    rintro rfl
    cases hend
  rw [readOrder, hfgets]
  dsimp only
  rw [strlen_line hnul, if_neg (by omega), ← List.getLast?_eq_getElem?, if_neg (not_not.mpr hend),
    ← List.dropLast_eq_take]
  unfold assignKey
  cases reg.modulesByUncrelpath.lookup line.dropLast with
  | none => rfl
  | some m =>
    dsimp only
    split <;> rfl

/-- A round with a line that is cut off. -/
theorem readOrder_cut (hfgets : fgets PATH_MAX rest = some (line, more)) (hnul : 0 ∉ line)
    (hne : line ≠ []) (hend : line.getLast? ≠ some 10) (fuel : Nat) (i : Int)
    (sortIdx : RegisteredMod → Int) :
    readOrder reg (fuel + 1) rest i sortIdx = .ok (false, sortIdx) := by
  have hpos := List.length_pos_iff.mpr hne
  rw [readOrder, hfgets]
  dsimp only
  rw [strlen_line hnul, if_neg (by omega), ← List.getLast?_eq_getElem?, if_pos hend]

end Line

/--
**The loop over the lines keeps the invariant**, and
tells whether all of them end in a newline.
-/
theorem readOrder_ok (hreg : Consistent reg) (hbounds : Bounds reg count) (fuel : Nat) :
    ∀ (rest : CStr) (seen : List CStr) (mods : List RegisteredMod) (i : Int)
      (sortIdx : RegisteredMod → Int), rest.length ≤ fuel → 0 ∉ rest →
      Keyed reg count seen mods i sortIdx →
      ∃ sortIdx', readOrder reg (fuel + 1) rest i sortIdx =
          .ok (decide (Complete (readLines fuel rest)), sortIdx') ∧
        (Complete (readLines fuel rest) → ∃ mods' i',
          Keyed reg count (seen ++ (readLines fuel rest).map List.dropLast) mods' i' sortIdx') := by
  induction fuel with
  | zero =>
    intro rest seen mods i sortIdx hlen _ h
    rw [List.eq_nil_of_length_eq_zero (Nat.le_zero.mp hlen)]
    refine ⟨sortIdx, rfl, fun _ => ⟨mods, i, ?_⟩⟩
    rwa [readLines, List.map_nil, List.append_nil]
  | succ fuel ih =>
    intro rest seen mods i sortIdx hlen hnul h
    by_cases hne : rest = []
    · subst hne
      refine ⟨sortIdx, rfl, fun _ => ⟨mods, i, ?_⟩⟩
      rwa [show readLines (fuel + 1) [] = [] from rfl, List.map_nil, List.append_nil]
    · obtain ⟨line, more, hfgets, rfl, hline, -⟩ := exists_fgets hne
      have hpos := List.length_pos_iff.mpr hline
      rw [List.length_append] at hlen
      rw [List.mem_append, not_or] at hnul
      have hlines : readLines (fuel + 1) (line ++ more) = line :: readLines fuel more := by
        rw [readLines, hfgets]
      rw [hlines]
      by_cases hend : line.getLast? = some 10
      · have hall : Complete (line :: readLines fuel more) ↔ Complete (readLines fuel more) := by
          simp [Complete, hend]
        obtain ⟨mods', hkeyed⟩ := h.assign hreg hbounds line.dropLast
        obtain ⟨sortIdx', hread, hcomplete⟩ := ih more _ mods' _ _ (by omega) hnul.2 hkeyed
        rw [readOrder_line hfgets hnul.1 hend, hread, List.map_cons]
        simp only [hall]
        refine ⟨sortIdx', rfl, fun hmore => ?_⟩
        rw [List.append_assoc, List.singleton_append] at hcomplete
        exact hcomplete hmore
      · have hnot : ¬ Complete (line :: readLines fuel more) :=
          fun hall => hend (hall line List.mem_cons_self)
        rw [readOrder_cut hfgets hnul.1 hline hend, decide_eq_false hnot]
        exact ⟨sortIdx, rfl, fun hall => absurd hall hnot⟩

end Lines

/-! ## The sorted array -/

section Sorted

variable {reg : Registry} {d : ModArray} {entries : List (HashEntry RegisteredMod)}

/-- The array before it is sorted: the registered modules, each at its index. -/
structure Unsorted (reg : Registry) (d : ModArray) : Prop where
  nodup : d.array.Nodup
  mem_iff : ∀ m, m ∈ d.array ↔ Registered reg m
  count : d.array.length < UINT16_MAX
  sortIdx : d.sortIdx = ModArray.added.sortIdx
  idx : Positions d.array d.idx

theorem unsorted_of_build {appends : Nat → Bool} (hreg : Consistent reg)
    (hiter : ListsMap reg.modulesByName entries)
    (hbuild : depmodModulesBuildArray appends entries .added = (0, d)) : Unsorted reg d := by
  obtain ⟨harray, hcount, hsort, hpos⟩ := depmodModulesBuildArray_ok entries _ _ hbuild
  have harray : d.array = entries.map HashEntry.value := harray
  have hkey : ∀ e ∈ entries, e.value.mod.modname = e.key := by
    intro e he
    exact hreg.named e.key e.value ((hiter.mem_iff e.key e.value).mp he)
  have hnodup : d.array.Nodup := by
    refine List.Nodup.of_map (fun m => m.mod.modname) ?_
    rw [harray, List.map_map]
    have hkeys : entries.map ((fun m => m.mod.modname) ∘ HashEntry.value) =
        entries.map HashEntry.key :=
      List.map_congr_left hkey
    rw [hkeys]
    exact hiter.nodup
  have hidx : Positions ModArray.added.array ModArray.added.idx := by
    intro k m h
    cases h
  refine ⟨hnodup, fun m => ?_, hcount, hsort, hpos hnodup hidx⟩
  rw [harray, List.mem_map]
  constructor
  · rintro ⟨e, he, rfl⟩
    unfold Registered
    rw [hkey e he]
    exact (hiter.mem_iff e.key e.value).mp he
  · intro h
    exact ⟨⟨m.mod.modname, m⟩, (hiter.mem_iff _ _).mpr h, rfl⟩

theorem Unsorted.bounds (h : Unsorted reg d) : Bounds reg d.array.length := by
  intro mods hnodup hmods
  have hsub : mods ⊆ d.array := fun m hm => (h.mem_iff m).mpr (hmods m hm)
  exact (hnodup.subperm hsub).length_le

/-- Of registered modules, those with a key have a line. -/
theorem Keyed.mem_iff_named {count : Nat} {paths : List CStr} {mods : List RegisteredMod} {i : Int}
    {sortIdx : RegisteredMod → Int} (h : Keyed reg count paths mods i sortIdx)
    (hreg : Consistent reg)
    {m : RegisteredMod} (hm : Registered reg m) : m ∈ mods ↔ Named paths m := by
  refine ⟨h.isNamed hreg, fun hnamed => ?_⟩
  obtain ⟨u, hu, hpath⟩ := List.mem_map.mp hnamed
  exact (h.mem_iff m).mpr ⟨u, hu, (hreg.uncrelpath_iff u m).mpr ⟨hpath.symm, hm⟩⟩

theorem Keyed.firstLine_lt {count : Nat} {paths : List CStr} {mods : List RegisteredMod} {i : Int}
    {sortIdx : RegisteredMod → Int} (h : Keyed reg count paths mods i sortIdx) {a b : RegisteredMod}
    (ha : a ∈ mods) (hb : b ∈ mods) (hlt : mods.idxOf a < mods.idxOf b) :
    firstLine paths a < firstLine paths b := by
  have horder := List.pairwise_iff_getElem.mp h.order _ _ (List.idxOf_lt_length_of_mem ha)
    (List.idxOf_lt_length_of_mem hb) hlt
  rwa [List.getElem_idxOf, List.getElem_idxOf] at horder

/-- Sorting by the keys puts the modules in order. -/
theorem Keyed.order_of_sorted {paths : List CStr} {mods array : List RegisteredMod} {i : Int}
    {sortIdx : RegisteredMod → Int} (h : Keyed reg array.length paths mods i sortIdx)
    (hreg : Consistent reg) (hle : mods.length ≤ array.length) (hnodup : array.Nodup)
    (hmem : ∀ m ∈ array, Registered reg m)
    (hsorted : array.Pairwise (fun a b => modCmp sortIdx a b ≤ 0)) :
    array.Pairwise (fun a b =>
      Named paths b → Named paths a ∧ firstLine paths a < firstLine paths b) := by
  refine (hsorted.and hnodup).imp_of_mem (fun {a b} ha hb hab hnamed => ?_)
  obtain ⟨hcmp, hne⟩ := hab
  unfold modCmp at hcmp
  have hb' : b ∈ mods := (h.mem_iff_named hreg (hmem b hb)).mpr hnamed
  have hneg := (h.neg_iff hle b).mpr hb'
  have ha' : a ∈ mods := (h.neg_iff hle a).mp (by omega)
  refine ⟨h.isNamed hreg ha', h.firstLine_lt ha' hb' ?_⟩
  rw [h.key a, h.key b, if_pos ha', if_pos hb'] at hcmp
  have hplace : mods.idxOf a ≠ mods.idxOf b := by
    intro heq
    exact hne ((List.idxOf_inj ha').mp heq)
  omega

/-- What `depmod_modules_sort` does to the array, for tables that fit together. -/
theorem depmodModulesSort_ok (hreg : Consistent reg) (h : Unsorted reg d)
    {qsort : Qsort} (hqsort : IsQsort qsort) {content : CStr} (hnul : 0 ∉ content) :
    ∃ d', depmodModulesSort qsort reg (some content) d = .ok d' ∧
      (Complete (fgetsLines content) → Ordered reg ((fgetsLines content).map List.dropLast) d') ∧
      (¬ Complete (fgetsLines content) → d'.array = d.array ∧ d'.idx = d.idx) := by
  obtain ⟨sortIdx, hread, hkeyed⟩ := readOrder_ok hreg h.bounds content.length content [] [] _ _
    (Nat.le_refl _) hnul (keyed_nil reg d.array.length)
  rw [← h.sortIdx] at hread
  unfold depmodModulesSort
  dsimp only
  rw [hread, ok_bind]
  change Complete (fgetsLines content) → _ at hkeyed
  rw [show readLines content.length content = fgetsLines content from rfl]
  by_cases hall : Complete (fgetsLines content)
  · obtain ⟨mods, i, hkeyed⟩ := hkeyed hall
    have hle := hkeyed.length_le hreg h.bounds
    rw [decide_eq_true hall, if_neg (show ¬ true = false by decide)]
    by_cases hmany : d.array.length > 1
    · rw [if_pos hmany]
      refine ⟨_, rfl, fun _ => ?_, fun hnot => absurd hall hnot⟩
      have hperm := hqsort.perm sortIdx d.array
      have hnodup := hperm.nodup_iff.mpr h.nodup
      have hmax : UINT16_MAX < 2 ^ 16 := by decide
      have hcount := h.count
      rw [← hperm.length_eq] at hkeyed hle hcount
      have hmem : ∀ m, m ∈ qsort (modCmp sortIdx) d.array ↔ Registered reg m :=
        fun m => hperm.mem_iff.trans (h.mem_iff m)
      have hpos := positions_renumber (qsort (modCmp sortIdx) d.array) [] d.idx hnodup
        (by rw [List.nil_append]; omega) (by intro k m hk; cases hk)
      exact ⟨hnodup, hmem, hkeyed.order_of_sorted hreg hle hnodup (fun m hm => (hmem m).mp hm)
        (hqsort.sorted sortIdx d.array), hpos⟩
    · rw [if_neg hmany]
      refine ⟨_, rfl, fun _ => ⟨h.nodup, h.mem_iff, ?_, h.idx⟩, fun hnot => absurd hall hnot⟩
      have hshort : d.array = [] ∨ ∃ m, d.array = [m] := by
        rcases hd : d.array with _ | ⟨m, _ | ⟨m', array⟩⟩
        · exact .inl rfl
        · exact .inr ⟨m, rfl⟩
        · rw [hd] at hmany
          simp at hmany
      rcases hshort with hd | ⟨m, hd⟩
      · rw [hd]
        exact .nil
      · rw [hd]
        exact List.pairwise_singleton _ _
  · rw [decide_eq_false hall, if_pos rfl]
    exact ⟨_, rfl, fun h => absurd h hall, fun _ => ⟨rfl, rfl⟩⟩

/--
**`modules.order` decides the order of the modules.** Of all files that were registered, in
the order in which the table holds them: if every line ends in a newline, the array has
the registered modules, in front those that are named, in the order of the first lines
that name them, and each module has its index. Otherwise the array stays as it was built.
-/
theorem depmodModulesSort_order (kmodExts : List CStr) (cfg : Cfg) (calls : List Call)
    (hiter : ListsMap (searchFiles kmodExts cfg calls).modulesByName entries) {appends : Nat → Bool}
    (hbuild : depmodModulesBuildArray appends entries .added = (0, d))
    {qsort : Qsort} (hqsort : IsQsort qsort) {content : CStr} (hnul : 0 ∉ content) :
    ∃ d', depmodModulesSort qsort (searchFiles kmodExts cfg calls) (some content) d = .ok d' ∧
      (Complete (fgetsLines content) →
        Ordered (searchFiles kmodExts cfg calls) ((fgetsLines content).map List.dropLast) d') ∧
      (¬ Complete (fgetsLines content) → d'.array = d.array ∧ d'.idx = d.idx) :=
  have hreg := (inv_searchFiles kmodExts cfg calls).toConsistent
  depmodModulesSort_ok hreg (unsorted_of_build hreg hiter hbuild) hqsort hnul

end Sorted

/-- `qsort` by insertion. -/
def insertionQsort : Qsort := fun cmp array => Depmod.arraySort array cmp

theorem isQsort_insertionQsort : IsQsort insertionQsort where
  perm := fun sortIdx array => Depmod.arraySort_perm array sortIdx
  sorted := by
    intro sortIdx array
    refine (Depmod.arraySort_sorted array sortIdx).imp (fun {a b} hab => ?_)
    unfold modCmp
    omega

/-- Nothing fails. -/
def nothingFails : Attempt :=
  ⟨cstr "/", fun _ => 0, true, true, true, true, true, true, true, true⟩

def orderCalls : List Call :=
  [⟨⟨cstr "/m/kernel", cstr "a.ko", by decide, by decide⟩, nothingFails⟩,
    ⟨⟨cstr "/m/kernel", cstr "b.ko", by decide, by decide⟩, nothingFails⟩,
    ⟨⟨cstr "/m/kernel", cstr "c.ko", by decide, by decide⟩, nothingFails⟩]

def orderEntries : List (HashEntry RegisteredMod) :=
  [⟨cstr "b", newMod updatesCfg 1 (cstr "b") (cstr "/m/kernel/b.ko")⟩,
    ⟨cstr "a", newMod updatesCfg 0 (cstr "a") (cstr "/m/kernel/a.ko")⟩,
    ⟨cstr "c", newMod updatesCfg 2 (cstr "c") (cstr "/m/kernel/c.ko")⟩]

/-- `c` is named first and again at the end, a module that is not there is named in between. -/
def orderFile : CStr := cstr "kernel/c.ko\nkernel/x.ko\nkernel/a.ko\nkernel/c.ko\n"

theorem depmodModulesSort_order_named :
    ∃ d', depmodModulesSort insertionQsort (searchFiles koOnly updatesCfg orderCalls)
      (some orderFile)
        (depmodModulesBuildArray (fun _ => true) orderEntries .added).2 = .ok d' ∧
      Ordered (searchFiles koOnly updatesCfg orderCalls)
        [cstr "kernel/c.ko", cstr "kernel/x.ko", cstr "kernel/a.ko", cstr "kernel/c.ko"] d' := by
  have hiter : ListsMap (searchFiles koOnly updatesCfg orderCalls).modulesByName orderEntries :=
    .of_card (by decide) (by decide +kernel) (by decide +kernel)
  have hbuild : depmodModulesBuildArray (fun _ => true) orderEntries .added =
      (0, (depmodModulesBuildArray (fun _ => true) orderEntries .added).2) :=
    Prod.ext (by decide) rfl
  obtain ⟨d', hsort, hordered, -⟩ :=
    depmodModulesSort_order koOnly updatesCfg orderCalls hiter hbuild
    isQsort_insertionQsort (show 0 ∉ orderFile by decide)
  have hlines : (fgetsLines orderFile).map List.dropLast =
      [cstr "kernel/c.ko", cstr "kernel/x.ko", cstr "kernel/a.ko", cstr "kernel/c.ko"] := by
    decide +kernel
  rw [hlines] at hordered
  exact ⟨d', hsort, hordered (by decide +kernel)⟩

end Kmod.ModulesOrder
