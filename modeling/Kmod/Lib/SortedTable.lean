import Mathlib.Data.List.Nodup

/-!
# Tables sorted by a comparison function

C code keeps a table sorted with a function `cmp` whose sign says how two keys are
ordered. An element is put in its place by a scan for the first key that is not
smaller, and found again by bisection. Both rest on the table being strictly sorted,
and all that is used of `cmp` is that it behaves like a linear order (`Comparison`).

The results are stated on the table written as a concatenation, `before ++ rest`, which
is how the callers change it.
-/

namespace Kmod.SortedTable

variable {K α : Type*}

/-- The sign of `cmp` is a linear order. -/
structure Comparison (cmp : K → K → Int) : Prop where
  zero_iff : ∀ a b, cmp a b = 0 ↔ a = b
  neg_iff : ∀ a b, cmp a b < 0 ↔ 0 < cmp b a
  trans : ∀ a b c, cmp a b < 0 → cmp b c < 0 → cmp a c < 0

variable {cmp : K → K → Int} (hcmp : Comparison cmp)

section Order

include hcmp

theorem Comparison.irrefl (a : K) : ¬ cmp a a < 0 := by
  rw [(hcmp.zero_iff a a).mpr rfl]
  decide

theorem Comparison.asymm {a b : K} (h : cmp a b < 0) : ¬ cmp b a < 0 :=
  fun h' => hcmp.irrefl a (hcmp.trans _ _ _ h h')

theorem Comparison.ne {a b : K} (h : cmp a b < 0) : a ≠ b := by
  rintro rfl
  exact hcmp.irrefl a h

/-- What is neither equal nor smaller is larger. -/
theorem Comparison.lt_of_not {a b : K} (hne : cmp a b ≠ 0) (hlt : ¬ cmp a b < 0) : cmp b a < 0 := by
  rw [hcmp.neg_iff]
  omega

end Order

variable (cmp) (key : α → K)

/-- The keys are strictly increasing. -/
def Sorted (l : List α) : Prop := l.Pairwise (fun a b => cmp (key a) (key b) < 0)

/-- The place of the first key that is not smaller than `k`, and whether that key is `k`. -/
def scan (k : K) : List α → Nat × Bool
  | [] => (0, false)
  | a :: l =>
    if cmp k (key a) = 0 then (0, true)
    else if cmp k (key a) < 0 then (0, false)
    else ((scan k l).1 + 1, (scan k l).2)

/-- Bisection between two places, in at most `fuel` steps. -/
def bisect (k : K) (l : List α) : Nat → Nat → Nat → Option Nat
  | 0, _, _ => none
  | fuel + 1, lo, hi =>
    if lo < hi then
      match l[(lo + hi) / 2]? with
      | none => none
      | some a =>
        if cmp k (key a) < 0 then bisect k l fuel lo ((lo + hi) / 2)
        else if cmp k (key a) > 0 then bisect k l fuel ((lo + hi) / 2 + 1) hi
        else some ((lo + hi) / 2)
    else none

/-- Bisection over the whole table. -/
def bsearch (k : K) (l : List α) : Option Nat := bisect cmp key k l (l.length + 1) 0 l.length

variable {cmp key}

/-! ## Changing a table -/

/-- An element put where the scan stopped leaves the table sorted. -/
theorem sorted_insert {k : K} {a : α} {before rest : List α} (ha : key a = k)
    (hl : Sorted cmp key (before ++ rest)) (hbefore : ∀ x ∈ before, cmp (key x) k < 0)
    (hrest : ∀ x ∈ rest, cmp k (key x) < 0) : Sorted cmp key (before ++ a :: rest) := by
  subst ha
  obtain ⟨h1, h2, h3⟩ := List.pairwise_append.mp hl
  refine List.pairwise_append.mpr ⟨h1, List.pairwise_cons.mpr ⟨hrest, h2⟩, ?_⟩
  intro x hx y hy
  rcases List.mem_cons.mp hy with rfl | hy
  · exact hbefore x hx
  · exact h3 x hx y hy

/-- Another element with the same key in its place. -/
theorem sorted_replace {a b : α} {before rest : List α} (hkey : key a = key b)
    (hl : Sorted cmp key (before ++ a :: rest)) : Sorted cmp key (before ++ b :: rest) := by
  obtain ⟨h1, h2, h3⟩ := List.pairwise_append.mp hl
  obtain ⟨ha, h4⟩ := List.pairwise_cons.mp h2
  refine List.pairwise_append.mpr ⟨h1, List.pairwise_cons.mpr ⟨fun x hx => hkey ▸ ha x hx, h4⟩, ?_⟩
  intro x hx y hy
  rcases List.mem_cons.mp hy with rfl | hy
  · exact hkey ▸ h3 x hx a (List.mem_cons_self ..)
  · exact h3 x hx y (List.mem_cons_of_mem _ hy)

theorem sorted_erase {a : α} {before rest : List α} (hl : Sorted cmp key (before ++ a :: rest)) :
    Sorted cmp key (before ++ rest) :=
  hl.sublist (List.Sublist.append_left (List.sublist_cons_self a rest) before)

include hcmp

/-! ## The scan -/

/-- What the scan finds: the table cut in front of the place. -/
theorem scan_cases {k : K} {l : List α} (hl : Sorted cmp key l) :
    (∃ before a rest, l = before ++ a :: rest ∧ key a = k ∧
      scan cmp key k l = (before.length, true)) ∨
      ∃ before rest, l = before ++ rest ∧ scan cmp key k l = (before.length, false) ∧
        (∀ x ∈ before, cmp (key x) k < 0) ∧ ∀ x ∈ rest, cmp k (key x) < 0 := by
  induction l with
  | nil => exact .inr ⟨[], [], rfl, rfl, by simp, by simp⟩
  | cons a l ih =>
    obtain ⟨hhead, htail⟩ := List.pairwise_cons.mp hl
    unfold scan
    by_cases hzero : cmp k (key a) = 0
    · rw [if_pos hzero]
      exact .inl ⟨[], a, l, rfl, ((hcmp.zero_iff _ _).mp hzero).symm, rfl⟩
    · rw [if_neg hzero]
      by_cases hneg : cmp k (key a) < 0
      · rw [if_pos hneg]
        refine .inr ⟨[], a :: l, rfl, rfl, by simp, ?_⟩
        intro x hx
        rcases List.mem_cons.mp hx with rfl | hx
        · exact hneg
        · exact hcmp.trans _ _ _ hneg (hhead x hx)
      · rw [if_neg hneg]
        rcases ih htail with ⟨before, b, rest, rfl, hb, hscan⟩ |
          ⟨before, rest, rfl, hscan, hbefore, hrest⟩
        · exact .inl ⟨a :: before, b, rest, rfl, hb, by rw [hscan]; rfl⟩
        · refine .inr ⟨a :: before, rest, rfl, by rw [hscan]; rfl, ?_, hrest⟩
          intro x hx
          rcases List.mem_cons.mp hx with rfl | hx
          · exact hcmp.lt_of_not hzero hneg
          · exact hbefore x hx

/-- A key occurs once. -/
theorem sorted_key_ne {a : α} {before rest : List α} (hl : Sorted cmp key (before ++ a :: rest)) :
    ∀ x ∈ before ++ rest, key x ≠ key a := by
  obtain ⟨_, h2, h3⟩ := List.pairwise_append.mp hl
  intro x hx
  rcases List.mem_append.mp hx with hx | hx
  · exact hcmp.ne (h3 x hx a (List.mem_cons_self ..))
  · exact (hcmp.ne ((List.pairwise_cons.mp h2).1 x hx)).symm

theorem sorted_keys_nodup {l : List α} (hl : Sorted cmp key l) : (l.map key).Nodup :=
  List.Pairwise.map key (fun _ _ h => hcmp.ne h) hl

/-! ## Bisection -/

/-- The elements at increasing places have increasing keys. -/
theorem sorted_getElem? {l : List α} (hl : Sorted cmp key l) {i j : Nat} {a b : α}
    (ha : l[i]? = some a) (hb : l[j]? = some b) (hlt : cmp (key a) (key b) < 0) : i < j := by
  obtain ⟨hi, rfl⟩ := List.getElem?_eq_some_iff.mp ha
  obtain ⟨hj, rfl⟩ := List.getElem?_eq_some_iff.mp hb
  by_contra hge
  rcases Nat.lt_or_eq_of_le (Nat.not_lt.mp hge) with h | rfl
  · exact hcmp.asymm hlt (List.pairwise_iff_getElem.mp hl j i hj hi h)
  · exact hcmp.irrefl _ hlt

/-- A key has one place. -/
theorem sorted_place_unique {l : List α} (hl : Sorted cmp key l) {i j : Nat} {a b : α}
    (ha : l[i]? = some a) (hb : l[j]? = some b) (hkey : key a = key b) : i = j := by
  obtain ⟨hi, rfl⟩ := List.getElem?_eq_some_iff.mp ha
  obtain ⟨hj, rfl⟩ := List.getElem?_eq_some_iff.mp hb
  rcases Nat.lt_trichotomy i j with h | h | h
  · exact absurd hkey (hcmp.ne (List.pairwise_iff_getElem.mp hl i j hi hj h))
  · exact h
  · exact absurd hkey.symm (hcmp.ne (List.pairwise_iff_getElem.mp hl j i hj hi h))

/-- **Bisection finds a key exactly if it is there**, between the two places. -/
theorem bisect_eq_some_iff {k : K} {l : List α} (hl : Sorted cmp key l) (i : Nat) :
    ∀ fuel lo hi, hi - lo < fuel → hi ≤ l.length →
      (bisect cmp key k l fuel lo hi = some i ↔
        lo ≤ i ∧ i < hi ∧ ∃ a, l[i]? = some a ∧ key a = k) := by
  intro fuel
  induction fuel with
  | zero => intro lo hi hfuel; omega
  | succ fuel ih =>
    intro lo hi hfuel hhi
    unfold bisect
    by_cases hlt : lo < hi
    · rw [if_pos hlt]
      have hmid : (lo + hi) / 2 < l.length := by omega
      have hget := List.getElem?_eq_getElem hmid
      generalize l[(lo + hi) / 2] = m at hget
      rw [hget]
      -- the half that is left out holds no element with this key
      show (if cmp k (key m) < 0 then _ else _) = some i ↔ _
      by_cases hneg : cmp k (key m) < 0
      · rw [if_pos hneg, ih lo _ (by omega) (by omega)]
        refine ⟨fun ⟨h1, h2, h⟩ => ⟨h1, by omega, h⟩, ?_⟩
        rintro ⟨h1, _, a, ha, rfl⟩
        exact ⟨h1, sorted_getElem? hcmp hl ha hget hneg, a, ha, rfl⟩
      · rw [if_neg hneg]
        by_cases hpos : cmp k (key m) > 0
        · rw [if_pos hpos, ih _ hi (by omega) hhi]
          refine ⟨fun ⟨h1, h2, h⟩ => ⟨by omega, h2, h⟩, ?_⟩
          rintro ⟨_, h2, a, ha, rfl⟩
          exact ⟨sorted_getElem? hcmp hl hget ha ((hcmp.neg_iff _ _).mpr hpos), h2, a, ha, rfl⟩
        · have hkey : k = key m := (hcmp.zero_iff _ _).mp (by omega)
          rw [if_neg hpos]
          refine ⟨?_, ?_⟩
          · intro h
            obtain rfl := Option.some.inj h
            exact ⟨by omega, by omega, m, hget, hkey.symm⟩
          · rintro ⟨_, _, a, ha, hak⟩
            exact congrArg some (sorted_place_unique hcmp hl hget ha (hak.trans hkey).symm)
    · rw [if_neg hlt]
      refine ⟨fun h => absurd h (by simp), fun ⟨h1, h2, _⟩ => by omega⟩

theorem bsearch_cases {k : K} {l : List α} (hl : Sorted cmp key l) :
    (∃ before a rest, l = before ++ a :: rest ∧ key a = k ∧
        bsearch cmp key k l = some before.length) ∨
      (bsearch cmp key k l = none ∧ ∀ x ∈ l, key x ≠ k) := by
  have hiff := fun i => bisect_eq_some_iff hcmp (k := k) hl i (l.length + 1) 0 l.length
    (by omega) (Nat.le_refl _)
  by_cases hmem : ∃ a ∈ l, key a = k
  · obtain ⟨a, ha, hk⟩ := hmem
    obtain ⟨before, rest, rfl⟩ := List.append_of_mem ha
    refine .inl ⟨before, a, rest, rfl, hk, (hiff _).mpr ⟨Nat.zero_le _, by simp, a, by simp, hk⟩⟩
  · refine .inr ⟨?_, fun x hx hk => hmem ⟨x, hx, hk⟩⟩
    cases hfound : bsearch cmp key k l with
    | none => rfl
    | some i =>
      obtain ⟨_, _, a, ha, hk⟩ := (hiff i).mp hfound
      exact absurd ⟨a, List.mem_of_getElem? ha, hk⟩ hmem

/-! ## The first one wins -/

variable (cmp key) in
/-- Puts an element in its place, unless there is one with its key. -/
def insertNew (l : List α) (a : α) : List α :=
  if (scan cmp key (key a) l).2 then l
  else l.take (scan cmp key (key a) l).1 ++ a :: l.drop (scan cmp key (key a) l).1

omit hcmp in
/-- Smaller keys are passed over. -/
theorem scan_append {k : K} {before : List α} (hbefore : ∀ x ∈ before, 0 < cmp k (key x))
    (rest : List α) :
    scan cmp key k (before ++ rest) = ((scan cmp key k rest).1 + before.length,
      (scan cmp key k rest).2) := by
  induction before with
  | nil => rfl
  | cons x before ih =>
    have hx := hbefore x (by simp)
    rw [List.cons_append, scan, if_neg (by omega), if_neg (by omega),
      ih (fun y hy => hbefore y (List.mem_cons_of_mem _ hy)), List.length_cons]
    exact Prod.ext (by dsimp only; omega) rfl

omit hcmp in
theorem insertNew_of_mem {a b : α} {before rest : List α}
    (hbefore : ∀ x ∈ before, 0 < cmp (key a) (key x))
    (hb : cmp (key a) (key b) = 0) : insertNew cmp key (before ++ b :: rest) a =
      before ++ b :: rest := by
  rw [insertNew, scan_append hbefore, scan, if_pos hb]
  rfl

omit hcmp in
theorem insertNew_of_split {a : α} {before rest : List α}
    (hbefore : ∀ x ∈ before, 0 < cmp (key a) (key x))
    (hrest : ∀ x ∈ rest.head?, cmp (key a) (key x) < 0) :
    insertNew cmp key (before ++ rest) a = before ++ a :: rest := by
  have hscan : scan cmp key (key a) rest = (0, false) := by
    cases rest with
    | nil => rfl
    | cons x rest =>
      have hx := hrest x rfl
      rw [scan, if_neg (by omega), if_pos hx]
  rw [insertNew, scan_append hbefore, hscan]
  simp

omit hcmp in
theorem insertNew_concat {a : α} {l : List α} (hall : ∀ x ∈ l, 0 < cmp (key a) (key x)) :
    insertNew cmp key l a = l ++ [a] := by
  have hsplit : insertNew cmp key (l ++ []) a = l ++ [a] := insertNew_of_split hall (by simp)
  rwa [List.append_nil] at hsplit

theorem insertNew_cases {a : α} {l : List α} (hl : Sorted cmp key l) :
    (∃ b ∈ l, key b = key a ∧ insertNew cmp key l a = l) ∨
      ∃ before rest, l = before ++ rest ∧ insertNew cmp key l a = before ++ a :: rest ∧
        (∀ x ∈ before, cmp (key x) (key a) < 0) ∧ ∀ x ∈ rest, cmp (key a) (key x) < 0 := by
  rcases scan_cases hcmp (k := key a) hl with
    ⟨before, b, rest, rfl, hkey, hscan⟩ | ⟨before, rest, rfl, hscan, hbefore, hrest⟩
  · exact .inl ⟨b, by simp, hkey, by rw [insertNew, hscan]; rfl⟩
  · refine .inr ⟨before, rest, rfl, ?_, hbefore, hrest⟩
    rw [insertNew, hscan, List.take_left, List.drop_left]
    rfl

theorem sorted_insertNew {l : List α} (hl : Sorted cmp key l) (a : α) :
    Sorted cmp key (insertNew cmp key l a) := by
  rcases insertNew_cases hcmp (a := a) hl with ⟨_, _, _, heq⟩ |
    ⟨before, rest, rfl, heq, hbefore, hrest⟩
  · rwa [heq]
  · rw [heq]
    exact sorted_insert rfl hl hbefore hrest

theorem mem_insertNew {l : List α} (hl : Sorted cmp key l) (a x : α) :
    x ∈ insertNew cmp key l a ↔ x ∈ l ∨ (x = a ∧ ∀ b ∈ l, key b ≠ key a) := by
  rcases insertNew_cases hcmp (a := a) hl with ⟨b, hb, hkey, heq⟩ |
    ⟨before, rest, rfl, heq, hbefore, hrest⟩
  · rw [heq]
    exact ⟨.inl, fun h => h.elim id (fun h => absurd hkey (h.2 b hb))⟩
  · have hnew := sorted_key_ne hcmp (sorted_insert rfl hl hbefore hrest)
    rw [heq]
    simp only [List.mem_append, List.mem_cons]
    constructor
    · rintro (h | rfl | h)
      · exact .inl (.inl h)
      · exact .inr ⟨rfl, fun b hb => hnew b (List.mem_append.mpr hb)⟩
      · exact .inl (.inr h)
    · rintro ((h | h) | ⟨rfl, _⟩)
      · exact .inl h
      · exact .inr (.inr h)
      · exact .inr (.inl rfl)

/-- Elements put in one after the other: those that are the first with their key. -/
theorem foldl_insertNew (as : List α) :
    ∀ {l : List α}, Sorted cmp key l → Sorted cmp key (as.foldl (insertNew cmp key) l) ∧
      ∀ x, x ∈ as.foldl (insertNew cmp key) l ↔
        x ∈ l ∨ ∃ before after, as = before ++ x :: after ∧ ∀ b ∈ l ++ before, key b ≠ key x := by
  induction as with
  | nil =>
    intro l hl
    refine ⟨hl, fun x => ⟨.inl, ?_⟩⟩
    rintro (h | ⟨before, after, heq, _⟩)
    · exact h
    · exact absurd heq.symm (by simp)
  | cons a as ih =>
    intro l hl
    obtain ⟨hsorted, hmem⟩ := ih (sorted_insertNew hcmp hl a)
    refine ⟨hsorted, fun x => (hmem x).trans ?_⟩
    rw [mem_insertNew hcmp hl]
    constructor
    · rintro ((h | ⟨rfl, hnew⟩) | ⟨before, after, rfl, hfirst⟩)
      · exact .inl h
      · exact .inr ⟨[], as, rfl, by simpa using hnew⟩
      · refine .inr ⟨a :: before, after, rfl, fun b hb => ?_⟩
        rcases List.mem_append.mp hb with hb | hb
        · exact hfirst b (List.mem_append_left _ ((mem_insertNew hcmp hl a b).mpr (.inl hb)))
        · rcases List.mem_cons.mp hb with rfl | hb
          · -- its key is there, whether it was put in or not
            by_cases hnew : ∀ c ∈ l, key c ≠ key b
            · exact hfirst b (List.mem_append_left _
                ((mem_insertNew hcmp hl b b).mpr (.inr ⟨rfl, hnew⟩)))
            · push Not at hnew
              obtain ⟨c, hc, hkey⟩ := hnew
              rw [← hkey]
              exact hfirst c (List.mem_append_left _ ((mem_insertNew hcmp hl b c).mpr (.inl hc)))
          · exact hfirst b (List.mem_append_right _ hb)
    · rintro (h | ⟨before, after, heq, hfirst⟩)
      · exact .inl (.inl h)
      · cases before with
        | nil =>
          obtain ⟨rfl, rfl⟩ := List.cons.inj heq
          exact .inl (.inr ⟨rfl, by simpa using hfirst⟩)
        | cons b before =>
          obtain ⟨rfl, rfl⟩ := List.cons.inj heq
          refine .inr ⟨before, after, rfl, fun c hc => ?_⟩
          rcases List.mem_append.mp hc with hc | hc
          · rcases (mem_insertNew hcmp hl a c).mp hc with hc | ⟨rfl, _⟩
            · exact hfirst c (List.mem_append_left _ hc)
            · exact hfirst c (by simp)
          · exact hfirst c (by simp [hc])

/-- A strictly sorted list is determined by its elements. -/
theorem sorted_ext {l l' : List α} (hl : Sorted cmp key l) (hl' : Sorted cmp key l')
    (hmem : ∀ x, x ∈ l ↔ x ∈ l') : l = l' := by
  have hnodup : ∀ {l : List α}, Sorted cmp key l → l.Nodup :=
    fun h => List.Nodup.of_map key (sorted_keys_nodup hcmp h)
  refine List.Perm.eq_of_pairwise ?_ hl hl'
    ((List.perm_ext_iff_of_nodup (hnodup hl) (hnodup hl')).mpr hmem)
  intro a b _ _ hab hba
  exact absurd hba (hcmp.asymm hab)

variable (cmp key) in
/--
What a table is to hold when several sources offer elements in turn: the keys are strictly
increasing, every key that is offered is there, and each element is of the first source
that offers its key.
-/
structure FirstWins (offered : List (List α)) (table : List α) : Prop where
  sorted : Sorted cmp key table
  complete : ∀ source ∈ offered, ∀ x ∈ source, ∃ y ∈ table, key y = key x
  first : ∀ x ∈ table, ∃ before source after, offered = before ++ source :: after ∧ x ∈ source ∧
    ∀ y ∈ before.flatten, key y ≠ key x

omit hcmp in
/-- The source that an element of all sources is from. -/
theorem exists_source {offered : List (List α)} {before after : List α} {x : α}
    (h : offered.flatten = before ++ x :: after) :
    ∃ sources source more u, offered = sources ++ source :: more ∧ x ∈ source ∧
      before = sources.flatten ++ u := by
  induction offered generalizing before with
  | nil => simp at h
  | cons source offered ih =>
    rw [List.flatten_cons] at h
    rcases List.append_eq_append_iff.mp h with ⟨w, rfl, hw⟩ | ⟨w, rfl, hw⟩
    · obtain ⟨sources, source', more, u, rfl, hx, rfl⟩ := ih hw
      exact ⟨source :: sources, source', more, u, rfl, hx, by simp⟩
    · cases w with
      | nil =>
        obtain ⟨sources, source', more, u, rfl, hx, hu⟩ :=
          ih (show offered.flatten = [] ++ x :: after from hw.symm)
        obtain ⟨hs, rfl⟩ := List.append_eq_nil_iff.mp hu.symm
        exact ⟨(before ++ []) :: sources, source', more, [], rfl, hx, by simp [hs]⟩
      | cons y w =>
        obtain ⟨rfl, _⟩ := List.cons.inj hw
        exact ⟨[], before ++ x :: w, offered, before, rfl, by simp, by simp⟩

/-- Putting all elements in turn into an empty table does it. -/
theorem foldl_firstWins (offered : List (List α)) :
    FirstWins cmp key offered (offered.flatten.foldl (insertNew cmp key) []) := by
  have hnil : Sorted cmp key [] := List.Pairwise.nil
  obtain ⟨hsorted, hmem⟩ := foldl_insertNew hcmp offered.flatten hnil
  refine ⟨hsorted, fun source hsource x hx => ?_, fun x hx => ?_⟩
  · -- the first element with this key
    have hx' : x ∈ offered.flatten := List.mem_flatten.mpr ⟨source, hsource, hx⟩
    have hkey : key x ∈ offered.flatten.map key := List.mem_map_of_mem hx'
    obtain ⟨ks, ks', hks, hnot⟩ := List.eq_append_cons_of_mem hkey
    obtain ⟨before, rest, hflat, rfl, hrest⟩ := List.map_eq_append_iff.mp hks
    obtain ⟨y, after, rfl, hy, _⟩ := List.map_eq_cons_iff.mp hrest
    refine ⟨y, (hmem y).mpr (.inr ⟨before, after, hflat, fun b hb => ?_⟩), hy⟩
    rintro heq
    exact hnot (List.mem_map.mpr ⟨b, by simpa using hb, heq.trans hy⟩)
  · rcases (hmem x).mp hx with hx | ⟨before, after, hflat, hfirst⟩
    · cases hx
    · obtain ⟨sources, source, more, u, rfl, hsource, rfl⟩ := exists_source hflat
      exact ⟨sources, source, more, rfl, hsource, fun y hy => hfirst y (by simp [hy])⟩

/-- There is only one such table, if the elements of a source are known by their keys. -/
theorem FirstWins.unique {offered : List (List α)} {l l' : List α} (h : FirstWins cmp key offered l)
    (h' : FirstWins cmp key offered l')
    (hkeys : ∀ source ∈ offered, ∀ x ∈ source, ∀ y ∈ source, key x = key y → x = y) : l = l' := by
  have hsub : ∀ {l l' : List α}, FirstWins cmp key offered l → FirstWins cmp key offered l' →
      ∀ x ∈ l, x ∈ l' := by
    intro l l' h h' x hx
    obtain ⟨before, source, after, rfl, hsource, hfirst⟩ := h.first x hx
    obtain ⟨y, hy, hkey⟩ := h'.complete source (by simp) x hsource
    obtain ⟨before', source', after', hoffered, hsource', hfirst'⟩ := h'.first y hy
    -- both are of the first source with this key
    rcases List.append_eq_append_iff.mp hoffered with ⟨w, rfl, hw⟩ | ⟨w, rfl, hw⟩
    · cases w with
      | nil =>
        obtain ⟨rfl, _⟩ := List.cons.inj hw
        rw [← hkeys source (by simp) y hsource' x hsource hkey]
        exact hy
      | cons s w =>
        obtain ⟨rfl, _⟩ := List.cons.inj hw
        exact absurd hkey.symm (hfirst' x (by simp [hsource]))
    · cases w with
      | nil =>
        obtain ⟨rfl, _⟩ := List.cons.inj hw
        rw [← hkeys source' (by simp) y hsource' x hsource hkey]
        exact hy
      | cons s w =>
        obtain ⟨rfl, _⟩ := List.cons.inj hw
        exact absurd hkey (hfirst y (by simp [hsource']))
  exact sorted_ext hcmp h.sorted h'.sorted (fun x => ⟨hsub h h' x, hsub h' h x⟩)

omit hcmp in
/-- The order in which a source offers its elements does not matter. -/
theorem FirstWins.of_same {offered offered' : List (List α)} {l : List α}
    (h : FirstWins cmp key offered l)
    (hsame : List.Forall₂ (fun s s' => ∀ x, x ∈ s ↔ x ∈ s') offered offered') :
    FirstWins cmp key offered' l := by
  have hflat : ∀ {a b : List (List α)}, List.Forall₂ (fun s s' => ∀ x, x ∈ s ↔ x ∈ s') a b →
      ∀ x, x ∈ b.flatten → x ∈ a.flatten := by
    intro a b hab x hx
    obtain ⟨s', hs', hx⟩ := List.mem_flatten.mp hx
    obtain ⟨i, hi, rfl⟩ := List.getElem_of_mem hs'
    have hlen := hab.length_eq
    have := (List.forall₂_iff_get.mp hab).2 i (by omega) hi
    exact List.mem_flatten.mpr ⟨_, List.get_mem a ⟨i, by omega⟩, (this x).mpr hx⟩
  refine ⟨h.sorted, fun source hsource x hx => ?_, fun x hx => ?_⟩
  · have hx' := hflat hsame x (List.mem_flatten.mpr ⟨source, hsource, hx⟩)
    obtain ⟨s, hs, hx'⟩ := List.mem_flatten.mp hx'
    exact h.complete s hs x hx'
  · obtain ⟨before, source, after, rfl, hsource, hfirst⟩ := h.first x hx
    have hflip := hsame.flip
    have hbefore := List.forall₂_take_append _ _ _ hflip
    obtain ⟨source', after', hsource', _, hrest⟩ :=
      List.forall₂_cons_right_iff.mp (List.forall₂_drop_append _ _ _ hflip)
    refine ⟨offered'.take before.length, source', after', ?_, (hsource' x).mp hsource,
      fun y hy => ?_⟩
    · rw [← hrest, List.take_append_drop]
    · exact hfirst y (hflat hbefore.flip y hy)

end Kmod.SortedTable
