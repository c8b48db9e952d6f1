import Kmod.Shared.HashOps
import Mathlib.Data.Finmap

/-!
# A hash table is a finite map

Every operation of a table answers as the same operation of a finite map would, whatever
the hash values of the keys are and however allocations turn out (`hash_refines_map`). Only
an addition asks for memory, and only when the bucket for the key is full; so this is the
one thing of the table that its answers show.

The same run keeps a ledger of the values: each one that was stored is still in the table
or was handed to `free_value`.
-/

namespace Kmod

open SortedTable

variable {V : Type}

/-! ## Maps -/

/-- A finite map from strings to values. -/
abbrev StrMap (V : Type) := Finmap (fun _ : CStr => V)

theorem StrMap.lookup_insert (m : StrMap V) (key : CStr) (value : V) (k : CStr) :
    (m.insert key value).lookup k = if k = key then some value else m.lookup k := by
  split
  · next hk => rw [hk, Finmap.lookup_insert]
  · next hk => exact Finmap.lookup_insert_of_ne _ hk

theorem StrMap.lookup_erase (m : StrMap V) (key k : CStr) :
    (m.erase key).lookup k = if k = key then none else m.lookup k := by
  split
  · next hk => rw [hk, Finmap.lookup_erase]
  · next hk => exact Finmap.lookup_erase_ne hk

/-- The entries of a list are those of a map, each once. -/
structure ListsMap (m : StrMap V) (l : List (HashEntry V)) : Prop where
  nodup : (l.map HashEntry.key).Nodup
  mem_iff : ∀ key value, ⟨key, value⟩ ∈ l ↔ m.lookup key = some value

section ListsMap

variable {m : StrMap V} {l l' rest : List (HashEntry V)} {key : CStr} {old value : V}

theorem ListsMap.perm (h : ListsMap m l) (hp : l'.Perm l) : ListsMap m l' :=
  ⟨(hp.map HashEntry.key).nodup_iff.mpr h.nodup, fun key value => hp.mem_iff.trans (h.mem_iff key value)⟩

theorem ListsMap.mem_keys (h : ListsMap m l) (key : CStr) : key ∈ m ↔ ∃ e ∈ l, e.key = key := by
  rw [← Finmap.lookup_isSome, Option.isSome_iff_exists]
  refine ⟨?_, ?_⟩
  · rintro ⟨value, hvalue⟩
    exact ⟨⟨key, value⟩, (h.mem_iff key value).mpr hvalue, rfl⟩
  · rintro ⟨e, he, rfl⟩
    exact ⟨e.value, (h.mem_iff e.key e.value).mp he⟩

theorem ListsMap.not_mem (h : ListsMap m l) (habsent : ∀ e ∈ l, e.key ≠ key) : key ∉ m := by
  rw [h.mem_keys]
  rintro ⟨e, he, hkey⟩
  exact habsent e he hkey

/-- There are as many entries as keys. -/
theorem ListsMap.card_keys (h : ListsMap m l) : m.keys.card = l.length := by
  have hkeys : m.keys = (l.map HashEntry.key).toFinset := by
    ext key
    rw [Finmap.mem_keys, h.mem_keys, List.mem_toFinset, List.mem_map]
  rw [hkeys, List.toFinset_card_of_nodup h.nodup, List.length_map]

/-- Entries of a map that are as many as its keys are all of them. -/
theorem ListsMap.of_card (hnodup : (l.map HashEntry.key).Nodup)
    (hmem : ∀ e ∈ l, m.lookup e.key = some e.value) (hcard : m.keys.card ≤ l.length) :
      ListsMap m l := by
  refine ⟨hnodup, fun key value => ⟨fun he => hmem _ he, fun hlookup => ?_⟩⟩
  have hsub : (l.map HashEntry.key).toFinset ⊆ m.keys := by
    intro k hk
    obtain ⟨e, he, rfl⟩ := List.mem_map.mp (List.mem_toFinset.mp hk)
    exact Finmap.mem_keys.mpr (Finmap.mem_of_lookup_eq_some (hmem e he))
  have hkeys : (l.map HashEntry.key).toFinset = m.keys := by
    refine Finset.eq_of_subset_of_card_le hsub ?_
    rw [List.toFinset_card_of_nodup hnodup, List.length_map]
    exact hcard
  have hkey : key ∈ (l.map HashEntry.key).toFinset := by
    rw [hkeys]
    exact Finmap.mem_keys.mpr (Finmap.mem_of_lookup_eq_some hlookup)
  obtain ⟨e, he, rfl⟩ := List.mem_map.mp (List.mem_toFinset.mp hkey)
  have hsame := hmem e he
  rw [hlookup] at hsame
  cases hsame
  exact he

/-- The other entries, when one stands in front. -/
theorem ListsMap.mem_rest (h : ListsMap m (⟨key, old⟩ :: rest)) (k : CStr) (v : V) :
    ⟨k, v⟩ ∈ rest ↔ k ≠ key ∧ m.lookup k = some v := by
  obtain ⟨hfirst, _⟩ := List.nodup_cons.mp h.nodup
  rw [← h.mem_iff k v, List.mem_cons, HashEntry.mk.injEq]
  refine ⟨fun hmem => ⟨?_, .inr hmem⟩, ?_⟩
  · rintro rfl
    exact hfirst (List.mem_map.mpr ⟨_, hmem, rfl⟩)
  · rintro ⟨hne, ⟨hk, _⟩ | hmem⟩
    · exact absurd hk hne
    · exact hmem

theorem ListsMap.replace (h : ListsMap m (⟨key, old⟩ :: rest)) :
    ListsMap (m.insert key value) (⟨key, value⟩ :: rest) := by
  refine ⟨h.nodup, fun k v => ?_⟩
  rw [List.mem_cons, h.mem_rest, HashEntry.mk.injEq]
  by_cases hk : k = key
  · subst hk
    simp [eq_comm]
  · simp [hk]

theorem ListsMap.insert (h : ListsMap m l) (habsent : ∀ e ∈ l, e.key ≠ key) :
    ListsMap (m.insert key value) (⟨key, value⟩ :: l) := by
  refine ⟨List.nodup_cons.mpr ⟨?_, h.nodup⟩, fun k v => ?_⟩
  · rintro hmem
    obtain ⟨e, he, hkey⟩ := List.mem_map.mp hmem
    exact habsent e he hkey
  · rw [List.mem_cons, h.mem_iff, HashEntry.mk.injEq]
    by_cases hk : k = key
    · subst hk
      have hnone : m.lookup k = none := Finmap.lookup_eq_none.mpr (h.not_mem habsent)
      simp [hnone, eq_comm]
    · simp [hk]

theorem ListsMap.erase (h : ListsMap m (⟨key, old⟩ :: rest)) : ListsMap (m.erase key) rest := by
  refine ⟨(List.nodup_cons.mp h.nodup).2, fun k v => ?_⟩
  rw [h.mem_rest]
  by_cases hk : k = key
  · subst hk
    simp
  · simp [hk]

end ListsMap

/-! ## Runs -/

/-- A call of one of the functions; `realloc` says whether an allocation succeeds. -/
inductive HashCall (V : Type) where
  | add (key : CStr) (value : V) (realloc : Bool)
  | addUnique (key : CStr) (value : V) (realloc : Bool)
  | del (key : CStr) (realloc : Bool)
  | find (key : CStr)
  | iterate

/-- What a call returns: a code, a pointer, or what an iteration visits. -/
inductive HashReturn (V : Type) where
  | code (r : Int)
  | value (v : V)
  | entries (l : List (HashEntry V))
  deriving DecidableEq

/-- One call: what it returns, the table after it, and the values handed to `free_value`. -/
def hashCall (host : Host) (null : V) (hash : Hash V) :
    HashCall V → Except Fault (HashReturn V × Hash V × List V)
  | .add key value realloc => do
    let (r, hash, gone) ← hashAdd host hash key value realloc
    .ok (.code r, hash, gone)
  | .addUnique key value realloc => do
    let (r, hash) ← hashAddUnique host hash key value realloc
    .ok (.code r, hash, [])
  | .del key realloc => do
    let (r, hash, gone) ← hashDel host hash key realloc
    .ok (.code r, hash, gone)
  | .find key => do
    let v ← hashFind host null hash key
    .ok (.value v, hash, [])
  | .iterate => do
    let l ← hashIterLoop hash (hash.contents.length + 1) hashIterInit
    .ok (.entries l, hash, [])

/-- A sequence of calls. -/
def hashRun (host : Host) (null : V) :
    Hash V → List (HashCall V) → Except Fault (List (HashReturn V) × Hash V × List V)
  | hash, [] => .ok ([], hash, [])
  | hash, call :: calls => do
    let (ret, hash, gone) ← hashCall host null hash call
    let (rets, hash, gone') ← hashRun host null hash calls
    .ok (ret :: rets, hash, gone ++ gone')

/--
What a call returns for a finite map, and the map after it. `full` says for which keys an
addition asks for memory; it does so first, and is refused if there is none.
-/
inductive MapStep (null : V) (full : CStr → Bool) :
    StrMap V → HashCall V → HashReturn V → StrMap V → Prop where
  | add {m : StrMap V} {key : CStr} {value : V} {realloc : Bool} :
      (full key = true → realloc = true) →
      MapStep null full m (.add key value realloc) (.code 0) (m.insert key value)
  | addNoMemory {m : StrMap V} {key : CStr} {value : V} : full key = true →
      MapStep null full m (.add key value false) (.code (-ENOMEM)) m
  | addUnique {m : StrMap V} {key : CStr} {value : V} {realloc : Bool} :
      (full key = true → realloc = true) → key ∉ m →
      MapStep null full m (.addUnique key value realloc) (.code 0) (m.insert key value)
  | exists {m : StrMap V} {key : CStr} {value : V} {realloc : Bool} :
      (full key = true → realloc = true) → key ∈ m →
      MapStep null full m (.addUnique key value realloc) (.code (-EEXIST)) m
  | addUniqueNoMemory {m : StrMap V} {key : CStr} {value : V} : full key = true →
      MapStep null full m (.addUnique key value false) (.code (-ENOMEM)) m
  | del {m : StrMap V} {key : CStr} {realloc : Bool} : key ∈ m →
      MapStep null full m (.del key realloc) (.code 0) (m.erase key)
  | missing {m : StrMap V} {key : CStr} {realloc : Bool} : key ∉ m →
      MapStep null full m (.del key realloc) (.code (-ENOENT)) m
  | find {m : StrMap V} {key : CStr} :
      MapStep null full m (.find key) (.value ((m.lookup key).getD null)) m
  | iterate {m : StrMap V} {l : List (HashEntry V)} : ListsMap m l →
      MapStep null full m .iterate (.entries l) m

/--
A sequence of calls, on a table and on a finite map: each call returns what it does for the map,
and asks for memory when its bucket of the table is full at that time.
-/
inductive MapRun (host : Host) (null : V) : Hash V → StrMap V → List (HashCall V) →
    List (HashReturn V) → StrMap V → Prop where
  | nil {hash : Hash V} {m : StrMap V} : MapRun host null hash m [] [] m
  | cons {hash hash' : Hash V} {m m' m'' : StrMap V} {call : HashCall V}
      {calls : List (HashCall V)} {ret : HashReturn V} {rets : List (HashReturn V)}
      {gone : List V} : hashCall host null hash call = .ok (ret, hash', gone) →
      MapStep null (bucketFull host hash) m call ret m' →
      MapRun host null hash' m' calls rets m'' →
      MapRun host null hash m (call :: calls) (ret :: rets) m''

/-- The value that a call stores: it was told to, and returned zero. -/
def storedBy : HashCall V → HashReturn V → List V
  | .add _ value _, .code r => if r = 0 then [value] else []
  | .addUnique _ value _, .code r => if r = 0 then [value] else []
  | _, _ => []

/-- The values that a sequence of calls stores. -/
def storedValues (calls : List (HashCall V)) (rets : List (HashReturn V)) : List V :=
  (List.zipWith storedBy calls rets).flatten

/-- The values in a table. -/
def Hash.values (hash : Hash V) : List V := hash.contents.map HashEntry.value

theorem hashFree_eq {hash : Hash V} (h : hash.freeValue = true) : hashFree hash = hash.values := by
  unfold hashFree Hash.values Hash.contents
  rw [List.map_flatMap]
  refine List.flatMap_congr (fun bucket _ => ?_)
  split
  · rfl
  · next hnot =>
    have hnil : bucket.entries = [] := by
      by_contra hne
      exact hnot ⟨h, fun h0 => hne (List.eq_nil_of_length_eq_zero h0)⟩
    rw [hnil]
    rfl

/-- A table refines a map: it is valid and has the entries of the map. -/
structure RefinesMap (host : Host) (hash : Hash V) (m : StrMap V) : Prop where
  valid : hash.Valid host
  lists : ListsMap m hash.contents

/-- What `hash_find` returns. -/
theorem RefinesMap.hashFind_eq {host : Host} {hash : Hash V} {m : StrMap V}
    (h : RefinesMap host hash m)
    (null : V) (key : CStr) : hashFind host null hash key = .ok ((m.lookup key).getD null) := by
  rcases hashFind_cases h.valid null key with ⟨e, he, rfl, hcall⟩ | ⟨habsent, hcall⟩
  · rw [hcall, (h.lists.mem_iff e.key e.value).mp he]
    rfl
  · rw [hcall, Finmap.lookup_eq_none.mpr (h.lists.not_mem habsent)]
    rfl

/--
**One call.** It returns what the map may return, the table still refines the map, and
what was in the table or is stored now is in the table or gone.
-/
theorem hashCall_refines {host : Host} {hash : Hash V} {m : StrMap V} (null : V)
    (h : RefinesMap host hash m)
    (hroom : hash.contents.length < MAX_KEYS) (call : HashCall V) :
    ∃ ret hash' gone m', hashCall host null hash call = .ok (ret, hash', gone) ∧
      MapStep null (bucketFull host hash) m call ret m' ∧ RefinesMap host hash' m' ∧
      hash'.freeValue = hash.freeValue ∧
      (hash.freeValue = true →
        (gone ++ hash'.values).Perm (storedBy call ret ++ hash.values)) := by
  obtain ⟨hv, hl⟩ := h
  cases call with
  | add key value realloc =>
    rcases hashAdd_cases hv hroom key value realloc with ⟨hcall, rfl, hfull⟩ |
      ⟨hgrows, hash', hv', hfree, ⟨old, rest, hcall, hold, hnew⟩ | ⟨hcall, habsent, hnew⟩⟩
    · refine ⟨.code (-ENOMEM), hash, [], m, ?_, .addNoMemory hfull, ⟨hv, hl⟩, rfl,
        fun _ => List.Perm.refl _⟩
      rw [hashCall, hcall]
      rfl
    · refine ⟨.code 0, hash', freed hash old, m.insert key value, ?_, .add hgrows,
        ⟨hv', ((hl.perm hold.symm).replace).perm hnew⟩, hfree, fun hcb => ?_⟩
      · rw [hashCall, hcall]
        rfl
      · -- the old value goes, the new one stays
        have hnew' := (hnew.map HashEntry.value).cons old
        have hold' := (hold.map HashEntry.value).cons value
        rw [freed, if_pos hcb]
        exact hnew'.trans ((List.Perm.swap _ _ _).trans hold'.symm)
    · refine ⟨.code 0, hash', [], m.insert key value, ?_, .add hgrows,
        ⟨hv', (hl.insert habsent).perm hnew⟩,
        hfree, fun _ => hnew.map HashEntry.value⟩
      rw [hashCall, hcall]
      rfl
  | addUnique key value realloc =>
    rcases hashAddUnique_cases hv hroom key value realloc with ⟨hcall, rfl, hfull⟩ |
      ⟨hgrows, hash', hv', hfree, ⟨hcall, hexists, hsame⟩ | ⟨hcall, habsent, hnew⟩⟩
    · refine ⟨.code (-ENOMEM), hash, [], m, ?_, .addUniqueNoMemory hfull, ⟨hv, hl⟩, rfl,
        fun _ => List.Perm.refl _⟩
      rw [hashCall, hcall]
      rfl
    · refine ⟨.code (-EEXIST), hash', [], m, ?_, .exists hgrows ((hl.mem_keys key).mpr hexists),
        ⟨hv', hl.perm hsame⟩, hfree, fun _ => hsame.map HashEntry.value⟩
      rw [hashCall, hcall]
      rfl
    · refine ⟨.code 0, hash', [], m.insert key value, ?_, .addUnique hgrows (hl.not_mem habsent),
        ⟨hv', (hl.insert habsent).perm hnew⟩, hfree, fun _ => hnew.map HashEntry.value⟩
      rw [hashCall, hcall]
      rfl
  | del key realloc =>
    rcases hashDel_cases hv key realloc with ⟨habsent, hcall⟩ |
      ⟨hash', old, hv', hfree, hcall, hold⟩
    · refine ⟨.code (-ENOENT), hash, [], m, ?_, .missing (hl.not_mem habsent), ⟨hv, hl⟩, rfl,
        fun _ => List.Perm.refl _⟩
      rw [hashCall, hcall]
      rfl
    · have hfront := hl.perm hold.symm
      refine ⟨.code 0, hash', freed hash old, m.erase key, ?_,
        .del ((hfront.mem_keys key).mpr ⟨_, List.mem_cons_self .., rfl⟩),
          ⟨hv', hfront.erase⟩, hfree,
        fun hcb => ?_⟩
      · rw [hashCall, hcall]
        rfl
      · rw [freed, if_pos hcb]
        exact (hold.map HashEntry.value).symm
  | find key =>
    refine ⟨.value ((m.lookup key).getD null), hash, [], m, ?_, .find, ⟨hv, hl⟩, rfl,
      fun _ => List.Perm.refl _⟩
    rw [hashCall, RefinesMap.hashFind_eq ⟨hv, hl⟩]
    rfl
  | iterate =>
    refine ⟨.entries hash.contents, hash, [], m, ?_, .iterate hl, ⟨hv, hl⟩, rfl,
      fun _ => List.Perm.refl _⟩
    rw [hashCall, hashIterLoop_contents hv]
    rfl

/-- **A sequence of calls**, from any table that refines a map. -/
theorem hashRun_refines {host : Host} (null : V) (calls : List (HashCall V)) :
    ∀ {hash : Hash V} {m : StrMap V}, RefinesMap host hash m →
      (∀ before, before <+: calls → ∀ rets hash' gone,
        hashRun host null hash before = .ok (rets, hash', gone) →
          hash'.contents.length < MAX_KEYS) →
      ∃ rets hash' gone m', hashRun host null hash calls = .ok (rets, hash', gone) ∧
        MapRun host null hash m calls rets m' ∧ RefinesMap host hash' m' ∧
        hash'.freeValue = hash.freeValue ∧
        (hash.freeValue = true →
          (gone ++ hash'.values).Perm (storedValues calls rets ++ hash.values)) := by
  induction calls with
  | nil =>
    intro hash m h _
    exact ⟨[], hash, [], m, rfl, .nil, h, rfl, fun _ => List.Perm.refl _⟩
  | cons call calls ih =>
    intro hash m h hroom
    obtain ⟨ret, hash₁, gone₁, m₁, hcall, hstep, h₁, hfree₁, hledger₁⟩ :=
      hashCall_refines null h (hroom [] (List.nil_prefix) [] hash [] rfl) call
    have hroom₁ : ∀ before, before <+: calls → ∀ rets hash' gone,
        hashRun host null hash₁ before = .ok (rets, hash', gone) →
            hash'.contents.length < MAX_KEYS := by
      intro before hpre rets hash' gone hrun
      refine hroom (call :: before) (List.cons_prefix_cons.mpr ⟨rfl, hpre⟩) (ret :: rets) hash'
        (gone₁ ++ gone) ?_
      rw [hashRun, hcall, ok_bind]
      show (hashRun host null hash₁ before >>= _) = _
      rw [hrun]
      rfl
    obtain ⟨rets, hash', gone, m', hrun, hmap, h', hfree, hledger⟩ := ih h₁ hroom₁
    refine ⟨ret :: rets, hash', gone₁ ++ gone, m', ?_, .cons hcall hstep hmap, h', hfree.trans hfree₁,
      fun hcb => ?_⟩
    · rw [hashRun, hcall, ok_bind]
      show (hashRun host null hash₁ calls >>= _) = _
      rw [hrun]
      rfl
    · -- the ledgers of the call and of the rest
      have h1 := hledger₁ hcb
      have h2 := hledger (hfree₁.trans hcb)
      rw [List.append_assoc]
      refine (h2.append_left gone₁).trans ?_
      rw [← List.append_assoc]
      refine (List.perm_append_comm.append_right _).trans ?_
      rw [List.append_assoc]
      refine (h1.append_left _).trans ?_
      rw [← List.append_assoc]
      exact List.perm_append_comm.append_right _

/--
**A hash table is a finite map.** From a new table on, and as long as it holds fewer than
`MAX_KEYS` keys, every sequence of calls runs without a fault, and each call returns what it
does for the finite map, or `-ENOMEM` if the key's bucket is full and cannot grow. The number
of keys is counted, and if there is a callback, `hash_free` leaves every stored value handed to
it exactly once.
-/
theorem hash_refines_map (host : Host) (null : V) {nBuckets : Nat} {freeValue : Bool}
    {hash : Hash V}
    (hnew : hashNew nBuckets freeValue = some hash) (calls : List (HashCall V))
    (hroom : ∀ before, before <+: calls → ∀ rets hash' gone,
      hashRun host null hash before = .ok (rets, hash', gone) → hash'.contents.length < MAX_KEYS) :
    ∃ rets hash' gone m, hashRun host null hash calls = .ok (rets, hash', gone) ∧
      MapRun host null hash ∅ calls rets m ∧ hashGetCount hash' = m.keys.card ∧
      (freeValue = true → (gone ++ hashFree hash').Perm (storedValues calls rets)) := by
  obtain ⟨hv, hempty, hfree⟩ := hashNew_valid host hnew
  have hstart : RefinesMap host hash ∅ := by
    refine ⟨hv, ?_⟩
    rw [hempty]
    exact ⟨List.nodup_nil, by simp⟩
  obtain ⟨rets, hash', gone, m, hrun, hmap, h', hfree', hledger⟩ :=
    hashRun_refines null calls hstart hroom
  have hsmall := hroom calls (List.prefix_refl _) rets hash' gone hrun
  refine ⟨rets, hash', gone, m, hrun, hmap, ?_, fun hcb => ?_⟩
  · have hmax : MAX_KEYS < 2 ^ 32 := by decide
    show hash'.count = _
    rw [h'.valid.count, h'.lists.card_keys]
    exact Nat.mod_eq_of_lt (by omega)
  · have hvalues : hash.values = [] := by rw [Hash.values, hempty]; rfl
    have hledger' := hledger (hfree.trans hcb)
    rw [hvalues, List.append_nil] at hledger'
    rw [hashFree_eq (hfree'.trans (hfree.trans hcb))]
    exact hledger'

/-- A table with two buckets and a callback. -/
def twoBuckets : Hash Nat := ⟨0, 4, 2, true, [⟨[], 0⟩, ⟨[], 0⟩]⟩

/-- A value is replaced, a key is refused, and the key is deleted. -/
def sampleCalls : List (HashCall Nat) :=
  [.add (cstr "a") 1 true, .add (cstr "a") 2 true, .addUnique (cstr "a") 3 true, .iterate,
    .del (cstr "a") true, .find (cstr "a")]

theorem hash_refines_map_sample :
    hashNew 2 true = some twoBuckets ∧
      ∃ rets hash' gone m, hashRun littleHost 0 twoBuckets sampleCalls = .ok (rets, hash', gone) ∧
        MapRun littleHost 0 twoBuckets ∅ sampleCalls rets m ∧ hashGetCount hash' = m.keys.card ∧
        (gone ++ hashFree hash').Perm (storedValues sampleCalls rets) := by
  have hsmall : ∀ before ∈ sampleCalls.inits, ∀ out ∈ (hashRun littleHost 0 twoBuckets before).toOption,
      out.2.1.contents.length < MAX_KEYS := by
    decide +kernel
  obtain ⟨rets, hash', gone, m, hrun, hmap, hcount, hledger⟩ := hash_refines_map littleHost 0
    (show hashNew 2 true = some twoBuckets by decide) sampleCalls (by
      intro before hpre rets hash' gone hrun
      refine hsmall before (List.mem_inits _ _ |>.mpr hpre) (rets, hash', gone) ?_
      rw [hrun]
      rfl)
  exact ⟨by decide, rets, hash', gone, m, hrun, hmap, hcount, hledger rfl⟩

/-! ## What memory and counters change -/

/-- The counter has 32 bits. -/
theorem hashAdd_count_lt {host : Host} {hash hash' : Hash V} {key : CStr} {value : V}
    {realloc : Bool}
    {r : Int} {gone : List V} (hc : hash.count < 2 ^ 32)
    (h : hashAdd host hash key value realloc = .ok (r, hash', gone)) : hash'.count < 2 ^ 32 := by
  obtain ⟨bucket, -, h⟩ := ok_of_bind h
  obtain ⟨reserved, -, h⟩ := ok_of_bind h
  cases reserved with
  | none =>
    cases h
    exact hc
  | some bucket =>
    dsimp only at h
    split at h
    · obtain ⟨entry, -, h⟩ := ok_of_bind h
      cases h
      exact hc
    · obtain ⟨hash₁, h₁, h⟩ := ok_of_bind h
      cases h
      unfold hashInsertAt at h₁
      split at h₁
      · rw [← Except.ok.inj h₁]
        exact Nat.mod_lt _ (Nat.two_pow_pos 32)
      · cases h₁

theorem hashRun_adds_count_lt {host : Host} {null : V} (keys : List CStr) (value : V) :
    ∀ {hash hash' : Hash V} {rets gone}, hash.count < 2 ^ 32 →
      hashRun host null hash (keys.map (fun key => .add key value true)) = .ok (rets, hash', gone) →
      hash'.count < 2 ^ 32 := by
  induction keys with
  | nil =>
    intro hash hash' rets gone hc h
    cases h
    exact hc
  | cons key keys ih =>
    intro hash hash' rets gone hc h
    obtain ⟨⟨ret, hash₁, gone₁⟩, h₁, h⟩ := ok_of_bind h
    obtain ⟨⟨rets₂, hash₂, gone₂⟩, h₂, h⟩ := ok_of_bind h
    cases h
    obtain ⟨⟨r, hash₀, gone₀⟩, h₀, h₁⟩ := ok_of_bind h₁
    cases h₁
    exact ih (hashAdd_count_lt hc h₀) h₂

/-- A key for each number below `2 ^ 32`: its bits, as letters. -/
def bitKey (i : Nat) : CStr := (List.range 32).map (fun b => if i.testBit b then 98 else 97)

def allBitKeys : List CStr := (List.range (2 ^ 32)).map bitKey

theorem allBitKeys_nodup : allBitKeys.Nodup := by
  refine List.Nodup.map_on ?_ List.nodup_range
  intro i hi j hj heq
  rw [List.mem_range] at hi hj
  refine Nat.eq_of_testBit_eq (fun b => ?_)
  by_cases hb : b < 32
  · have hbit := List.map_inj_left.mp heq b (List.mem_range.mpr hb)
    cases hi' : i.testBit b <;> cases hj' : j.testBit b <;> simp [hi', hj'] at hbit ⊢
  · have hpow : 2 ^ 32 ≤ 2 ^ b := Nat.pow_le_pow_right (by decide) (by omega)
    rw [Nat.testBit_lt_two_pow (by omega), Nat.testBit_lt_two_pow (by omega)]

/--
A key that is there is refused with `-ENOMEM` if its bucket is full and cannot grow; and
with `2 ^ 32` keys their number is not counted.
-/
theorem hashAddUnique_noMemory :
    (hashRun littleHost 0 twoBuckets [.add (cstr "b") 1 true, .add (cstr "c") 2 true,
        .add (cstr "d") 3 true, .find (cstr "b"), .addUnique (cstr "b") 4 false]).map Prod.fst
      = .ok [.code 0, .code 0, .code 0, .value 1, .code (-ENOMEM)] ∧
    allBitKeys.Nodup ∧ ∀ rets hash' gone,
      hashRun littleHost 0 twoBuckets (allBitKeys.map (fun key => .add key 0 true))
        = .ok (rets, hash', gone) → hashGetCount hash' ≠ allBitKeys.length := by
  refine ⟨by decide +kernel, allBitKeys_nodup, fun rets hash' gone h => ?_⟩
  have hcount := hashRun_adds_count_lt allBitKeys 0 (Nat.two_pow_pos 32) h
  have hlen : allBitKeys.length = 2 ^ 32 := (List.length_map _).trans List.length_range
  rw [hlen]
  exact Nat.ne_of_lt hcount

end Kmod
