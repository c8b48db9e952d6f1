import Kmod.Shared.Hash
import Mathlib.Data.List.Nodup

/-!
# What the operations of a hash table do

The invariant of a table is `Hash.Valid`: the keys of a bucket belong there and are
strictly increasing, and a bucket holds no more than is allocated of it. For a valid
table every operation is described by what it does to the list of all entries
(`Hash.contents`), up to a permutation; that no access is out of bounds is part of it.
-/

namespace Kmod

open SortedTable

variable {V : Type}

/-! ## Valid tables -/

/-- All entries, bucket by bucket. -/
def Hash.contents (hash : Hash V) : List (HashEntry V) := hash.buckets.flatMap HashBucket.entries

/-- What holds of the bucket at position `i`. -/
structure BucketValid (host : Host) (hash : Hash V) (i : Nat) (bucket : HashBucket V) : Prop where
  sorted : Sorted strcmp HashEntry.key bucket.entries
  fits : bucket.entries.length ≤ bucket.total
  small : bucket.total < 2 ^ 32
  placed : ∀ e ∈ bucket.entries, hashPos host hash e.key = i

structure Hash.Valid (host : Host) (hash : Hash V) : Prop where
  buckets_pos : 0 < hash.nBuckets
  length : hash.buckets.length = hash.nBuckets
  step_pos : 0 < hash.step
  step_le : hash.step ≤ 64
  bucket : ∀ i bucket, hash.buckets[i]? = some bucket → BucketValid host hash i bucket
  count : hash.count = hash.contents.length % 2 ^ 32

/-- Below this number of keys no counter overflows. -/
def MAX_KEYS : Nat := 2 ^ 32 - 65

theorem step_bounds (n : Nat) :
    0 < (if n / 32 < 4 then 4 else if n / 32 > 64 then 64 else n / 32) ∧
      (if n / 32 < 4 then 4 else if n / 32 > 64 then 64 else n / 32) ≤ 64 := by
  split
  · omega
  · split <;> omega

/-- A new table is valid and empty. -/
theorem hashNew_valid (host : Host) {n : Nat} {freeValue : Bool} {hash : Hash V}
    (h : hashNew n freeValue = some hash) :
    hash.Valid host ∧ hash.contents = [] ∧ hash.freeValue = freeValue := by
  obtain ⟨k, hk, rfl⟩ := Option.map_eq_some_iff.mp h
  have hpos : 0 < k := by
    unfold alignPower2 at hk
    dsimp only at hk
    split at hk
    · cases hk
    · rw [← Option.some.inj hk]
      exact Nat.two_pow_pos _
  have hempty : ∀ m, (List.replicate m (⟨[], 0⟩ : HashBucket V)).flatMap HashBucket.entries = [] := by
    intro m
    rw [List.flatMap_eq_nil_iff]
    intro b hb
    rw [List.eq_of_mem_replicate hb]
  obtain ⟨hstep, hstep'⟩ := step_bounds k
  refine ⟨⟨hpos, List.length_replicate, hstep, hstep', ?_, ?_⟩, hempty k, rfl⟩
  · intro i bucket hb
    rw [List.eq_of_mem_replicate (List.mem_of_getElem? hb)]
    exact ⟨List.Pairwise.nil, Nat.le_refl 0, Nat.two_pow_pos 32, by simp⟩
  · show 0 = (List.flatMap _ _).length % 2 ^ 32
    rw [hempty k]
    rfl

section Valid

variable {host : Host} {hash : Hash V}

/-- There is a bucket for every key. -/
theorem Hash.Valid.bucketFor (hv : hash.Valid host) (key : CStr) :
    ∃ bucket, hash.buckets[hashPos host hash key]? = some bucket ∧
      BucketValid host hash (hashPos host hash key) bucket := by
  have hlt : hashPos host hash key < hash.buckets.length := by
    have hle : hashPos host hash key ≤ hash.nBuckets - 1 := Nat.and_le_right
    have := hv.buckets_pos
    rw [hv.length]
    omega
  exact ⟨_, List.getElem?_eq_getElem hlt, hv.bucket _ _ (List.getElem?_eq_getElem hlt)⟩

/-- The table with another bucket at a position. -/
def Hash.setBucket (hash : Hash V) (i : Nat) (bucket : HashBucket V) (count : Nat) : Hash V :=
  { hash with count, buckets := hash.buckets.set i bucket }

theorem Hash.setBucket_freeValue (hash : Hash V) (i : Nat) (bucket : HashBucket V) (count : Nat) :
    (hash.setBucket i bucket count).freeValue = hash.freeValue := rfl

/-- The contents besides one bucket stay when the bucket is replaced. -/
theorem Hash.Valid.setBucket (hv : hash.Valid host) {i : Nat} {bucket : HashBucket V}
    (hb : hash.buckets[i]? = some bucket) :
    ∃ others, hash.contents.Perm (bucket.entries ++ others) ∧
      (∀ e ∈ others, hashPos host hash e.key ≠ i) ∧
      ∀ bucket' count, BucketValid host hash i bucket' →
        count = (bucket'.entries ++ others).length % 2 ^ 32 →
        (hash.setBucket i bucket' count).Valid host ∧
          (hash.setBucket i bucket' count).contents.Perm (bucket'.entries ++ others) := by
  obtain ⟨hi, rfl⟩ := List.getElem?_eq_some_iff.mp hb
  have hcut : ∀ b, ((hash.buckets.take i ++ b :: hash.buckets.drop (i + 1)).flatMap
      HashBucket.entries).Perm (b.entries ++ (hash.buckets.take i ++ hash.buckets.drop (i + 1)).flatMap
        HashBucket.entries) := by
    intro b
    rw [List.flatMap_append, List.flatMap_cons, List.flatMap_append, ← List.append_assoc,
      ← List.append_assoc]
    exact List.Perm.append_right _ List.perm_append_comm
  refine ⟨(hash.buckets.take i ++ hash.buckets.drop (i + 1)).flatMap HashBucket.entries, ?_, ?_, ?_⟩
  · have h := hcut hash.buckets[i]
    rw [List.getElem_cons_drop, List.take_append_drop] at h
    exact h
  · -- an entry elsewhere belongs to another bucket
    intro e he
    obtain ⟨b, hbmem, hmem⟩ := List.mem_flatMap.mp he
    rcases List.mem_append.mp hbmem with hbmem | hbmem
    · obtain ⟨j, hj, rfl⟩ := List.mem_take_iff_getElem.mp hbmem
      rw [(hv.bucket j _ (List.getElem?_eq_getElem (by omega))).placed e hmem]
      omega
    · obtain ⟨j, hj, rfl⟩ := List.mem_drop_iff_getElem.mp hbmem
      rw [(hv.bucket _ _ (List.getElem?_eq_getElem (by omega))).placed e hmem]
      omega
  · intro bucket' count hok hcount
    have hset : hash.buckets.set i bucket' = hash.buckets.take i ++
        bucket' :: hash.buckets.drop (i + 1) := by
      rw [List.set_eq_take_append_cons_drop, if_pos hi]
    have hperm : (hash.setBucket i bucket' count).contents.Perm (bucket'.entries ++
        (hash.buckets.take i ++ hash.buckets.drop (i + 1)).flatMap HashBucket.entries) := by
      show ((hash.buckets.set i bucket').flatMap HashBucket.entries).Perm _
      rw [hset]
      exact hcut bucket'
    refine ⟨⟨hv.buckets_pos, ?_, hv.step_pos, hv.step_le, ?_, ?_⟩, hperm⟩
    · exact (List.length_set ..).trans hv.length
    · intro j b hj
      have hj' : (hash.buckets.set i bucket')[j]? = some b := hj
      by_cases hij : i = j
      · subst hij
        rw [List.getElem?_set_self hi] at hj'
        obtain rfl := Option.some.inj hj'
        exact ⟨hok.sorted, hok.fits, hok.small, hok.placed⟩
      · rw [List.getElem?_set_ne hij] at hj'
        have hold := hv.bucket j b hj'
        exact ⟨hold.sorted, hold.fits, hold.small, hold.placed⟩
    · rw [hperm.length_eq]
      exact hcount

/-! ## What the operations do -/

theorem BucketValid.length_le (hv : hash.Valid host) {i : Nat} {bucket : HashBucket V}
    (hb : hash.buckets[i]? = some bucket) : bucket.entries.length ≤ hash.contents.length := by
  obtain ⟨others, hperm, _⟩ := hv.setBucket hb
  rw [hperm.length_eq, List.length_append]
  omega

/-- There is no room for one more entry in the bucket for a key. -/
def bucketFull (host : Host) (hash : Hash V) (key : CStr) : Bool :=
  hash.buckets[hashPos host hash key]?.any (fun bucket => bucket.entries.length + 1 ≥ bucket.total)

/-- There is room for an entry, unless the bucket is full and `realloc` fails. -/
theorem hashReserve_cases (hv : hash.Valid host) (hroom : hash.contents.length < MAX_KEYS) {i : Nat}
    {bucket : HashBucket V} (hb : hash.buckets[i]? = some bucket) (realloc : Bool) :
    (hashReserve hash bucket realloc = .ok none ∧ realloc = false ∧
        bucket.entries.length + 1 ≥ bucket.total) ∨
      ((bucket.entries.length + 1 ≥ bucket.total → realloc = true) ∧
        ∃ total, hashReserve hash bucket realloc = .ok (some { bucket with total }) ∧
          BucketValid host hash i { bucket with total } ∧ bucket.entries.length < total) := by
  have hok := hv.bucket i bucket hb
  have hlen := BucketValid.length_le hv hb
  have hfits := hok.fits
  have hstep := hv.step_pos
  have hstep' := hv.step_le
  have hmax : MAX_KEYS = 2 ^ 32 - 65 := rfl
  unfold hashReserve
  by_cases hfull : bucket.entries.length + 1 ≥ bucket.total
  · have hwrap : (bucket.total + hash.step) % 2 ^ 32 = bucket.total + hash.step :=
      Nat.mod_eq_of_lt (by omega)
    rw [if_pos hfull, hwrap, if_neg (by omega)]
    cases realloc with
    | false => exact .inl ⟨rfl, rfl, hfull⟩
    | true =>
      refine .inr ⟨fun _ => rfl, bucket.total + hash.step, rfl, ⟨hok.sorted, ?_, ?_, hok.placed⟩,
        by omega⟩
      · show bucket.entries.length ≤ bucket.total + hash.step
        omega
      · show bucket.total + hash.step < 2 ^ 32
        omega
  · rw [if_neg hfull]
    exact .inr ⟨fun h => absurd h hfull, bucket.total, rfl, hok, by omega⟩

theorem bucketFull_iff {key : CStr} {bucket : HashBucket V}
    (hb : hash.buckets[hashPos host hash key]? = some bucket) :
    bucketFull host hash key = true ↔ bucket.entries.length + 1 ≥ bucket.total := by
  simp [bucketFull, hb]

/-- The table has one more entry. -/
theorem hashInsertAt_ok (value : V) (hv : hash.Valid host) {key : CStr} {bucket : HashBucket V}
    {total : Nat} (hb : hash.buckets[hashPos host hash key]? = some bucket)
    (hok : BucketValid host hash (hashPos host hash key) { bucket with total })
    (hlt : bucket.entries.length < total) {before rest : List (HashEntry V)}
    (hentries : bucket.entries = before ++ rest)
    (hbefore : ∀ x ∈ before, strcmp x.key key < 0) (hrest : ∀ x ∈ rest, strcmp key x.key < 0) :
    ∃ hash', hashInsertAt hash (hashPos host hash key)
      { bucket with total } before.length ⟨key, value⟩
        = .ok hash' ∧ hash'.Valid host ∧ hash'.freeValue = hash.freeValue ∧
      (∀ e ∈ hash.contents, e.key ≠ key) ∧ hash'.contents.Perm (⟨key, value⟩ :: hash.contents) := by
  obtain ⟨others, hperm, hothers, hset⟩ := hv.setBucket hb
  have hlen : bucket.entries.length = before.length + rest.length := by
    rw [hentries, List.length_append]
  have hnew : BucketValid host hash (hashPos host hash key)
      ⟨before ++ ⟨key, value⟩ :: rest, total⟩ := by
    refine ⟨sorted_insert (k := key) rfl (hentries ▸ hok.sorted) hbefore hrest, ?_, hok.small, ?_⟩
    · show (before ++ ⟨key, value⟩ :: rest).length ≤ total
      rw [List.length_append, List.length_cons]
      omega
    · intro e he
      rcases List.mem_append.mp he with he | he
      · exact hok.placed e (by rw [hentries]; exact List.mem_append_left _ he)
      · rcases List.mem_cons.mp he with rfl | he
        · rfl
        · exact hok.placed e (by rw [hentries]; exact List.mem_append_right _ he)
  have hmove : (before ++ ⟨key, value⟩ :: rest ++ others).Perm (⟨key, value⟩ :: hash.contents) := by
    refine (List.Perm.append_right others List.perm_middle).trans (List.Perm.cons _ ?_)
    rw [← hentries]
    exact hperm.symm
  obtain ⟨hvalid, hcontents⟩ := hset ⟨before ++ ⟨key, value⟩ :: rest, total⟩
    ((hash.count + 1) % 2 ^ 32) hnew (by
      rw [hmove.length_eq, hv.count, List.length_cons]
      omega)
  refine ⟨_, ?_, hvalid, rfl, ?_, hcontents.trans hmove⟩
  · unfold hashInsertAt
    rw [if_pos hlt]
    show Except.ok { hash with count := _, buckets := hash.buckets.set _ ⟨bucket.entries.take _ ++ _ ::
      bucket.entries.drop _, total⟩ } = _
    rw [hentries, List.take_left, List.drop_left]
    rfl
  · -- smaller keys, larger keys, and keys of other buckets
    intro e he
    rcases List.mem_append.mp (hperm.subset he) with he | he
    · rw [hentries] at he
      rcases List.mem_append.mp he with he | he
      · exact strcmp_comparison.ne (hbefore e he)
      · exact (strcmp_comparison.ne (hrest e he)).symm
    · rintro rfl
      exact hothers e he rfl

/-- An entry of a bucket, in front of all that is in the table. -/
theorem perm_of_split {bucket : HashBucket V} {before rest others : List (HashEntry V)}
    {a : HashEntry V}
    (hperm : hash.contents.Perm (bucket.entries ++ others))
    (hentries : bucket.entries = before ++ a :: rest) :
    hash.contents.Perm (a :: (before ++ rest ++ others)) := by
  rw [hentries] at hperm
  exact hperm.trans (List.Perm.append_right others List.perm_middle)

/--
**Adding an entry** is refused for want of memory if the bucket is full and cannot grow, and
otherwise replaces the value of the key, or adds a key that was not there.
-/
theorem hashAdd_cases (hv : hash.Valid host) (hroom : hash.contents.length < MAX_KEYS) (key : CStr)
    (value : V) (realloc : Bool) :
    (hashAdd host hash key value realloc = .ok (-ENOMEM, hash, []) ∧ realloc = false ∧
        bucketFull host hash key = true) ∨
      (bucketFull host hash key = true → realloc = true) ∧
      ∃ hash', hash'.Valid host ∧ hash'.freeValue = hash.freeValue ∧
        ((∃ old rest, hashAdd host hash key value realloc = .ok (0, hash', freed hash old) ∧
            hash.contents.Perm (⟨key, old⟩ :: rest) ∧ hash'.contents.Perm (⟨key, value⟩ :: rest)) ∨
          (hashAdd host hash key value realloc = .ok (0, hash', []) ∧
            (∀ e ∈ hash.contents, e.key ≠ key) ∧
            hash'.contents.Perm (⟨key, value⟩ :: hash.contents))) := by
  obtain ⟨bucket, hb, _⟩ := hv.bucketFor key
  rcases hashReserve_cases hv hroom hb realloc with
    ⟨hres, hfail, hfull⟩ | ⟨hgrows, total, hres, hok, hlt⟩
  · refine .inl ⟨?_, hfail, (bucketFull_iff hb).mpr hfull⟩
    simp only [hashAdd, hb, inBlock_some, ok_bind, hres]
  · refine .inr ⟨fun hfull => hgrows ((bucketFull_iff hb).mp hfull), ?_⟩
    rcases scan_cases strcmp_comparison (k := key) hok.sorted with
      ⟨before, a, rest, hentries, hkey, hscan⟩ | ⟨before, rest, hentries, hscan, hbefore, hrest⟩
    · -- the key is there: its entry is overwritten
      obtain ⟨others, hperm, -, hset⟩ := hv.setBucket hb
      have hentries' : bucket.entries = before ++ a :: rest := hentries
      have hnew : BucketValid host hash (hashPos host hash key)
          ⟨before ++ ⟨key, value⟩ :: rest, total⟩ := by
        refine ⟨sorted_replace hkey (hentries' ▸ hok.sorted), ?_, hok.small, ?_⟩
        · show (before ++ ⟨key, value⟩ :: rest).length ≤ total
          have hfits := hok.fits
          rw [hentries', List.length_append, List.length_cons] at hfits
          rw [List.length_append, List.length_cons]
          exact hfits
        · intro e he
          rcases List.mem_append.mp he with he | he
          · exact hok.placed e (by rw [hentries']; exact List.mem_append_left _ he)
          · rcases List.mem_cons.mp he with rfl | he
            · rfl
            · exact hok.placed e (by rw [hentries']; simp [he])
      have hfront := perm_of_split hperm hentries'
      obtain ⟨hvalid, hcontents⟩ := hset ⟨before ++ ⟨key, value⟩ :: rest, total⟩ hash.count hnew (by
        rw [hv.count, hfront.length_eq]
        refine congrArg (· % 2 ^ 32) ?_
        simp only [List.length_cons, List.length_append]
        omega)
      refine ⟨_, hvalid, rfl, .inl ⟨a.value, before ++ rest ++ others, ?_, ?_, ?_⟩⟩
      · have hget : bucket.entries[before.length]? = some a := by simp [hentries']
        have hput : bucket.entries.set before.length ⟨key, value⟩
            = before ++ ⟨key, value⟩ :: rest := by simp [hentries']
        simp only [hashAdd, hb, inBlock_some, ok_bind, hres, hscan, if_true, hget, hput]
        rfl
      · rw [← hkey]
        exact hfront
      · exact hcontents.trans (List.Perm.append_right others List.perm_middle)
    · obtain ⟨hash', hins, hvalid, hfree, habsent, hcontents⟩ :=
        hashInsertAt_ok value hv hb hok hlt hentries hbefore hrest
      refine ⟨hash', hvalid, hfree, .inr ⟨?_, habsent, hcontents⟩⟩
      simp only [hashAdd, hb, inBlock_some, ok_bind, hres, hscan, Bool.false_eq_true,
        if_false, hins]

/--
**Adding a key that must be new** is refused for want of memory if the bucket is full and cannot
grow, whether the key is there or not.
-/
theorem hashAddUnique_cases (hv : hash.Valid host)
    (hroom : hash.contents.length < MAX_KEYS) (key : CStr)
    (value : V) (realloc : Bool) :
    (hashAddUnique host hash key value realloc = .ok (-ENOMEM, hash) ∧ realloc = false ∧
        bucketFull host hash key = true) ∨
      (bucketFull host hash key = true → realloc = true) ∧
      ∃ hash', hash'.Valid host ∧ hash'.freeValue = hash.freeValue ∧
        ((hashAddUnique host hash key value realloc = .ok (-EEXIST, hash') ∧
            (∃ e ∈ hash.contents, e.key = key) ∧ hash'.contents.Perm hash.contents) ∨
          (hashAddUnique host hash key value realloc = .ok (0, hash') ∧
            (∀ e ∈ hash.contents, e.key ≠ key) ∧
            hash'.contents.Perm (⟨key, value⟩ :: hash.contents))) := by
  obtain ⟨bucket, hb, _⟩ := hv.bucketFor key
  rcases hashReserve_cases hv hroom hb realloc with
    ⟨hres, hfail, hfull⟩ | ⟨hgrows, total, hres, hok, hlt⟩
  · refine .inl ⟨?_, hfail, (bucketFull_iff hb).mpr hfull⟩
    simp only [hashAddUnique, hb, inBlock_some, ok_bind, hres]
  · refine .inr ⟨fun hfull => hgrows ((bucketFull_iff hb).mp hfull), ?_⟩
    rcases scan_cases strcmp_comparison (k := key) hok.sorted with
      ⟨before, a, rest, hentries, hkey, hscan⟩ | ⟨before, rest, hentries, hscan, hbefore, hrest⟩
    · -- the bucket may have grown, but it has the same entries
      obtain ⟨others, hperm, -, hset⟩ := hv.setBucket hb
      obtain ⟨hvalid, hcontents⟩ := hset { bucket with total } hash.count hok (by
        rw [hv.count, hperm.length_eq])
      refine ⟨_, hvalid, rfl, .inl ⟨?_, ⟨a, ?_, hkey⟩, hcontents.trans hperm.symm⟩⟩
      · simp only [hashAddUnique, hb, inBlock_some, ok_bind, hres, hscan, if_true]
        rfl
      · refine hperm.symm.subset (List.mem_append_left _ ?_)
        have hentries' : bucket.entries = before ++ a :: rest := hentries
        rw [hentries']
        simp
    · obtain ⟨hash', hins, hvalid, hfree, habsent, hcontents⟩ :=
        hashInsertAt_ok value hv hb hok hlt hentries hbefore hrest
      refine ⟨hash', hvalid, hfree, .inr ⟨?_, habsent, hcontents⟩⟩
      simp only [hashAddUnique, hb, inBlock_some, ok_bind, hres, hscan,
        Bool.false_eq_true, if_false,
        hins]

/-- The bucket for a key decides whether the table has it. -/
theorem key_ne_of_bucket {key : CStr} {bucket : HashBucket V} {others : List (HashEntry V)}
    (hperm : hash.contents.Perm (bucket.entries ++ others))
    (hothers : ∀ e ∈ others, hashPos host hash e.key ≠ hashPos host hash key)
    (h : ∀ e ∈ bucket.entries, e.key ≠ key) : ∀ e ∈ hash.contents, e.key ≠ key := by
  intro e he
  rcases List.mem_append.mp (hperm.subset he) with he | he
  · exact h e he
  · rintro rfl
    exact hothers e he rfl

/-- Where nothing is allocated, there are no entries. -/
theorem BucketValid.entries_nil {i : Nat} {bucket : HashBucket V}
    (hok : BucketValid host hash i bucket)
    (h : bucket.total = 0) : bucket.entries = [] := by
  have hfits := hok.fits
  rw [h] at hfits
  exact List.eq_nil_of_length_eq_zero (Nat.le_zero.mp hfits)

/-- **Finding a key.** -/
theorem hashFind_cases (hv : hash.Valid host) (null : V) (key : CStr) :
    (∃ e ∈ hash.contents, e.key = key ∧ hashFind host null hash key = .ok e.value) ∨
      ((∀ e ∈ hash.contents, e.key ≠ key) ∧ hashFind host null hash key = .ok null) := by
  obtain ⟨bucket, hb, hok⟩ := hv.bucketFor key
  obtain ⟨others, hperm, hothers, -⟩ := hv.setBucket hb
  by_cases htotal : bucket.total = 0
  · refine .inr ⟨key_ne_of_bucket hperm hothers (by simp [hok.entries_nil htotal]), ?_⟩
    simp only [hashFind, hb, inBlock_some, ok_bind, htotal, if_true]
  · rcases bsearch_cases strcmp_comparison (k := key) hok.sorted with
      ⟨before, a, rest, hentries, hkey, hfound⟩ | ⟨hfound, habsent⟩
    · refine .inl ⟨a, hperm.symm.subset (by simp [hentries]), hkey, ?_⟩
      have hget : bucket.entries[before.length]? = some a := by simp [hentries]
      simp only [hashFind, hb, inBlock_some, ok_bind, htotal, if_false, hfound, hget]
    · refine .inr ⟨key_ne_of_bucket hperm hothers habsent, ?_⟩
      simp only [hashFind, hb, inBlock_some, ok_bind, htotal, if_false, hfound]

/-- What is left allocated holds what is left. -/
theorem hashShrink_valid (hv : hash.Valid host) {i : Nat} {bucket : HashBucket V}
    (hok : BucketValid host hash i bucket) (realloc : Bool) :
    BucketValid host hash i (hashShrink hash bucket realloc) ∧
      (hashShrink hash bucket realloc).entries = bucket.entries := by
  unfold hashShrink
  dsimp only
  split
  · next hless =>
    have hstep := hv.step_pos
    refine ⟨⟨hok.sorted, ?_, ?_, hok.placed⟩, rfl⟩
    · show bucket.entries.length ≤ (bucket.entries.length / hash.step + 1) * hash.step
      exact Nat.le_of_lt (Nat.lt_mul_of_div_lt (Nat.lt_succ_self _) hstep)
    · show (bucket.entries.length / hash.step + 1) * hash.step < 2 ^ 32
      refine Nat.lt_of_le_of_lt ?_ hok.small
      exact (Nat.mul_le_mul_right _ (Nat.le_of_lt hless.1)).trans (Nat.div_mul_le_self _ _)
  · exact ⟨hok, rfl⟩

/-- **Deleting a key.** -/
theorem hashDel_cases (hv : hash.Valid host) (key : CStr) (realloc : Bool) :
    ((∀ e ∈ hash.contents, e.key ≠ key) ∧ hashDel host hash key realloc = .ok (-ENOENT, hash, [])) ∨
      ∃ hash' old, hash'.Valid host ∧ hash'.freeValue = hash.freeValue ∧
        hashDel host hash key realloc = .ok (0, hash', freed hash old) ∧
        hash.contents.Perm (⟨key, old⟩ :: hash'.contents) := by
  obtain ⟨bucket, hb, hok⟩ := hv.bucketFor key
  obtain ⟨others, hperm, hothers, hset⟩ := hv.setBucket hb
  by_cases htotal : bucket.total = 0
  · refine .inl ⟨key_ne_of_bucket hperm hothers (by simp [hok.entries_nil htotal]), ?_⟩
    simp only [hashDel, hb, inBlock_some, ok_bind, htotal, if_true]
  · rcases bsearch_cases strcmp_comparison (k := key) hok.sorted with
      ⟨before, a, rest, hentries, hkey, hfound⟩ | ⟨hfound, habsent⟩
    · have hleft : BucketValid host hash (hashPos host hash key)
        ⟨before ++ rest, bucket.total⟩ := by
        have hfits := hok.fits
        rw [hentries, List.length_append, List.length_cons] at hfits
        refine ⟨sorted_erase (hentries ▸ hok.sorted), ?_, hok.small, ?_⟩
        · show (before ++ rest).length ≤ bucket.total
          rw [List.length_append]
          omega
        · intro e he
          refine hok.placed e ?_
          rw [hentries]
          rcases List.mem_append.mp he with he | he
          · exact List.mem_append_left _ he
          · exact List.mem_append_right _ (List.mem_cons_of_mem _ he)
      obtain ⟨hshrunk, hsame⟩ := hashShrink_valid hv hleft realloc
      have hfront := perm_of_split hperm hentries
      obtain ⟨hvalid, hcontents⟩ := hset _ ((hash.count + 2 ^ 32 - 1) % 2 ^ 32) hshrunk (by
        rw [hv.count, hfront.length_eq, hsame, List.length_cons]
        show _ = (before ++ rest ++ others).length % 2 ^ 32
        omega)
      rw [hsame] at hcontents
      refine .inr ⟨_, a.value, hvalid, hash.setBucket_freeValue _ _ _, ?_, ?_⟩
      · have hget : bucket.entries[before.length]? = some a := by simp [hentries]
        have hcut : bucket.entries.take before.length ++ bucket.entries.drop (before.length + 1)
            = before ++ rest := by
          rw [hentries, List.take_left, ← List.drop_drop, List.drop_left]
          rfl
        simp only [hashDel, hb, inBlock_some, ok_bind, htotal, if_false, hfound, hget, hcut]
        rfl
      · have ha : a = ⟨key, a.value⟩ := by rw [← hkey]
        rw [← ha]
        exact hfront.trans (List.Perm.cons a hcontents.symm)
    · refine .inl ⟨key_ne_of_bucket hperm hothers habsent, ?_⟩
      simp only [hashDel, hb, inBlock_some, ok_bind, htotal, if_false, hfound]

/-! ## Iteration -/

/-- What an iteration has still to visit. -/
def leftToVisit (hash : Hash V) (bucket : HashBucket V) (iter : HashIter) : List (HashEntry V) :=
  bucket.entries.drop (iter.entry + 1).toNat ++
    (hash.buckets.drop (iter.bucket + 1)).flatMap HashBucket.entries

/-- The first bucket with entries, if there is one, holds the next entry. -/
theorem nextBucket_cases (buckets : List (HashBucket V)) (i : Nat) :
    (nextBucket buckets i = i + buckets.length ∧ buckets.flatMap HashBucket.entries = []) ∨
      ∃ j bucket e es, nextBucket buckets i = i + j ∧ buckets[j]? = some bucket ∧
        bucket.entries = e :: es ∧
        buckets.flatMap HashBucket.entries
          = e :: (es ++ (buckets.drop (j + 1)).flatMap HashBucket.entries) := by
  induction buckets generalizing i with
  | nil => exact .inl ⟨rfl, rfl⟩
  | cons b buckets ih =>
    unfold nextBucket
    cases hb : b.entries with
    | cons e es =>
      refine .inr ⟨0, b, e, es, ?_, rfl, hb, ?_⟩
      · rw [if_pos (by simp)]
        rfl
      · rw [List.flatMap_cons, hb]
        rfl
    | nil =>
      rw [if_neg (by simp), List.flatMap_cons, hb, List.nil_append]
      rcases ih (i + 1) with ⟨hnext, hnil⟩ | ⟨j, bucket, e, es, hnext, hget, hentries, hall⟩
      · exact .inl ⟨by rw [hnext, List.length_cons]; omega, hnil⟩
      · exact .inr ⟨j + 1, bucket, e, es, by rw [hnext]; omega, hget, hentries, hall⟩

/-- **A step of an iteration** returns the first entry that is left. -/
theorem hashIterNext_cases (hv : hash.Valid host) {iter : HashIter} {bucket : HashBucket V}
    (hb : hash.buckets[iter.bucket]? = some bucket) :
    (leftToVisit hash bucket iter = [] ∧ ∃ iter', hashIterNext hash iter = .ok (none, iter')) ∨
      ∃ e iter' bucket', hashIterNext hash iter = .ok (some e, iter') ∧
        hash.buckets[iter'.bucket]? = some bucket' ∧
        leftToVisit hash bucket iter = e :: leftToVisit hash bucket' iter' := by
  have hone : ((0 : UInt32) + 1).toNat = 1 := rfl
  by_cases hend : (iter.entry + 1).toNat ≥ bucket.entries.length
  · have hdrop : bucket.entries.drop (iter.entry + 1).toNat = [] := List.drop_of_length_le hend
    obtain ⟨hi, -⟩ := List.getElem?_eq_some_iff.mp hb
    have hlen := hv.length
    rcases nextBucket_cases (hash.buckets.drop (iter.bucket + 1)) (iter.bucket + 1) with
      ⟨hnext, hnil⟩ | ⟨j, bucket', e, es, hnext, hget, hentries, hall⟩
    · refine .inl ⟨by rw [leftToVisit, hdrop, hnil]; rfl,
        ⟨nextBucket (hash.buckets.drop (iter.bucket + 1)) (iter.bucket + 1), 0⟩, ?_⟩
      rw [List.length_drop] at hnext
      simp only [hashIterNext, hb, inBlock_some, ok_bind, if_pos hend]
      rw [if_pos (by omega)]
    · rw [List.getElem?_drop] at hget
      obtain ⟨hj, -⟩ := List.getElem?_eq_some_iff.mp hget
      refine .inr ⟨e, ⟨iter.bucket + 1 + j, 0⟩, bucket', ?_, hget, ?_⟩
      · have hin : ¬ iter.bucket + 1 + j ≥ hash.nBuckets := by omega
        have hfirst : bucket'.entries[0]? = some e := by rw [hentries]; rfl
        simp only [hashIterNext, hb, inBlock_some, ok_bind, if_pos hend, hnext, if_neg hin, hget,
          hfirst]
      · rw [leftToVisit, hdrop, hall, leftToVisit, hone, hentries, List.drop_drop]
        rfl
  · have hlt : (iter.entry + 1).toNat < bucket.entries.length := Nat.lt_of_not_ge hend
    have hget := List.getElem?_eq_getElem hlt
    refine .inr ⟨bucket.entries[(iter.entry + 1).toNat], ⟨iter.bucket, iter.entry + 1⟩,
      bucket, ?_, hb, ?_⟩
    · simp only [hashIterNext, hb, inBlock_some, ok_bind, if_neg hend, hget]
    · -- the counter does not wrap, since a bucket has fewer than `2 ^ 32` entries
      have hok := hv.bucket _ _ hb
      have hfits := hok.fits
      have hsmall := hok.small
      have hnext : (iter.entry + 1 + 1).toNat = (iter.entry + 1).toNat + 1 := by
        rw [UInt32.toNat_add, show (1 : UInt32).toNat = 1 from rfl]
        exact Nat.mod_eq_of_lt (by omega)
      rw [leftToVisit, leftToVisit, hnext, List.drop_eq_getElem_cons hlt]
      rfl

/-- A full iteration visits what is left, in order. -/
theorem hashIterLoop_eq (hv : hash.Valid host) :
    ∀ (fuel : Nat) (iter : HashIter) (bucket : HashBucket V),
      hash.buckets[iter.bucket]? = some bucket →
      (leftToVisit hash bucket iter).length < fuel →
      hashIterLoop hash fuel iter = .ok (leftToVisit hash bucket iter) := by
  intro fuel
  induction fuel with
  | zero => intro iter bucket _ h; omega
  | succ fuel ih =>
    intro iter bucket hb hfuel
    unfold hashIterLoop
    rcases hashIterNext_cases hv hb with ⟨hnil, iter', hnext⟩ |
      ⟨e, iter', bucket', hnext, hb', hcons⟩
    · rw [hnext, hnil]
      rfl
    · rw [hcons, List.length_cons] at hfuel
      rw [hnext, ok_bind, hcons]
      show (hashIterLoop hash fuel iter' >>= _) = _
      rw [ih iter' bucket' hb' (by omega)]
      rfl

/-- **An iteration visits every entry once.** -/
theorem hashIterLoop_contents (hv : hash.Valid host) :
    hashIterLoop hash (hash.contents.length + 1) hashIterInit = .ok hash.contents := by
  have hpos := hv.buckets_pos
  rw [← hv.length] at hpos
  have hget := List.getElem?_eq_getElem hpos
  have hall : leftToVisit hash hash.buckets[0] hashIterInit = hash.contents := by
    unfold leftToVisit Hash.contents
    rw [show (hashIterInit.entry + 1).toNat = 0 from rfl, List.drop_zero, ← List.flatMap_cons]
    congr 1
    exact (List.getElem_cons_drop (i := 0) (h := hpos)).trans List.drop_zero
  rw [hashIterLoop_eq hv _ _ _ hget (by rw [hall]; omega), hall]

end Valid

end Kmod
