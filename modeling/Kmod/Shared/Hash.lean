import Kmod.Shared.Strcmp
import Mathlib.Data.Nat.Bitwise

/-!
# Hash tables

A `struct hash` is an array of buckets, each an array of entries that is kept sorted by
key. The arrays grow and shrink in steps; `total` is what is allocated of a bucket and
`used` what it holds, here the length of the list of entries. Whether `realloc` succeeds
is an argument of every function that calls it.

A value that is handed to `free_value` is part of the result of a function, so what a
table did with its values can be counted (`Freed`).

`used` and `total` are counted in 32 bits. `total` is always a multiple of the step, so
when it wraps around it becomes zero; `realloc` then frees the entries that the bucket
still points to, which is a fault here.
-/

namespace Kmod

open SortedTable

/-- What hash values and comparisons of characters depend on besides the strings. -/
structure Host where
  bigEndian : Bool
  charSigned : Bool

/-- A machine with the lowest byte first and signed characters. -/
def littleHost : Host := ⟨false, true⟩

/-- `get_unaligned` of a `uint16_t`. -/
def getUnaligned16 (host : Host) (a b : UInt8) : UInt32 :=
  if host.bigEndian then a.toUInt32 <<< 8 ||| b.toUInt32 else b.toUInt32 <<< 8 ||| a.toUInt32

/-- A `char` as an `int`, and that as an `unsigned int`. -/
def charToUnsigned (host : Host) (c : UInt8) : UInt32 :=
  if host.charSigned ∧ 128 ≤ c then c.toUInt32 - 256 else c.toUInt32

/-- The main loop of `hash_superfast`: the hash, and what is left of the key. -/
def hashSuperfastLoop (host : Host) : Nat → CStr → UInt32 → UInt32 × CStr
  | len + 1, a :: b :: c :: d :: key, hash =>
    let hash := hash + getUnaligned16 host a b
    let tmp := (getUnaligned16 host c d <<< 11) ^^^ hash
    let hash := (hash <<< 16) ^^^ tmp
    hashSuperfastLoop host len key (hash + (hash >>> 11))
  | _, key, hash => (hash, key)

/-- The end cases of `hash_superfast`. -/
def hashSuperfastTail (host : Host) (rem : Nat) (key : CStr) (hash : UInt32) : UInt32 :=
  match rem, key with
  | 3, a :: b :: c :: _ =>
    let hash := hash + getUnaligned16 host a b
    let hash := hash ^^^ (hash <<< 16)
    let hash := hash ^^^ (c.toUInt32 <<< 18)
    hash + (hash >>> 11)
  | 2, a :: b :: _ =>
    let hash := hash + getUnaligned16 host a b
    let hash := hash ^^^ (hash <<< 11)
    hash + (hash >>> 17)
  | 1, a :: _ =>
    let hash := hash + charToUnsigned host a
    let hash := hash ^^^ (hash <<< 10)
    hash + (hash >>> 1)
  | _, _ => hash

/-- `hash_superfast`. -/
def hashSuperfast (host : Host) (key : CStr) : UInt32 :=
  let len := UInt32.ofNat key.length
  let (hash, rest) := hashSuperfastLoop host (len.toNat / 4) key len
  let hash := hashSuperfastTail host (len.toNat % 4) rest hash
  let hash := hash ^^^ (hash <<< 3)
  let hash := hash + (hash >>> 5)
  let hash := hash ^^^ (hash <<< 4)
  let hash := hash + (hash >>> 17)
  let hash := hash ^^^ (hash <<< 25)
  hash + (hash >>> 6)

/-! ## Tables -/

/-- A `struct hash_entry`. -/
structure HashEntry (V : Type) where
  key : CStr
  value : V
  deriving DecidableEq, Repr

/-- A `struct hash_bucket`; without entries allocated, `total` is zero. -/
structure HashBucket (V : Type) where
  entries : List (HashEntry V)
  total : Nat
  deriving DecidableEq, Repr

/-- A `struct hash`; `freeValue` says whether there is a callback. -/
structure Hash (V : Type) where
  count : Nat
  step : Nat
  nBuckets : Nat
  freeValue : Bool
  buckets : List (HashBucket V)
  deriving DecidableEq, Repr

variable {V : Type}

/-- `align_power2`: `__builtin_clz` is not defined for zero, and the shift has to be below 32. -/
def alignPower2 (u : Nat) : Option Nat :=
  let v := (u + 2 ^ 32 - 1) % 2 ^ 32
  if v = 0 ∨ 32 ≤ v.log2 + 1 then none else some (2 ^ (v.log2 + 1))

/-- `hash_new`, where `align_power2` is defined and `calloc` succeeds. -/
def hashNew (nBuckets : Nat) (freeValue : Bool) : Option (Hash V) :=
  (alignPower2 nBuckets).map (fun n =>
    ⟨0, if n / 32 < 4 then 4 else if n / 32 > 64 then 64 else n / 32, n, freeValue,
      List.replicate n ⟨[], 0⟩⟩)

/-- The values that `hash_free` hands to `free_value`. -/
def hashFree (hash : Hash V) : List V :=
  hash.buckets.flatMap (fun bucket =>
    if hash.freeValue ∧ bucket.entries.length ≠ 0 then bucket.entries.map HashEntry.value else [])

/-- The position of the bucket for a key. -/
def hashPos (host : Host) (hash : Hash V) (key : CStr) : Nat :=
  (hashSuperfast host key).toNat &&& (hash.nBuckets - 1)

/-- A value is handed to `free_value`, if there is such a callback. -/
def freed (hash : Hash V) (value : V) : List V := if hash.freeValue then [value] else []

/-- The bucket, with room for one more entry; `none` if `realloc` fails. -/
def hashReserve (hash : Hash V) (bucket : HashBucket V) (realloc : Bool) :
    Except Fault (Option (HashBucket V)) :=
  if bucket.entries.length + 1 ≥ bucket.total then
    let newTotal := (bucket.total + hash.step) % 2 ^ 32
    if newTotal = 0 then .error .outOfBounds
    else if realloc then .ok (some { bucket with total := newTotal })
    else .ok none
  else .ok (some bucket)

/-- The entries from `i` on are moved up and an entry is written there. -/
def hashInsertAt (hash : Hash V) (pos : Nat) (bucket : HashBucket V) (i : Nat)
    (entry : HashEntry V) :
    Except Fault (Hash V) :=
  if bucket.entries.length < bucket.total then
    let entries := bucket.entries.take i ++ entry :: bucket.entries.drop i
    .ok { hash with
      count := (hash.count + 1) % 2 ^ 32
      buckets := hash.buckets.set pos { bucket with entries } }
  else .error .outOfBounds

/-- `hash_add`: its result, the table, and the values handed to `free_value`. -/
def hashAdd (host : Host) (hash : Hash V) (key : CStr) (value : V) (realloc : Bool) :
    Except Fault (Int × Hash V × List V) := do
  let pos := hashPos host hash key
  let bucket ← inBlock hash.buckets[pos]?
  match ← hashReserve hash bucket realloc with
  | none => .ok (-ENOMEM, hash, [])
  | some bucket =>
    let (i, found) := scan strcmp HashEntry.key key bucket.entries
    if found then do
      let entry ← inBlock bucket.entries[i]?
      let replaced := { bucket with entries := bucket.entries.set i ⟨key, value⟩ }
      .ok (0, { hash with buckets := hash.buckets.set pos replaced }, freed hash entry.value)
    else do
      let hash ← hashInsertAt hash pos bucket i ⟨key, value⟩
      .ok (0, hash, [])

/-- `hash_add_unique`. -/
def hashAddUnique (host : Host) (hash : Hash V) (key : CStr) (value : V) (realloc : Bool) :
    Except Fault (Int × Hash V) := do
  let pos := hashPos host hash key
  let bucket ← inBlock hash.buckets[pos]?
  match ← hashReserve hash bucket realloc with
  | none => .ok (-ENOMEM, hash)
  | some bucket =>
    let (i, found) := scan strcmp HashEntry.key key bucket.entries
    if found then .ok (-EEXIST, { hash with buckets := hash.buckets.set pos bucket })
    else do
      let hash ← hashInsertAt hash pos bucket i ⟨key, value⟩
      .ok (0, hash)

/-- `hash_find`; `null` is the null pointer. -/
def hashFind (host : Host) (null : V) (hash : Hash V) (key : CStr) : Except Fault V := do
  let bucket ← inBlock hash.buckets[hashPos host hash key]?
  if bucket.total = 0 then .ok null
  else
    match bsearch strcmp HashEntry.key key bucket.entries with
    | none => .ok null
    | some i => do
      let entry ← inBlock bucket.entries[i]?
      .ok entry.value

/-- What a deletion leaves allocated of a bucket. -/
def hashShrink (hash : Hash V) (bucket : HashBucket V) (realloc : Bool) : HashBucket V :=
  let stepsUsed := bucket.entries.length / hash.step
  let stepsTotal := bucket.total / hash.step
  if stepsUsed + 1 < stepsTotal ∧ realloc then { bucket with total := (stepsUsed + 1) * hash.step }
  else bucket

/-- `hash_del`. -/
def hashDel (host : Host) (hash : Hash V) (key : CStr) (realloc : Bool) :
    Except Fault (Int × Hash V × List V) := do
  let pos := hashPos host hash key
  let bucket ← inBlock hash.buckets[pos]?
  if bucket.total = 0 then .ok (-ENOENT, hash, [])
  else
    match bsearch strcmp HashEntry.key key bucket.entries with
    | none => .ok (-ENOENT, hash, [])
    | some i => do
      let entry ← inBlock bucket.entries[i]?
      let bucket := { bucket with entries := bucket.entries.take i ++ bucket.entries.drop (i + 1) }
      .ok (0, { hash with
        count := (hash.count + 2 ^ 32 - 1) % 2 ^ 32
        buckets := hash.buckets.set pos (hashShrink hash bucket realloc) }, freed hash entry.value)

/-- `hash_get_count`. -/
def hashGetCount (hash : Hash V) : Nat := hash.count

/-! ## Iteration -/

/-- A `struct hash_iter` for a table. -/
structure HashIter where
  bucket : Nat
  entry : UInt32
  deriving DecidableEq, Repr

/-- `hash_iter_init`. -/
def hashIterInit : HashIter := ⟨0, -1⟩

/-- The next bucket that is not empty, from position `i` on; `buckets` are those from there on. -/
def nextBucket : List (HashBucket V) → Nat → Nat
  | [], i => i
  | bucket :: buckets, i => if bucket.entries.length > 0 then i else nextBucket buckets (i + 1)

/-- `hash_iter_next`: the next entry, if there is one. -/
def hashIterNext (hash : Hash V) (iter : HashIter) :
    Except Fault (Option (HashEntry V) × HashIter) := do
  let bucket ← inBlock hash.buckets[iter.bucket]?
  let entry := iter.entry + 1
  if entry.toNat ≥ bucket.entries.length then
    let pos := nextBucket (hash.buckets.drop (iter.bucket + 1)) (iter.bucket + 1)
    if pos ≥ hash.nBuckets then .ok (none, ⟨pos, 0⟩)
    else do
      let bucket ← inBlock hash.buckets[pos]?
      let e ← inBlock bucket.entries[0]?
      .ok (some e, ⟨pos, 0⟩)
  else do
    let e ← inBlock bucket.entries[entry.toNat]?
    .ok (some e, ⟨iter.bucket, entry⟩)

/-- Calls of `hash_iter_next` until it returns false. -/
def hashIterLoop (hash : Hash V) : Nat → HashIter → Except Fault (List (HashEntry V))
  | 0, _ => .error .outOfFuel
  | fuel + 1, iter => do
    match ← hashIterNext hash iter with
    | (none, _) => .ok []
    | (some e, iter) => do
      let es ← hashIterLoop hash fuel iter
      .ok (e :: es)

end Kmod
