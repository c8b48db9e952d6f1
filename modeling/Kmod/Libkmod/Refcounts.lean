import Kmod.Shared.HashMap
import Kmod.Libkmod.Depline

/-!
# Reference counts of contexts and modules

A context keeps its modules in a pool, a hash table from keys to module objects. A module
is created once for a key and counts its references; it holds one reference of the
context, and goes with the last reference of its own. The context goes with its last
reference, a client's or a module's.

`kmod_module_new` takes the reference of the context before it puts the module into the
pool, and does not give it back when that fails. Apart from this the counts are right:
the context has as many references as clients hold and modules live (`refcounts_counted`).

Modules as they are created here have neither dependencies nor an open file.
-/

namespace Kmod.Refcounts

/-! ## The model -/

/-- A `struct kmod_module` with its references. -/
structure CountedModule where
  name : CStr
  /-- The field `alias`, only set if the module was created from an alias. -/
  aliasname : Option CStr
  hashkey : CStr
  refcount : Int
  deriving DecidableEq

/-- The module objects that are allocated, by address. -/
abbrev ModuleHeap := Finmap (fun _ : Nat => CountedModule)

/-- A `struct kmod_ctx` and the modules; address zero is the null pointer. -/
structure KmodCtx where
  refcount : Int
  modulesByName : Hash Nat
  heap : ModuleHeap
  /-- The context itself has been freed. -/
  released : Bool

def KMOD_HASH_SIZE : Nat := 256

/-- `kmod_new`, as far as the pool is concerned. -/
def kmodNew : Option KmodCtx :=
  (hashNew KMOD_HASH_SIZE false).map (fun hash => ⟨1, hash, ∅, false⟩)

/-- `++` on an `int`. -/
def increment (n : Int) : Except Fault Int :=
  if n = INT_MAX then .error .overflow else .ok (n + 1)

/-- `kmod_ref`. -/
def kmodRef (ctx : KmodCtx) : Except Fault KmodCtx := do
  let refcount ← increment ctx.refcount
  .ok { ctx with refcount }

/-- `kmod_unref`. -/
def kmodUnref (ctx : KmodCtx) : KmodCtx :=
  let ctx := { ctx with refcount := ctx.refcount - 1 }
  if ctx.refcount > 0 then ctx else { ctx with released := true }

/-- `kmod_module_ref`. -/
def kmodModuleRef (ctx : KmodCtx) (mod : Nat) : Except Fault KmodCtx := do
  let m ← inBlock (ctx.heap.lookup mod)
  let refcount ← increment m.refcount
  .ok { ctx with heap := ctx.heap.insert mod { m with refcount } }

/-- `kmod_module_unref`; `realloc` says whether the pool can be shrunk. -/
def kmodModuleUnref (host : Host) (ctx : KmodCtx) (mod : Nat) (realloc : Bool) :
    Except Fault KmodCtx := do
  let m ← inBlock (ctx.heap.lookup mod)
  let m := { m with refcount := m.refcount - 1 }
  if m.refcount > 0 then .ok { ctx with heap := ctx.heap.insert mod m }
  else do
    let (_, modulesByName, _) ← hashDel host ctx.modulesByName m.hashkey realloc
    let ctx := kmodUnref { ctx with modulesByName }
    .ok { ctx with heap := ctx.heap.erase mod }

/--
`kmod_module_new`: its result, the module, and the context. `malloc` is what `malloc`
returns, and `realloc` says whether the pool can grow.
-/
def kmodModuleNew (host : Host) (ctx : KmodCtx) (key name : CStr) (aliasname : Option CStr)
    (malloc : Option Nat) (realloc : Bool) : Except Fault (Int × Nat × KmodCtx) := do
  let m ← hashFind host 0 ctx.modulesByName key
  if m ≠ 0 then do
    let ctx ← kmodModuleRef ctx m
    .ok (0, m, ctx)
  else
    match malloc with
    | none => .ok (-ENOMEM, 0, ctx)
    | some m => do
      let ctx ← kmodRef ctx
      let (err, modulesByName, _) ← hashAdd host ctx.modulesByName key m realloc
      -- on failure the module is freed, but the reference of the context stays
      if err < 0 then .ok (err, 0, ctx)
      else .ok (0, m, { ctx with modulesByName, heap := ctx.heap.insert m ⟨name, aliasname, key, 1⟩ })

/-- `kmod_module_new_from_name`. -/
def kmodModuleNewFromName (host : Host) (ctx : KmodCtx) (name : CStr) (malloc : Option Nat)
    (realloc : Bool) : Except Fault (Int × Nat × KmodCtx) :=
  kmodModuleNew host ctx (modnameNormalize name) (modnameNormalize name) none malloc realloc

/-- The key of a module that is created from an alias. -/
def aliasKey (aliasname name : CStr) : CStr := name ++ 92 :: aliasname

/-- `kmod_module_new_from_alias`. -/
def kmodModuleNewFromAlias (host : Host) (ctx : KmodCtx) (aliasname name : CStr)
    (malloc : Option Nat)
    (realloc : Bool) : Except Fault (Int × Nat × KmodCtx) :=
  if name.length + aliasname.length + 2 > PATH_MAX then .ok (-ENAMETOOLONG, 0, ctx)
  else kmodModuleNew host ctx (aliasKey aliasname name) name (some aliasname) malloc realloc

/-! ## Clients -/

/-- The context, and the references that clients hold. -/
structure World where
  ctx : KmodCtx
  ctxRefs : Nat
  modRefs : Nat → Nat

/-- A call by a client. -/
inductive KmodCall where
  | newFromName (name : CStr) (malloc : Option Nat) (realloc : Bool)
  | newFromAlias (aliasname name : CStr) (malloc : Option Nat) (realloc : Bool)
  | moduleRef (mod : Nat)
  | moduleUnref (mod : Nat) (realloc : Bool)
  | ref
  | unref

/-- A client gets a reference of the module that is returned. -/
def World.receive (w : World) : Int × Nat × KmodCtx → Int × World
  | (err, mod, ctx) =>
    (err, { w with ctx, modRefs := if err < 0 then w.modRefs
      else Function.update w.modRefs mod (w.modRefs mod + 1) })

/-- One call: its result (zero, where there is none) and what follows. -/
def kmodCall (host : Host) (w : World) : KmodCall → Except Fault (Int × World)
  | .newFromName name malloc realloc =>
    (kmodModuleNewFromName host w.ctx name malloc realloc).map w.receive
  | .newFromAlias aliasname name malloc realloc =>
    (kmodModuleNewFromAlias host w.ctx aliasname name malloc realloc).map w.receive
  | .moduleRef mod => do
    let ctx ← kmodModuleRef w.ctx mod
    .ok (0, { w with ctx, modRefs := Function.update w.modRefs mod (w.modRefs mod + 1) })
  | .moduleUnref mod realloc => do
    let ctx ← kmodModuleUnref host w.ctx mod realloc
    .ok (0, { w with ctx, modRefs := Function.update w.modRefs mod (w.modRefs mod - 1) })
  | .ref => do
    let ctx ← kmodRef w.ctx
    .ok (0, { w with ctx, ctxRefs := w.ctxRefs + 1 })
  | .unref => .ok (0, { w with ctx := kmodUnref w.ctx, ctxRefs := w.ctxRefs - 1 })

/-- `malloc` returns an address that is not in use. -/
def Fresh (ctx : KmodCtx) (malloc : Option Nat) : Prop := ∀ m ∈ malloc, m ≠ 0 ∧ m ∉ ctx.heap

/-- Clients use what exists and drop references that they hold. -/
def Permitted (w : World) : KmodCall → Prop
  | .newFromName _ malloc _ => w.ctx.released = false ∧ Fresh w.ctx malloc
  | .newFromAlias _ _ malloc _ => w.ctx.released = false ∧ Fresh w.ctx malloc
  | .moduleRef mod => 0 < w.modRefs mod
  | .moduleUnref mod _ => 0 < w.modRefs mod
  | .ref => w.ctx.released = false
  | .unref => 0 < w.ctxRefs

/--
What `kmod_module_new` needs for a key: the module that exists has room for a reference;
and if one is to be created, the context has room for a reference and the pool for a key.
-/
structure PoolTakes (host : Host) (ctx : KmodCtx) (key : CStr) (malloc : Option Nat)
    (realloc : Bool) :
    Prop where
  found : ∀ mod x, ctx.heap.lookup mod = some x → x.hashkey = key → x.refcount < INT_MAX
  created : (∀ mod x, ctx.heap.lookup mod = some x → x.hashkey ≠ key) → malloc.isSome →
    ctx.refcount < INT_MAX ∧ (bucketFull host ctx.modulesByName key = true → realloc = true)

/-- The calls that keep the counts right. -/
def KeepsCounts (host : Host) (ctx : KmodCtx) : KmodCall → Prop
  | .newFromName name malloc realloc => PoolTakes host ctx (modnameNormalize name) malloc realloc
  | .newFromAlias aliasname name malloc realloc => name.length + aliasname.length + 2 ≤ PATH_MAX →
    PoolTakes host ctx (aliasKey aliasname name) malloc realloc
  | .moduleRef mod => ∀ x, ctx.heap.lookup mod = some x → x.refcount < INT_MAX
  | .moduleUnref _ _ => True
  | .ref => ctx.refcount < INT_MAX
  | .unref => True

/-- What can be reached from `kmod_new` by calls that keep the counts right. -/
inductive Reached (host : Host) : World → Prop where
  | new {ctx : KmodCtx} : kmodNew = some ctx → Reached host ⟨ctx, 1, fun _ => 0⟩
  | call {w w' : World} {call : KmodCall} {err : Int} : Reached host w → Permitted w call →
      KeepsCounts host w.ctx call → kmodCall host w call = .ok (err, w') → Reached host w'

/-! ## The invariant -/

/--
The counts are right: the pool maps exactly the keys of the modules that live to these
modules, which have as many references as clients hold, at least one; and the context
has as many as clients hold and modules live.
-/
structure Counted (host : Host) (w : World) : Prop where
  pool : w.ctx.released = false → ∃ m : StrMap Nat, RefinesMap host w.ctx.modulesByName m ∧
    ∀ key mod, m.lookup key = some mod ↔ ∃ x, w.ctx.heap.lookup mod = some x ∧ x.hashkey = key
  refs : ∀ mod x, w.ctx.heap.lookup mod = some x → x.refcount = w.modRefs mod ∧ 0 < x.refcount
  unheld : ∀ mod, mod ∉ w.ctx.heap → w.modRefs mod = 0
  nonnull : 0 ∉ w.ctx.heap
  count : w.ctx.refcount = w.ctxRefs + w.ctx.heap.keys.card
  alive : w.ctx.released = true ↔ w.ctx.refcount ≤ 0

theorem keys_insert {V : Type} (m : Finmap (fun _ : Nat => V)) (a : Nat) (v : V) :
    (m.insert a v).keys = insert a m.keys := by
  ext b
  rw [Finmap.mem_keys, Finmap.mem_insert, Finset.mem_insert, Finmap.mem_keys]

/-- The keys of a map are those of the modules, each with its module. -/
def PoolOf (m : StrMap Nat) (heap : ModuleHeap) : Prop :=
  ∀ key mod, m.lookup key = some mod ↔ ∃ x, heap.lookup mod = some x ∧ x.hashkey = key

section PoolOf

variable {m : StrMap Nat} {heap : ModuleHeap} (hm : PoolOf m heap) {mod : Nat} {x : CountedModule}
include hm

theorem PoolOf.unique {mod' : Nat} {x' : CountedModule} (hx : heap.lookup mod = some x)
    (hx' : heap.lookup mod' = some x') (hkey : x.hashkey = x'.hashkey) : mod = mod' := by
  have h1 := (hm x.hashkey mod).mpr ⟨x, hx, rfl⟩
  have h2 := (hm x.hashkey mod').mpr ⟨x', hx', hkey.symm⟩
  exact Option.some.inj (h1.symm.trans h2)

/-- A module keeps its key. -/
theorem PoolOf.update {x' : CountedModule} (hx : heap.lookup mod = some x)
    (hkey : x'.hashkey = x.hashkey) : PoolOf m (heap.insert mod x') := by
  intro key a
  rw [hm key a]
  by_cases ha : a = mod
  · subst ha
    simp [hx, hkey]
  · simp [Finmap.lookup_insert_of_ne _ ha]

/-- The new key and the new module belong together, the others as before. -/
theorem PoolOf.insert (x : CountedModule) (hnew : m.lookup x.hashkey = none)
    (hnone : heap.lookup mod = none) :
    PoolOf (m.insert x.hashkey mod) (heap.insert mod x) := by
  intro k a
  by_cases hk : k = x.hashkey
  · subst hk
    rw [Finmap.lookup_insert]
    by_cases ha : a = mod
    · subst ha
      simp
    · have hno : ¬ ∃ y, heap.lookup a = some y ∧ y.hashkey = x.hashkey := by
        rw [← hm x.hashkey a, hnew]
        simp
      rw [Finmap.lookup_insert_of_ne _ ha]
      simp only [hno, iff_false, Option.some.injEq]
      exact fun heq => ha heq.symm
  · rw [Finmap.lookup_insert_of_ne _ hk, hm k a]
    by_cases ha : a = mod
    · subst ha
      simp [hnone, Ne.symm hk]
    · rw [Finmap.lookup_insert_of_ne _ ha]

theorem PoolOf.erase (hx : heap.lookup mod = some x) :
    PoolOf (m.erase x.hashkey) (heap.erase mod) := by
  intro k a
  by_cases hk : k = x.hashkey
  · subst hk
    rw [Finmap.lookup_erase]
    by_cases ha : a = mod
    · subst ha
      simp
    · rw [Finmap.lookup_erase_ne ha]
      refine ⟨fun hf => absurd hf (by simp), ?_⟩
      rintro ⟨y, hy, hkey⟩
      exact absurd (hm.unique hy hx hkey) ha
  · rw [Finmap.lookup_erase_ne hk, hm k a]
    by_cases ha : a = mod
    · subst ha
      simp [hx, Ne.symm hk]
    · rw [Finmap.lookup_erase_ne ha]

end PoolOf

/-- The context is gone exactly if its count is zero now. -/
theorem kmodUnref_eq {ctx : KmodCtx} (hrel : ctx.released = false) :
    kmodUnref ctx = ⟨ctx.refcount - 1, ctx.modulesByName, ctx.heap,
      decide (ctx.refcount - 1 ≤ 0)⟩ := by
  unfold kmodUnref
  dsimp only
  split
  · next hpos => rw [hrel, decide_eq_false (by omega)]
  · next hneg => rw [decide_eq_true (by omega)]

theorem kmodNew_counted (host : Host) {ctx : KmodCtx} (h : kmodNew = some ctx) :
    Counted host ⟨ctx, 1, fun _ => 0⟩ := by
  obtain ⟨hash, hnew, rfl⟩ := Option.map_eq_some_iff.mp h
  obtain ⟨hv, hempty, _⟩ := hashNew_valid host hnew
  refine ⟨fun _ => ⟨∅, ⟨hv, ?_⟩, by simp⟩, by simp, by simp, Finmap.notMem_empty, by simp, by simp⟩
  show ListsMap ∅ hash.contents
  rw [hempty]
  exact ⟨List.nodup_nil, by simp⟩

section Counted

variable {host : Host} {w : World} (h : Counted host w)
include h

/-- No two modules have the same key. -/
theorem Counted.unique {mod mod' : Nat} {x x' : CountedModule} (hx : w.ctx.heap.lookup mod = some x)
    (hx' : w.ctx.heap.lookup mod' = some x') (hkey : x.hashkey = x'.hashkey) : mod = mod' := by
  cases hrel : w.ctx.released with
  | false =>
    obtain ⟨m, _, hm⟩ := h.pool hrel
    exact PoolOf.unique hm hx hx' hkey
  | true =>
    -- a context that is gone has no modules left
    have hcount := h.count
    have hle := h.alive.mp hrel
    have hpos : 0 < w.ctx.heap.keys.card :=
      Finset.card_pos.mpr ⟨mod, Finmap.mem_keys.mpr (Finmap.mem_of_lookup_eq_some hx)⟩
    omega

/-- A module that a client holds a reference of lives. -/
theorem Counted.held {mod : Nat} (hheld : 0 < w.modRefs mod) :
    ∃ x, w.ctx.heap.lookup mod = some x ∧ x.refcount = w.modRefs mod ∧ 0 < x.refcount := by
  have hmem : mod ∈ w.ctx.heap := by
    by_contra hno
    rw [h.unheld mod hno] at hheld
    omega
  obtain ⟨x, hx⟩ := Finmap.mem_iff.mp hmem
  exact ⟨x, hx, h.refs mod x hx⟩

theorem Counted.alive_of_mem {mod : Nat} (hmem : mod ∈ w.ctx.heap) : w.ctx.released = false := by
  have hpos : 0 < w.ctx.heap.keys.card := Finset.card_pos.mpr ⟨mod, Finmap.mem_keys.mpr hmem⟩
  have hcount := h.count
  have halive := h.alive
  cases hrel : w.ctx.released with
  | false => rfl
  | true =>
    have := halive.mp hrel
    omega

/-- A module with `n` references is put in. -/
theorem Counted.refs_insert {mod : Nat} {x : CountedModule} {n : Nat} (hx : x.refcount = n)
    (hn : 0 < n) :
    ∀ a y, (w.ctx.heap.insert mod x).lookup a = some y →
      y.refcount = (Function.update w.modRefs mod n a : Nat) ∧ 0 < y.refcount := by
  intro a y hy
  by_cases ha : a = mod
  · subst ha
    rw [Finmap.lookup_insert] at hy
    obtain rfl := Option.some.inj hy
    rw [Function.update_self, hx]
    exact ⟨rfl, by simpa using hn⟩
  · rw [Finmap.lookup_insert_of_ne _ ha] at hy
    rw [Function.update_of_ne ha]
    exact h.refs a y hy

theorem Counted.unheld_insert (mod : Nat) (x : CountedModule) (n : Nat) :
    ∀ a, a ∉ w.ctx.heap.insert mod x → Function.update w.modRefs mod n a = 0 := by
  intro a ha
  rw [Finmap.mem_insert, not_or] at ha
  rw [Function.update_of_ne ha.1]
  exact h.unheld a ha.2

/-- Another number of references of a module. -/
theorem Counted.setRefs {mod : Nat} {x : CountedModule}
    (hx : w.ctx.heap.lookup mod = some x) (n : Nat)
    (hn : 0 < n) :
    Counted host ⟨{ w.ctx with heap := w.ctx.heap.insert mod { x with refcount := n } }, w.ctxRefs,
      Function.update w.modRefs mod n⟩ := by
  have hmem := Finmap.mem_of_lookup_eq_some hx
  have hkeys : (w.ctx.heap.insert mod { x with refcount := n }).keys = w.ctx.heap.keys := by
    rw [keys_insert, Finset.insert_eq_of_mem (Finmap.mem_keys.mpr hmem)]
  refine ⟨fun hrel => ?_, h.refs_insert rfl hn, h.unheld_insert mod _ n, ?_, ?_, h.alive⟩
  · obtain ⟨m, href, hm⟩ := h.pool hrel
    exact ⟨m, href, PoolOf.update hm hx rfl⟩
  · rw [Finmap.mem_insert, not_or]
    refine ⟨?_, h.nonnull⟩
    rintro rfl
    exact h.nonnull hmem
  · show w.ctx.refcount =
      w.ctxRefs + ((w.ctx.heap.insert mod { x with refcount := (n : Int) }).keys.card : Int)
    rw [hkeys]
    exact h.count

/-- A module is created. -/
theorem Counted.insert (name : CStr) (aliasname : Option CStr) {key : CStr} {mod : Nat}
    {hash : Hash Nat}
    {m : StrMap Nat} (hrel : w.ctx.released = false) (hm : PoolOf m w.ctx.heap)
    (hnew : m.lookup key = none) (hmod : mod ≠ 0 ∧ mod ∉ w.ctx.heap)
    (href : RefinesMap host hash (m.insert key mod)) :
    Counted host ⟨⟨w.ctx.refcount + 1, hash, w.ctx.heap.insert mod ⟨name, aliasname, key, 1⟩,
      w.ctx.released⟩, w.ctxRefs, Function.update w.modRefs mod (w.modRefs mod + 1)⟩ := by
  have hnone : w.ctx.heap.lookup mod = none := Finmap.lookup_eq_none.mpr hmod.2
  have hcount := h.count
  refine ⟨fun _ => ⟨_, href, PoolOf.insert hm ⟨name, aliasname, key, 1⟩ hnew hnone⟩,
    h.refs_insert ?_ (Nat.succ_pos _), h.unheld_insert mod _ _, ?_, ?_, ?_⟩
  · rw [h.unheld mod hmod.2]
    rfl
  · rw [Finmap.mem_insert, not_or]
    exact ⟨hmod.1.symm, h.nonnull⟩
  · have hcard : (w.ctx.heap.insert mod ⟨name, aliasname, key, 1⟩).keys.card
        = w.ctx.heap.keys.card + 1 := by
      rw [keys_insert, Finset.card_insert_of_notMem (fun hin => hmod.2 (Finmap.mem_keys.mp hin))]
    show w.ctx.refcount + 1 =
      w.ctxRefs + ((w.ctx.heap.insert mod ⟨name, aliasname, key, 1⟩).keys.card : Int)
    rw [hcard, hcount]
    push_cast
    omega
  · have halive := h.alive
    show w.ctx.released = true ↔ w.ctx.refcount + 1 ≤ 0
    rw [hrel]
    refine ⟨fun hf => absurd hf (by simp), fun hle => ?_⟩
    omega

/-- A module goes, and the context with it if it was the last reference. -/
theorem Counted.erase {mod : Nat} {x : CountedModule} {hash : Hash Nat} {m : StrMap Nat}
    (hx : w.ctx.heap.lookup mod = some x) (hlast : w.modRefs mod = 1) (hm : PoolOf m w.ctx.heap)
    (href : RefinesMap host hash (m.erase x.hashkey)) :
    Counted host ⟨{ kmodUnref { w.ctx with modulesByName := hash } with
      heap := (kmodUnref { w.ctx with modulesByName := hash }).heap.erase mod }, w.ctxRefs,
      Function.update w.modRefs mod (w.modRefs mod - 1)⟩ := by
  have hmem := Finmap.mem_of_lookup_eq_some hx
  have hrel := h.alive_of_mem hmem
  have hcard : (w.ctx.heap.erase mod).keys.card + 1 = w.ctx.heap.keys.card := by
    rw [Finmap.keys_erase]
    exact Finset.card_erase_add_one (Finmap.mem_keys.mpr hmem)
  have hcount := h.count
  rw [kmodUnref_eq (show { w.ctx with modulesByName := hash }.released = false from hrel)]
  refine ⟨fun _ => ⟨_, href, PoolOf.erase hm hx⟩, ?_, ?_, ?_, ?_, ?_⟩
  · intro a y hy
    have hy' : (w.ctx.heap.erase mod).lookup a = some y := hy
    show y.refcount = (Function.update w.modRefs mod (w.modRefs mod - 1) a : Nat) ∧ _
    by_cases ha : a = mod
    · subst ha
      rw [Finmap.lookup_erase] at hy'
      cases hy'
    · rw [Finmap.lookup_erase_ne ha] at hy'
      rw [Function.update_of_ne ha]
      exact h.refs a y hy'
  · intro a ha
    show Function.update w.modRefs mod (w.modRefs mod - 1) a = 0
    by_cases ham : a = mod
    · subst ham
      rw [Function.update_self, hlast]
    · rw [Function.update_of_ne ham]
      refine h.unheld a (fun hin => ha ?_)
      exact Finmap.mem_erase.mpr ⟨ham, hin⟩
  · exact fun hin => h.nonnull (Finmap.mem_erase.mp hin).2
  · show w.ctx.refcount - 1 = w.ctxRefs + ((w.ctx.heap.erase mod).keys.card : Int)
    omega
  · show decide (w.ctx.refcount - 1 ≤ 0) = true ↔ w.ctx.refcount - 1 ≤ 0
    exact decide_eq_true_iff

end Counted

/-! ## The pool -/

section Pool

variable {host : Host} {hash : Hash Nat} {m : StrMap Nat} (h : RefinesMap host hash m)
include h

/-- A new key is added, unless its bucket is full and cannot grow. -/
theorem hashAdd_new {key : CStr} (hnew : m.lookup key = none) (hroom : m.keys.card < MAX_KEYS)
    {realloc : Bool} (hgrows : bucketFull host hash key = true → realloc = true) (mod : Nat) :
    ∃ hash', hashAdd host hash key mod realloc = .ok (0, hash', []) ∧
      RefinesMap host hash' (m.insert key mod) := by
  rw [h.lists.card_keys] at hroom
  rcases hashAdd_cases h.valid hroom key mod realloc with ⟨_, hfail, hfull⟩ |
    ⟨_, hash', hv', _, ⟨old, rest, _, hold, _⟩ | ⟨hcall, habsent, hperm⟩⟩
  · rw [hgrows hfull] at hfail
    cases hfail
  · have hmem := (h.lists.perm hold.symm).mem_iff key old
    rw [hnew] at hmem
    exact absurd (hmem.mp (by simp)) (by simp)
  · exact ⟨hash', hcall, hv', (h.lists.insert habsent).perm hperm⟩

/-- A key that is there is deleted. -/
theorem hashDel_present {key : CStr} {mod : Nat} (hpresent : m.lookup key = some mod)
    (realloc : Bool) :
    ∃ hash' gone, hashDel host hash key realloc = .ok (0, hash', gone) ∧
      RefinesMap host hash' (m.erase key) := by
  rcases hashDel_cases h.valid key realloc with ⟨habsent, _⟩ | ⟨hash', old, hv', _, hcall, hperm⟩
  · exact absurd rfl (habsent ⟨key, mod⟩ ((h.lists.mem_iff key mod).mpr hpresent))
  · exact ⟨hash', _, hcall, hv', (h.lists.perm hperm.symm).erase⟩

end Pool

/-! ## Calls -/

/-- There are no more keys than modules. -/
theorem card_pool_le {m : StrMap Nat} {heap : ModuleHeap} (hm : PoolOf m heap) :
    m.keys.card ≤ heap.keys.card := by
  refine Finset.card_le_card_of_injOn (fun key => (m.lookup key).getD 0) ?_ ?_
  · intro key hkey
    obtain ⟨mod, hmod⟩ := Finmap.mem_iff.mp (Finmap.mem_keys.mp hkey)
    obtain ⟨x, hx, _⟩ := (hm key mod).mp hmod
    show (m.lookup key).getD 0 ∈ heap.keys
    rw [hmod]
    exact Finmap.mem_keys.mpr (Finmap.mem_of_lookup_eq_some hx)
  · intro key hkey key' hkey' heq
    obtain ⟨mod, hmod⟩ := Finmap.mem_iff.mp (Finmap.mem_keys.mp hkey)
    obtain ⟨mod', hmod'⟩ := Finmap.mem_iff.mp (Finmap.mem_keys.mp hkey')
    have heq' : (m.lookup key).getD 0 = (m.lookup key').getD 0 := heq
    rw [hmod, hmod'] at heq'
    obtain rfl : mod = mod' := heq'
    obtain ⟨x, hx, hxkey⟩ := (hm key mod).mp hmod
    obtain ⟨y, hy, hykey⟩ := (hm key' mod).mp hmod'
    obtain rfl := Option.some.inj (hx.symm.trans hy)
    exact hxkey.symm.trans hykey

section Calls

variable {host : Host} {w : World} (h : Counted host w)
include h

/-- One more reference of a module. -/
theorem kmodModuleRef_counted {mod : Nat} {x : CountedModule} (hx : w.ctx.heap.lookup mod = some x)
    (hroom : x.refcount < INT_MAX) :
    ∃ ctx, kmodModuleRef w.ctx mod = .ok ctx ∧
      Counted host { w with ctx, modRefs := Function.update w.modRefs mod (w.modRefs mod + 1) } := by
  obtain ⟨hrefs, _⟩ := h.refs mod x hx
  refine ⟨{ w.ctx with heap := w.ctx.heap.insert mod { x with refcount := x.refcount + 1 } }, ?_, ?_⟩
  · simp only [kmodModuleRef, hx, inBlock_some, ok_bind, increment, if_neg (ne_of_lt hroom)]
  · have hcast : x.refcount + 1 = (w.modRefs mod + 1 : Nat) := by omega
    rw [hcast]
    exact h.setRefs hx (w.modRefs mod + 1) (Nat.succ_pos _)

/-- `kmod_module_new`, where the pool takes the key. -/
theorem kmodModuleNew_counted (hrel : w.ctx.released = false) {key name : CStr}
    {aliasname : Option CStr}
    {malloc : Option Nat} {realloc : Bool} (hfresh : Fresh w.ctx malloc)
    (htakes : PoolTakes host w.ctx key malloc realloc) :
    ∃ err w', (kmodModuleNew host w.ctx key name aliasname malloc realloc).map w.receive =
      .ok (err, w') ∧
      Counted host w' ∧ (err < 0 → w' = w) := by
  obtain ⟨m, href, hm⟩ := h.pool hrel
  have hfind := href.hashFind_eq 0 key
  cases hlookup : m.lookup key with
  | some mod =>
    -- the module exists
    obtain ⟨x, hx, hkey⟩ := (hm key mod).mp hlookup
    have hne : mod ≠ 0 := by
      rintro rfl
      exact h.nonnull (Finmap.mem_of_lookup_eq_some hx)
    obtain ⟨ctx, hcall, hcounted⟩ := kmodModuleRef_counted h hx (htakes.found mod x hx hkey)
    rw [hlookup, Option.getD_some] at hfind
    refine ⟨0, _, ?_, hcounted, fun hneg => absurd hneg (lt_irrefl 0)⟩
    simp only [kmodModuleNew, hfind, ok_bind, if_pos hne, hcall, Except.map, World.receive,
      lt_irrefl, if_false]
  | none =>
    rw [hlookup, Option.getD_none] at hfind
    cases malloc with
    | none =>
      refine ⟨-ENOMEM, w, ?_, h, fun _ => rfl⟩
      simp only [kmodModuleNew, hfind, ok_bind, ne_eq, not_true_eq_false, if_false, Except.map,
        World.receive]
      rfl
    | some mod =>
      have hmod := hfresh mod rfl
      have habsent : ∀ a x, w.ctx.heap.lookup a = some x → x.hashkey ≠ key := by
        intro a x hx hkey
        have := (hm key a).mpr ⟨x, hx, hkey⟩
        rw [hlookup] at this
        cases this
      obtain ⟨hsmall, hgrows⟩ := htakes.created habsent rfl
      have hroom : m.keys.card < MAX_KEYS := by
        have hle := card_pool_le hm
        have hcount := h.count
        have : INT_MAX < MAX_KEYS := by decide
        omega
      obtain ⟨hash', hadd, href'⟩ := hashAdd_new href hlookup hroom hgrows mod
      refine ⟨0, _, ?_, h.insert name aliasname hrel hm hlookup hmod href',
        fun hneg => absurd hneg (lt_irrefl 0)⟩
      simp only [kmodModuleNew, hfind, ok_bind, ne_eq, not_true_eq_false, if_false,
        kmodRef, increment,
        if_neg (ne_of_lt hsmall), hadd, lt_irrefl, Except.map, World.receive]

/-- `kmod_module_unref`, by a client that holds a reference. -/
theorem kmodModuleUnref_counted {mod : Nat} (hheld : 0 < w.modRefs mod) (realloc : Bool) :
    ∃ ctx, kmodModuleUnref host w.ctx mod realloc = .ok ctx ∧
      Counted host { w with ctx, modRefs := Function.update w.modRefs mod (w.modRefs mod - 1) } := by
  obtain ⟨x, hx, hrefs, _⟩ := h.held hheld
  have hrel := h.alive_of_mem (Finmap.mem_of_lookup_eq_some hx)
  by_cases hlast : w.modRefs mod = 1
  · -- the last reference
    obtain ⟨m, href, hm⟩ := h.pool hrel
    obtain ⟨hash', gone, hdel, href'⟩ :=
      hashDel_present href ((hm x.hashkey mod).mpr ⟨x, hx, rfl⟩) realloc
    refine ⟨_, ?_, h.erase hx hlast hm href'⟩
    have hzero : ¬ x.refcount - 1 > 0 := by omega
    simp only [kmodModuleUnref, hx, inBlock_some, ok_bind, if_neg hzero, hdel]
  · refine ⟨{ w.ctx with heap := w.ctx.heap.insert mod { x with refcount := x.refcount - 1 } }, ?_, ?_⟩
    · have hpos : x.refcount - 1 > 0 := by omega
      simp only [kmodModuleUnref, hx, inBlock_some, ok_bind, if_pos hpos]
    · have hcast : x.refcount - 1 = (w.modRefs mod - 1 : Nat) := by omega
      rw [hcast]
      exact h.setRefs hx (w.modRefs mod - 1) (by omega)

/-- `kmod_unref`, by a client that holds a reference. -/
theorem kmodUnref_counted (hheld : 0 < w.ctxRefs) :
    Counted host { w with ctx := kmodUnref w.ctx, ctxRefs := w.ctxRefs - 1 } := by
  have hcount := h.count
  have hrel : w.ctx.released = false := by
    have halive := h.alive
    cases hr : w.ctx.released with
    | false => rfl
    | true =>
      have := halive.mp hr
      omega
  rw [kmodUnref_eq hrel]
  refine ⟨fun _ => h.pool hrel, h.refs, h.unheld, h.nonnull, ?_, ?_⟩
  · show w.ctx.refcount - 1 = ((w.ctxRefs - 1 : Nat) : Int) + w.ctx.heap.keys.card
    omega
  · exact decide_eq_true_iff

/-- **One call.** It keeps the counts right, and if it fails it changes nothing. -/
theorem kmodCall_counted {call : KmodCall} (hpermitted : Permitted w call)
    (hkeeps : KeepsCounts host w.ctx call) :
    ∃ err w', kmodCall host w call = .ok (err, w') ∧ Counted host w' ∧ (err < 0 → w' = w) := by
  cases call with
  | newFromName name malloc realloc => exact kmodModuleNew_counted h hpermitted.1 hpermitted.2 hkeeps
  | newFromAlias aliasname name malloc realloc =>
    by_cases hlong : name.length + aliasname.length + 2 > PATH_MAX
    · refine ⟨-ENAMETOOLONG, w, ?_, h, fun _ => rfl⟩
      simp only [kmodCall, kmodModuleNewFromAlias, if_pos hlong, Except.map, World.receive]
      rfl
    · simp only [kmodCall, kmodModuleNewFromAlias, if_neg hlong]
      exact kmodModuleNew_counted h hpermitted.1 hpermitted.2 (hkeeps (Nat.not_lt.mp hlong))
  | moduleRef mod =>
    obtain ⟨x, hx, _⟩ := h.held hpermitted
    obtain ⟨ctx, hcall, hcounted⟩ := kmodModuleRef_counted h hx (hkeeps x hx)
    refine ⟨0, _, ?_, hcounted, fun hneg => absurd hneg (lt_irrefl 0)⟩
    simp only [kmodCall, hcall, ok_bind]
  | moduleUnref mod realloc =>
    obtain ⟨ctx, hcall, hcounted⟩ := kmodModuleUnref_counted h hpermitted realloc
    refine ⟨0, _, ?_, hcounted, fun hneg => absurd hneg (lt_irrefl 0)⟩
    simp only [kmodCall, hcall, ok_bind]
  | ref =>
    have hrel : w.ctx.released = false := hpermitted
    have hsmall : w.ctx.refcount < INT_MAX := hkeeps
    have hcall : kmodCall host w .ref
        = .ok (0,
          { w with ctx := { w.ctx with refcount := w.ctx.refcount + 1 }, ctxRefs := w.ctxRefs + 1 }) := by
      simp only [kmodCall, kmodRef, increment, if_neg (ne_of_lt hsmall), ok_bind]
    refine ⟨0, _, hcall, ⟨h.pool, h.refs, h.unheld, h.nonnull, ?_, ?_⟩,
      fun hneg => absurd hneg (lt_irrefl 0)⟩
    · have hcount := h.count
      show w.ctx.refcount + 1 = ((w.ctxRefs + 1 : Nat) : Int) + w.ctx.heap.keys.card
      omega
    · have hcount := h.count
      show w.ctx.released = true ↔ w.ctx.refcount + 1 ≤ 0
      rw [hrel]
      refine ⟨fun hf => absurd hf (by simp), fun hle => ?_⟩
      omega
  | unref => exact ⟨0, _, rfl, kmodUnref_counted h hpermitted,
      fun hneg => absurd hneg (lt_irrefl 0)⟩

end Calls

/-! ## Runs -/

theorem Reached.counted {host : Host} {w : World} (h : Reached host w) : Counted host w := by
  induction h with
  | new hnew => exact kmodNew_counted host hnew
  | call _ hpermitted hkeeps hcall ih =>
    obtain ⟨err', w'', hcall', hcounted, _⟩ := kmodCall_counted ih hpermitted hkeeps
    obtain ⟨rfl, rfl⟩ : _ = err' ∧ _ = w'' := by
      rw [hcall'] at hcall
      injection hcall with hpair
      injection hpair with h1 h2
      exact ⟨h1.symm, h2.symm⟩
    exact hcounted

/--
**Reference counts.** In every state reached the pool maps exactly the keys of the modules
that live to these modules, no two of which share a key, and the context has as many
references as clients hold and modules live; a call that fails changes nothing.
-/
theorem refcounts_counted {host : Host} {w : World} (h : Reached host w) :
    Counted host w ∧
      (∀ mod mod' x x', w.ctx.heap.lookup mod = some x → w.ctx.heap.lookup mod' = some x' →
        x.hashkey = x'.hashkey → mod = mod') ∧
      ∀ call, Permitted w call → KeepsCounts host w.ctx call →
        ∃ err w', kmodCall host w call = .ok (err, w') ∧ (err < 0 → w' = w) := by
  have hcounted := h.counted
  refine ⟨hcounted, fun mod mod' x x' hx hx' hkey => hcounted.unique hx hx' hkey, ?_⟩
  intro call hpermitted hkeeps
  obtain ⟨err, w', hcall, _, hfailed⟩ := kmodCall_counted hcounted hpermitted hkeeps
  exact ⟨err, w', hcall, hfailed⟩

/-- What `kmod_new` returns. -/
def newWorld : World := ⟨⟨1, ⟨0, 8, 256, false, List.replicate 256 ⟨[], 0⟩⟩, ∅, false⟩,
    1, fun _ => 0⟩

theorem kmodNew_eq : kmodNew = some newWorld.ctx := by
  have hsize : alignPower2 KMOD_HASH_SIZE = some 256 := by decide
  rw [kmodNew, hashNew, hsize]
  rfl

/-- A module `a` is created next. -/
def oneModule : World :=
  ⟨⟨2, ⟨1, 8, 256, false, (List.replicate 256 ⟨[], 0⟩).set
    (hashPos littleHost newWorld.ctx.modulesByName (cstr "a"))
      ⟨[⟨cstr "a", 1⟩], 8⟩⟩,
    Finmap.insert 1 ⟨cstr "a", none, cstr "a", 1⟩ ∅, false⟩, 1, Function.update (fun _ => 0) 1 1⟩

/-- The client then has one reference of the context and one of the module. -/
theorem refcounts_counted_oneModule :
    Reached littleHost oneModule ∧ oneModule.ctx.refcount = 2 ∧ oneModule.ctxRefs = 1 ∧
      oneModule.modRefs 1 = 1 ∧ Counted littleHost oneModule := by
  have hpermitted : Permitted newWorld (.newFromName (cstr "a") (some 1) true) := by
    refine ⟨rfl, ?_⟩
    rintro m ⟨⟩
    exact ⟨Nat.one_ne_zero, Finmap.notMem_empty⟩
  have hkeeps : KeepsCounts littleHost newWorld.ctx (.newFromName (cstr "a") (some 1) true) := by
    refine ⟨fun mod x hx => ?_, fun _ _ => ⟨by decide, fun _ => rfl⟩⟩
    have hx' : (∅ : ModuleHeap).lookup mod = some x := hx
    rw [Finmap.lookup_empty] at hx'
    cases hx'
  have hcall : kmodCall littleHost newWorld (.newFromName (cstr "a") (some 1) true) =
      .ok (0, oneModule) := rfl
  have hreached : Reached littleHost oneModule := .call (.new kmodNew_eq) hpermitted hkeeps hcall
  exact ⟨hreached, rfl, rfl, rfl, (refcounts_counted hreached).1⟩

/-- The pool cannot grow: the call fails, and the context has kept a reference. -/
theorem kmodModuleNew_leaks :
    ∃ w', Reached littleHost newWorld ∧ Permitted newWorld (.newFromName (cstr "a") (some 1) false) ∧
      kmodCall littleHost newWorld (.newFromName (cstr "a") (some 1) false) = .ok (-ENOMEM, w') ∧
      newWorld.ctx.refcount = 1 ∧ w'.ctx.refcount = 2 ∧ w'.ctxRefs = 1 ∧ w'.ctx.heap = ∅ ∧
      ¬ Counted littleHost w' := by
  refine ⟨{ newWorld with ctx := { newWorld.ctx with refcount := 2 } }, .new kmodNew_eq,
    ⟨rfl, ?_⟩, ?_,
    rfl, rfl, rfl, rfl, ?_⟩
  · rintro m ⟨⟩
    exact ⟨Nat.one_ne_zero, Finmap.notMem_empty⟩
  · rfl
  · intro hcounted
    have hcount : (2 : Int) = ((1 : Nat) : Int) + ((∅ : ModuleHeap).keys.card : Nat) :=
      hcounted.count
    simp at hcount

end Kmod.Refcounts
