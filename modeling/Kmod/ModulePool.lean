import Kmod.Depmod.Register
import Kmod.Libkmod.Refcounts

/-!
# One pool of modules

`kmod_module_new` and what is built on it are modelled three times, each time with what the
results there are about. `Kmod.Libkmod.Refcounts` has the module objects with their references,
and the hash table that finds them. `Kmod.Depmod.Register` has a finite map from names to paths
and numbers of references, and asks of each allocation only whether it succeeds.
`Kmod.Libkmod.Depline` has the dependencies of modules, and nothing fails.

Here each of the coarser models is shown to do what the finer one does: the finite map follows
the objects and their table (`kmodModuleNew_refines`, `kmodModuleUnref_refines`), and the pool
without references follows the finite map (`kmodModuleNewFromPath_refines`).
-/

namespace Kmod.ModulePool

open Refcounts (CountedModule ModuleHeap PoolOf)
open Register (Attempt PoolModule)

/-! ## Objects and numbers of references -/

/-- The pool has the modules that live, under their keys, with their numbers of references; `keys`
is what the hash table of the context holds. -/
structure SameCounts (host : Host) (keys : StrMap Nat) (ctx : Refcounts.KmodCtx)
    (pool : StrMap PoolModule) : Prop where
  table : RefinesMap host ctx.modulesByName keys
  objects : PoolOf keys ctx.heap
  nonnull : 0 ∉ ctx.heap
  refs : ∀ n, (pool.lookup n).map (fun p => (p.refcount : Int)) =
    ((keys.lookup n).bind ctx.heap.lookup).map CountedModule.refcount

section Counts

variable {host : Host} {keys : StrMap Nat} {ctx : Refcounts.KmodCtx} {pool : StrMap PoolModule}
  (h : SameCounts host keys ctx pool) {key : CStr}

include h

/-- A module of the pool has an object. -/
theorem SameCounts.object {p : PoolModule} (hp : pool.lookup key = some p) :
    ∃ mod x, keys.lookup key = some mod ∧ ctx.heap.lookup mod = some x ∧ x.hashkey = key ∧
      x.refcount = p.refcount ∧ mod ≠ 0 := by
  have hrefs := h.refs key
  rw [hp] at hrefs
  obtain ⟨x, hx, hcount⟩ := Option.map_eq_some_iff.mp hrefs.symm
  obtain ⟨mod, hmod, hlookup⟩ := Option.bind_eq_some_iff.mp hx
  obtain ⟨y, hy, hkey⟩ := (h.objects key mod).mp hmod
  obtain rfl := Option.some.inj (hlookup.symm.trans hy)
  refine ⟨mod, x, hmod, hlookup, hkey, hcount, ?_⟩
  rintro rfl
  exact h.nonnull (Finmap.mem_of_lookup_eq_some hlookup)

/-- A name that is not in the pool has none. -/
theorem SameCounts.no_object (hp : pool.lookup key = none) : keys.lookup key = none := by
  have hrefs := h.refs key
  rw [hp] at hrefs
  cases hmod : keys.lookup key with
  | none => rfl
  | some mod =>
    obtain ⟨x, hx, -⟩ := (h.objects key mod).mp hmod
    rw [hmod, Option.bind_some, hx] at hrefs
    cases hrefs

/-- An object is put in under its key, or replaced. -/
theorem SameCounts.put {keys' : StrMap Nat} {hash : Hash Nat} {mod : Nat} {x : CountedModule}
    {q : PoolModule} (refcount : Int) (htable : RefinesMap host hash keys')
    (hobjects : PoolOf keys' (ctx.heap.insert mod x)) (hmod : mod ≠ 0) (hkey : x.hashkey = key)
    (hin : keys'.lookup key = some mod) (hothers : ∀ n ≠ key, keys'.lookup n = keys.lookup n)
    (hcount : (q.refcount : Int) = x.refcount) :
    SameCounts host keys'
      { ctx with modulesByName := hash, heap := ctx.heap.insert mod x, refcount := refcount }
      (pool.insert key q) := by
  refine ⟨htable, hobjects, ?_, fun n => ?_⟩
  · rw [Finmap.mem_insert, not_or]
    exact ⟨hmod.symm, h.nonnull⟩
  · rw [StrMap.lookup_insert]
    by_cases hn : n = key
    · rw [if_pos hn, hn, hin, Option.bind_some, Finmap.lookup_insert]
      exact congrArg some hcount
    · rw [if_neg hn, h.refs n, hothers n hn]
      cases hold : keys.lookup n with
      | none => rfl
      | some a =>
        have ha : a ≠ mod := by
          rintro rfl
          obtain ⟨y, hy, hykey⟩ := (hobjects n a).mp ((hothers n hn).trans hold)
          rw [Finmap.lookup_insert] at hy
          obtain rfl := Option.some.inj hy
          exact hn (hykey.symm.trans hkey)
        rw [Option.bind_some, Option.bind_some]
        exact congrArg _ (Finmap.lookup_insert_of_ne _ ha).symm

/-- An object goes, and its key. -/
theorem SameCounts.drop {hash : Hash Nat} {mod : Nat} {x : CountedModule} (refcount : Int)
    (released : Bool) (hmod : keys.lookup key = some mod) (hx : ctx.heap.lookup mod = some x)
    (hkey : x.hashkey = key) (htable : RefinesMap host hash (keys.erase key)) :
    SameCounts host (keys.erase key) ⟨refcount, hash, ctx.heap.erase mod, released⟩
      (pool.erase key) := by
  have hobjects : PoolOf (keys.erase key) (ctx.heap.erase mod) := by
    have herase := PoolOf.erase h.objects hx
    rw [hkey] at herase
    exact herase
  refine ⟨htable, hobjects, fun hin => h.nonnull (Finmap.mem_erase.mp hin).2, fun n => ?_⟩
  rw [StrMap.lookup_erase, StrMap.lookup_erase]
  by_cases hn : n = key
  · rw [if_pos hn, if_pos hn]
    rfl
  · rw [if_neg hn, if_neg hn, h.refs n]
    cases hold : keys.lookup n with
    | none => rfl
    | some a =>
      have ha : a ≠ mod := by
        rintro rfl
        obtain ⟨y, hy, hykey⟩ := (h.objects n a).mp hold
        rw [hx] at hy
        obtain rfl := Option.some.inj hy
        exact hn (hykey.symm.trans hkey)
      rw [Option.bind_some, Option.bind_some]
      exact congrArg _ (Finmap.lookup_erase_ne ha).symm

end Counts

/-- Counters do not overflow. -/
structure Room (ctx : Refcounts.KmodCtx) : Prop where
  refs : ctx.refcount < INT_MAX
  mods : ∀ mod x, ctx.heap.lookup mod = some x → x.refcount < INT_MAX
  keys : ctx.heap.keys.card < MAX_KEYS

section New

variable {host : Host} {keys : StrMap Nat} {ctx : Refcounts.KmodCtx} {pool : StrMap PoolModule}
  (h : SameCounts host keys ctx pool)

include h

/--
**A module of the pool, or a new one.** `kmod_module_new` returns the same in both models: the
object that the table finds is the entry of the map, and it has one reference more.
-/
theorem kmodModuleNew_refines (hroom : Room ctx) (a : Attempt) (key : CStr) {malloc : Option Nat}
    {realloc : Bool} (hfresh : Refcounts.Fresh ctx malloc) (hkmod : a.kmod = malloc.isSome)
    (hentry : a.poolEntry = true ↔
      (bucketFull host ctx.modulesByName key = true → realloc = true)) :
    ∃ err mod ctx', Refcounts.kmodModuleNew host ctx key key none malloc realloc
        = .ok (err, mod, ctx') ∧
      match Register.kmodModuleNew a pool key with
      | .error err' => err = err' ∧ SameCounts host keys ctx' pool
      | .ok p => err = 0 ∧ ∃ keys', keys'.lookup key = some mod ∧
          ∀ path, SameCounts host keys' ctx' (pool.insert key { p with path := path }) := by
  have hfind := h.table.hashFind_eq 0 key
  unfold Register.kmodModuleNew
  cases hp : pool.lookup key with
  | some p =>
    obtain ⟨mod, x, hmod, hx, hkey, hcount, hne⟩ := h.object hp
    have hsmall := ne_of_lt (hroom.mods mod x hx)
    rw [hmod, Option.getD_some] at hfind
    refine ⟨0, mod, { ctx with heap := ctx.heap.insert mod { x with refcount := x.refcount + 1 } },
      ?_, rfl, keys, hmod, fun path => ?_⟩
    · simp only [Refcounts.kmodModuleNew, hfind, ok_bind, if_pos hne, Refcounts.kmodModuleRef, hx,
        inBlock_some, Refcounts.increment, if_neg hsmall]
    · refine h.put ctx.refcount h.table (PoolOf.update h.objects hx rfl) hne hkey hmod
        (fun _ _ => rfl) ?_
      show ((p.refcount + 1 : Nat) : Int) = x.refcount + 1
      omega
  | none =>
    have hnone := h.no_object hp
    rw [hnone, Option.getD_none] at hfind
    cases malloc with
    | none =>
      refine ⟨-ENOMEM, 0, ctx, ?_, ?_⟩
      · simp only [Refcounts.kmodModuleNew, hfind, ok_bind, ne_eq, not_true_eq_false, if_false]
      · rw [hkmod]
        exact ⟨rfl, h⟩
    | some mod =>
      obtain ⟨hmod, hfree⟩ := hfresh mod rfl
      have hsmall := ne_of_lt hroom.refs
      have hkeys : keys.keys.card < MAX_KEYS :=
        Nat.lt_of_le_of_lt (Refcounts.card_pool_le h.objects) hroom.keys
      dsimp only
      rw [hkmod]
      cases hplace : a.poolEntry with
      | true =>
        obtain ⟨hash, hadd, htable⟩ :=
          Refcounts.hashAdd_new h.table hnone hkeys (hentry.mp hplace) mod
        have hobjects := PoolOf.insert h.objects ⟨key, none, key, 1⟩ hnone
          (Finmap.lookup_eq_none.mpr hfree)
        refine ⟨0, mod, { ctx with
          refcount := ctx.refcount + 1
          modulesByName := hash
          heap := ctx.heap.insert mod ⟨key, none, key, 1⟩ }, ?_, rfl, keys.insert key mod,
          Finmap.lookup_insert .., fun path => ?_⟩
        · simp only [Refcounts.kmodModuleNew, hfind, ok_bind, ne_eq, not_true_eq_false, if_false,
            Refcounts.kmodRef, Refcounts.increment, if_neg hsmall, hadd, Int.lt_irrefl]
        · exact h.put (ctx.refcount + 1) htable hobjects hmod rfl (Finmap.lookup_insert ..)
            (fun n hn => Finmap.lookup_insert_of_ne _ hn) rfl
      | false =>
        -- the bucket is full, and the table is left as it is
        have hfail : hashAdd host ctx.modulesByName key mod realloc
            = .ok (-ENOMEM, ctx.modulesByName, []) := by
          have hlen := h.table.lists.card_keys
          rcases hashAdd_cases h.table.valid (by omega) key mod realloc with
            ⟨hcall, -, -⟩ | ⟨hgrows, -⟩
          · exact hcall
          · rw [hentry.mpr hgrows] at hplace
            cases hplace
        refine ⟨-ENOMEM, 0, { ctx with refcount := ctx.refcount + 1 }, ?_, rfl, ?_⟩
        · have hneg : -ENOMEM < 0 := by decide
          simp only [Refcounts.kmodModuleNew, hfind, ok_bind, ne_eq, not_true_eq_false, if_false,
            Refcounts.kmodRef, Refcounts.increment, if_neg hsmall, hfail, if_pos hneg]
        · exact ⟨h.table, h.objects, h.nonnull, h.refs⟩

/-- **A reference is given back.** The last one takes the object with it, and the entry. -/
theorem kmodModuleUnref_refines {key : CStr} {p : PoolModule} (hp : pool.lookup key = some p)
    (realloc : Bool) :
    ∃ mod ctx' keys', keys.lookup key = some mod ∧
      Refcounts.kmodModuleUnref host ctx mod realloc = .ok ctx' ∧
      SameCounts host keys' ctx' (Register.kmodModuleUnref pool key) := by
  obtain ⟨mod, x, hmod, hx, hkey, hcount, hne⟩ := h.object hp
  unfold Register.kmodModuleUnref
  rw [hp]
  dsimp only
  by_cases hlast : p.refcount - 1 > 0
  · have hpos : x.refcount - 1 > 0 := by omega
    rw [if_pos hlast]
    refine ⟨mod, { ctx with heap := ctx.heap.insert mod { x with refcount := x.refcount - 1 } },
      keys, hmod, ?_, ?_⟩
    · simp only [Refcounts.kmodModuleUnref, hx, inBlock_some, ok_bind, if_pos hpos]
    · refine h.put ctx.refcount h.table (PoolOf.update h.objects hx rfl) hne hkey hmod
        (fun _ _ => rfl) ?_
      show ((p.refcount - 1 : Nat) : Int) = x.refcount - 1
      omega
  · have hzero : ¬ x.refcount - 1 > 0 := by omega
    obtain ⟨hash, gone, hdel, htable⟩ := Refcounts.hashDel_present h.table hmod realloc
    rw [if_neg hlast]
    refine ⟨mod, { Refcounts.kmodUnref { ctx with modulesByName := hash } with
      heap := (Refcounts.kmodUnref { ctx with modulesByName := hash }).heap.erase mod },
      keys.erase key, hmod, ?_, ?_⟩
    · simp only [Refcounts.kmodModuleUnref, hx, inBlock_some, ok_bind, if_neg hzero, hkey, hdel]
    · unfold Refcounts.kmodUnref
      dsimp only
      split
      · exact h.drop _ _ hmod hx hkey htable
      · exact h.drop _ _ hmod hx hkey htable

end New

/-! ## Paths -/

/-- The modules of both pools have the same paths. -/
structure SamePaths (mods : Pool) (pool : StrMap PoolModule) : Prop where
  paths : ∀ n, (mods n).map KmodModule.path = (pool.lookup n).map PoolModule.path
  alive : ∀ n p, pool.lookup n = some p → 0 < p.refcount

/-- Both calls fail with one error, or they find one module; the pools are the same then. -/
inductive SameModule (mods : Pool) : Except Int (CStr × Pool) →
    Except Int (CStr × CStr) × StrMap PoolModule → Prop where
  | error {err : Int} {pool : StrMap PoolModule} : SamePaths mods pool →
      SameModule mods (.error err) (.error err, pool)
  | ok {name path : CStr} {mods' : Pool} {pool : StrMap PoolModule} : SamePaths mods' pool →
      SameModule mods (.ok (name, mods')) (.ok (name, path), pool)

section Paths

variable {mods : Pool} {pool : StrMap PoolModule} (h : SamePaths mods pool)

include h

/-- A module gets its path in both pools. -/
theorem SamePaths.put {name : CStr} {m : KmodModule} {p : PoolModule} (hpath : m.path = p.path)
    (hpos : 0 < p.refcount) :
    SamePaths (Function.update mods name (some m)) (pool.insert name p) := by
  refine ⟨fun n => ?_, fun n q hq => ?_⟩
  · rw [StrMap.lookup_insert, Function.update_apply]
    split
    · exact congrArg some hpath
    · exact h.paths n
  · rw [StrMap.lookup_insert] at hq
    split at hq
    · obtain rfl := Option.some.inj hq
      exact hpos
    · exact h.alive n q hq

/-- A reference more and one less. -/
theorem SamePaths.again {name : CStr} {p : PoolModule} (hp : pool.lookup name = some p) :
    SamePaths mods
      (Register.kmodModuleUnref (pool.insert name { p with refcount := p.refcount + 1 }) name) := by
  have hpos := h.alive name p hp
  have hsame : Register.kmodModuleUnref
      (pool.insert name { p with refcount := p.refcount + 1 }) name = pool := by
    unfold Register.kmodModuleUnref
    rw [Finmap.lookup_insert]
    dsimp only
    rw [Nat.add_sub_cancel, if_pos hpos, Finmap.insert_insert]
    refine Finmap.ext_lookup (fun k => ?_)
    rw [StrMap.lookup_insert]
    split
    · next hk => rw [hk, hp]
    · rfl
  rw [hsame]
  exact h

/--
**A module of a path**, where nothing fails: `kmod_module_new_from_path` finds or makes the same
module, or refuses it for the same reason.
-/
theorem kmodModuleNewFromPath_refines (ctx : ModuleCtx) {a : Attempt} (hcwd : a.cwd = ctx.cwd)
    (hstat : a.stat = ctx.stat) (habspath : a.abspath = true) (hkmod : a.kmod = true)
    (hentry : a.poolEntry = true) (path : CStr) :
    SameModule mods (Kmod.kmodModuleNewFromPath ctx mods path)
      (Register.kmodModuleNewFromPath a pool path) := by
  unfold Kmod.kmodModuleNewFromPath Register.kmodModuleNewFromPath
  simp only [hcwd, hstat, habspath, Bool.not_true, Bool.false_eq_true, if_false]
  split
  · exact .error h
  · cases pathToModname path with
    | none => exact .error h
    | some name =>
      have hname := h.paths name
      cases hp : pool.lookup name with
      | none =>
        rw [hp] at hname
        have hm : mods name = none := Option.map_eq_none_iff.mp hname
        have hnew : Register.kmodModuleNew a pool name = .ok ⟨none, 1⟩ := by
          simp only [Register.kmodModuleNew, hp, hkmod, hentry, Bool.not_true, Bool.false_eq_true,
            if_false]
        simp only [Kmod.kmodModuleNew, hm, Option.getD_none, hnew]
        exact .ok (h.put rfl Nat.one_pos)
      | some p =>
        rw [hp] at hname
        obtain ⟨m, hm, hpath⟩ := Option.map_eq_some_iff.mp hname
        have hnew : Register.kmodModuleNew a pool name
            = .ok { p with refcount := p.refcount + 1 } := by
          simp only [Register.kmodModuleNew, hp]
        simp only [Kmod.kmodModuleNew, hm, Option.getD_some, hpath, hnew]
        cases hold : p.path with
        | none => exact .ok (h.put rfl (Nat.succ_pos _))
        | some old =>
          dsimp only
          split
          · exact .ok (h.put (hpath.trans hold) (Nat.succ_pos _))
          · have hagain := h.again hp
            rw [hold] at hagain
            exact .error hagain

end Paths

end Kmod.ModulePool
