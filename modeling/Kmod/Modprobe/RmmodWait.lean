import Kmod.Shared.Backoff
import Kmod.Modprobe.Rmmod
import Kmod.Libkmod.Config

/-!
# Waiting for a module to be removed

With `-w`, `rmmod_do_remove_module` tries again as long as the kernel says that the module
is in use, and sleeps between the attempts. The time by which it gives up is the clock
after the first attempt plus the wait time, in 64 bits.

`-w` takes any number that `strtoul` does, and so the largest ones, also as `-1`. If the
sum does not fit, the time by which to give up is over at once, and there is no second
attempt (`rmmodDoRemoveModule_waits_iff`).
-/

namespace Kmod.RmmodWait

open Kmod

/-! ## The option -/

/-- The value of a digit or letter in `strtoul`. -/
def digitValue (c : UInt8) : Option Nat :=
  if 48 ≤ c ∧ c ≤ 57 then some (c.toNat - 48)
  else if 97 ≤ c ∧ c ≤ 122 then some (c.toNat - 97 + 10)
  else if 65 ≤ c ∧ c ≤ 90 then some (c.toNat - 65 + 10)
  else none

/-- The digits at the start, and what follows them. -/
def scanDigits (base : Nat) : Nat → CStr → Nat × CStr
  | n, [] => (n, [])
  | n, c :: s =>
    match digitValue c with
    | some d => if d < base then scanDigits base (n * base + d) s else (n, c :: s)
    | none => (n, c :: s)

/-- The base that the text has, and its digits behind the prefix. -/
def detectBase : CStr → Nat × CStr
  | 48 :: x :: c :: s =>
    if (x = 120 ∨ x = 88) ∧ (digitValue c).any (· < 16) then (16, c :: s) else (8,
      48 :: x :: c :: s)
  | 48 :: s => (8, 48 :: s)
  | s => (10, s)

structure StrtoulResult where
  value : UInt64
  /-- What `*endptr` points to. -/
  endptr : CStr
  /-- `errno == ERANGE`. -/
  range : Bool

/-- `strtoul(nptr, &endptr, 0)`, where `unsigned long` has 64 bits. -/
def strtoul (nptr : CStr) : StrtoulResult :=
  let s := nptr.dropWhile isspace
  let negative := s.head? = some 45
  let s := if s.head? = some 45 ∨ s.head? = some 43 then s.tail else s
  let (base, digits) := detectBase s
  let (n, rest) := scanDigits base 0 digits
  if rest = digits then ⟨0, nptr, false⟩
  else if 2 ^ 64 ≤ n then ⟨ULLONG_MAX, rest, true⟩
  else ⟨if negative then 0 - UInt64.ofNat n else UInt64.ofNat n, rest, false⟩

/-- `-w`: `wait_msec`, or `none` if modprobe refuses the argument. -/
def waitOption (optarg : CStr) : Option UInt64 :=
  let r := strtoul optarg
  if optarg = [] ∨ r.endptr ≠ [] ∨ r.range then none else some r.value

example : waitOption (cstr " 0x1F4") = some 500 := by decide

/-! ## The clock -/

/-- `struct timespec`; the seconds as the 64 bits of a `time_t`. -/
structure Timespec where
  tvSec : UInt64
  tvNsec : UInt64

def MSEC_PER_SEC : UInt64 := 1000
def NSEC_PER_MSEC : UInt64 := 1000000

def tsMsec (ts : Timespec) : UInt64 := ts.tvSec * MSEC_PER_SEC + ts.tvNsec / NSEC_PER_MSEC

def msecTs (msec : UInt64) : Timespec :=
  { tvSec := msec / MSEC_PER_SEC, tvNsec := msec % MSEC_PER_SEC * NSEC_PER_MSEC }

theorem tsMsec_msecTs (msec : UInt64) : tsMsec (msecTs msec) = msec := by
  have hlt := msec.toNat_lt
  have hsec : (msec / 1000 * 1000).toNat = msec.toNat / 1000 * 1000 % 2 ^ 64 :=
    UInt64.toNat_mul (msec / 1000) 1000
  have hnsec : (msec % 1000 * 1000000).toNat = msec.toNat % 1000 * 1000000 % 2 ^ 64 :=
    UInt64.toNat_mul (msec % 1000) 1000000
  have hback : (msec % 1000 * 1000000 / 1000000).toNat = msec.toNat % 1000 := by
    have hdiv : (msec % 1000 * 1000000 / 1000000).toNat = (msec % 1000 * 1000000).toNat / 1000000 :=
      UInt64.toNat_div (msec % 1000 * 1000000) 1000000
    rw [hdiv, hnsec, Nat.mod_eq_of_lt (by omega), Nat.mul_div_cancel _ (by decide)]
  apply UInt64.toNat_inj.1
  show (msec / 1000 * 1000 + msec % 1000 * 1000000 / 1000000).toNat = msec.toNat
  rw [UInt64.toNat_add, hback, hsec]
  omega

def EINTR : Int := 4
def ENOTSUP : Int := 95

/-- What a removal that waits uses of the system, besides the kernel. -/
structure WaitCtx (M S : Type) extends RmmodCtx M S where
  /-- `clock_gettime` with `CLOCK_MONOTONIC`; `none` if it fails. -/
  clockGettime : S → Option Timespec × S
  /-- `clock_nanosleep` until an absolute time: what it returns, and `errno`. -/
  clockNanosleep : Timespec → S → (Int × Int) × S

section Model

variable {M S : Type} (ctx : WaitCtx M S) (opts : RmmodOpts)

/-- `now_msec`. -/
def nowMsec (s : S) : UInt64 × S :=
  match ctx.clockGettime s with
  | (some ts, s) => (tsMsec ts, s)
  | (none, s) => (0, s)

/-- `sleep_until_msec`. -/
def sleepUntilMsec (msec : UInt64) (s : S) : Int × S :=
  let ((r, errno), s) := ctx.clockNanosleep (msecTs msec) s
  if r < 0 ∧ errno ≠ EINTR then (-errno, s) else (0, s)

/-- Until when to try, and the first interval, unless they are known already. -/
def startTimes (wait tend interval : UInt64) (s : S) : (UInt64 × UInt64) × S :=
  if tend = 0 then
    let (now, s) := nowMsec ctx s
    ((now + wait, 1), s)
  else ((tend, interval), s)

/-- The sleep after an attempt: the next interval, or `none` if there is to be no other attempt. -/
def backOff (wait tend interval : UInt64) (s : S) : Option UInt64 × S :=
  let (t, s) := nowMsec ctx s
  let (interval, untilMsec) := getBackoffDeltaMsec tend interval t
  let (err, s) := sleepUntilMsec ctx untilMsec s
  -- error out if now_msec fails
  let err := if tend = wait then -ENOTSUP else err
  if err < 0 ∨ interval = 0 then (none, s) else (some interval, s)

/-- The attempts; `KMOD_REMOVE_NOLOG` only says that a failed one is not logged. -/
def removeLoop (wait : UInt64) (mod : M) : Nat → UInt64 → UInt64 → S → Except Fault (Int × S)
  | 0, _, _, _ => .error .outOfFuel
  | fuel + 1, tend, interval, s =>
    let (err, s) := ctx.removeModule mod opts.force s
    if err = -EEXIST then .ok (if opts.firstTime then err else 0, s)
    else if err = -EAGAIN ∧ wait ≠ 0 then
      let ((tend, interval), s) := startTimes ctx wait tend interval s
      match backOff ctx wait tend interval s with
      | (some interval, s) => removeLoop wait mod fuel tend interval s
      | (none, s) => .ok (-EAGAIN, s)
    else .ok (err, s)

/-- `rmmod_do_remove_module`. -/
def rmmodDoRemoveModule (wait : UInt64) (fuel : Nat) (mod : M) (s : S) : Except Fault (Int × S) :=
  if opts.dryRun then .ok (0, s) else removeLoop ctx opts wait mod fuel 0 0 s

end Model

variable {M S : Type} {ctx : WaitCtx M S} {opts : RmmodOpts}

/-! ## A clock that goes on -/

/--
The kernel never lets the module go, the clock is never zero and never goes back, and a
sleep lasts until the time that was asked for, or longer.
-/
structure Patient (ctx : WaitCtx M S) (mod : M) (time : S → UInt64) : Prop where
  again : ∀ force s, (ctx.removeModule mod force s).1 = -EAGAIN
  removes : ∀ force s, time s ≤ time (ctx.removeModule mod force s).2
  reads : ∀ s, ∃ ts, (ctx.clockGettime s).1 = some ts ∧ tsMsec ts ≠ 0 ∧
    time s ≤ tsMsec ts ∧ tsMsec ts ≤ time (ctx.clockGettime s).2
  sleeps : ∀ ts s, 0 ≤ (ctx.clockNanosleep ts s).1.1 ∧
    time s ≤ time (ctx.clockNanosleep ts s).2 ∧ tsMsec ts ≤ time (ctx.clockNanosleep ts s).2

/-- The next attempt, if there is to be one. -/
def afterSleep (ctx : WaitCtx M S) (opts : RmmodOpts) (wait : UInt64) (mod : M) (fuel : Nat)
    (tend : UInt64) : Option UInt64 × S → Except Fault (Int × S)
  | (some interval, s) => removeLoop ctx opts wait mod fuel tend interval s
  | (none, s) => .ok (-EAGAIN, s)

namespace Patient

variable {mod : M} {time : S → UInt64} (h : Patient ctx mod time)

include h

theorem nowMsec (s : S) :
    (RmmodWait.nowMsec ctx s).1 ≠ 0 ∧ time s ≤ (RmmodWait.nowMsec ctx s).1 ∧
      (RmmodWait.nowMsec ctx s).1 ≤ time (RmmodWait.nowMsec ctx s).2 := by
  obtain ⟨ts, hts, hne, hfrom, hto⟩ := h.reads s
  unfold RmmodWait.nowMsec
  generalize ctx.clockGettime s = r at hts hto
  obtain ⟨r, s'⟩ := r
  cases hts
  exact ⟨hne, hfrom, hto⟩

theorem sleepUntilMsec (msec : UInt64) (s : S) :
    (RmmodWait.sleepUntilMsec ctx msec s).1 = 0 ∧
      time s ≤ time (RmmodWait.sleepUntilMsec ctx msec s).2 ∧
      msec ≤ time (RmmodWait.sleepUntilMsec ctx msec s).2 := by
  obtain ⟨hnot, hgo, huntil⟩ := h.sleeps (msecTs msec) s
  rw [tsMsec_msecTs] at huntil
  unfold RmmodWait.sleepUntilMsec
  generalize ctx.clockNanosleep (msecTs msec) s = r at hnot hgo huntil
  obtain ⟨⟨r, errno⟩, s'⟩ := r
  have hr : ¬ (r < 0 ∧ errno ≠ EINTR) := fun hlt => absurd hlt.1 (by simpa using hnot)
  dsimp only
  rw [if_neg hr]
  exact ⟨rfl, hgo, huntil⟩

/-- **A sleep** ends the attempts when the time is over, and otherwise the clock goes on. -/
theorem backOff {wait tend : UInt64} (hne : tend ≠ wait) (interval : UInt64) (s : S) :
    ((RmmodWait.backOff ctx wait tend interval s).1 = none ∧
      tend ≤ time (RmmodWait.backOff ctx wait tend interval s).2) ∨
    (tend ≠ 0 ∧ (∃ i, (RmmodWait.backOff ctx wait tend interval s).1 = some i) ∧
      time s < time (RmmodWait.backOff ctx wait tend interval s).2) := by
  obtain ⟨-, hfrom, hto⟩ := h.nowMsec s
  unfold RmmodWait.backOff
  generalize RmmodWait.nowMsec ctx s = r at hfrom hto
  obtain ⟨t, s₁⟩ := r
  dsimp only at hfrom hto ⊢
  obtain ⟨hzero, hgo, huntil⟩ := h.sleepUntilMsec (getBackoffDeltaMsec tend interval t).2 s₁
  generalize RmmodWait.sleepUntilMsec ctx (getBackoffDeltaMsec tend interval t).2 s₁ = r
    at hzero hgo huntil
  obtain ⟨err, s₂⟩ := r
  dsimp only at hzero hgo huntil ⊢
  rw [if_neg hne, hzero]
  by_cases hlate : tend ≤ t
  · rw [getBackoffDeltaMsec_late hlate, if_pos (Or.inr rfl)]
    exact Or.inl ⟨rfl, UInt64.le_trans hlate (UInt64.le_trans hto hgo)⟩
  · have hearly : t < tend := UInt64.not_le.1 hlate
    obtain ⟨hpos, -, -, hsum⟩ := getBackoffDeltaMsec_early hearly interval
    have hgoes : ¬ ((0 : Int) < 0 ∨ (getBackoffDeltaMsec tend interval t).1 = 0) := by
      rintro (hlt | hz)
      · exact absurd hlt (by decide)
      · rw [hz] at hpos
        exact absurd hpos (by decide)
    rw [if_neg hgoes]
    refine Or.inr ⟨?_, ⟨_, rfl⟩, ?_⟩
    · rintro rfl
      exact absurd hearly (by simp)
    · show time s < time s₂
      have huntil' := UInt64.le_iff_toNat_le.1 huntil
      have hfrom' := UInt64.le_iff_toNat_le.1 hfrom
      exact UInt64.lt_iff_toNat_lt.2 (by omega)

/-- An attempt fails, and what follows is the sleep. -/
theorem removeLoop_eq {wait : UInt64} (hwait : wait ≠ 0) (fuel : Nat) (tend interval : UInt64)
    (s : S) :
    removeLoop ctx opts wait mod (fuel + 1) tend interval s
      = let times := startTimes ctx wait tend interval (ctx.removeModule mod opts.force s).2
        afterSleep ctx opts wait mod fuel times.1.1
          (RmmodWait.backOff ctx wait times.1.1 times.1.2 times.2) := by
  have hagain := h.again opts.force s
  unfold removeLoop
  generalize ctx.removeModule mod opts.force s = r at hagain ⊢
  obtain ⟨err, s₁⟩ := r
  dsimp only at hagain ⊢
  subst hagain
  have hnot : ¬ (-EAGAIN : Int) = -EEXIST := by decide
  rw [if_neg hnot, if_pos ⟨rfl, hwait⟩]
  rfl

/-- **The attempts end**, and not before the time that was set for it. -/
theorem afterSleep_ends (opts : RmmodOpts) {wait tend : UInt64} (hwait : wait ≠ 0)
    (hne : tend ≠ wait)
    (interval : UInt64) (s : S) :
    ∃ bound s', tend ≤ time s' ∧ ∀ fuel ≥ bound,
      afterSleep ctx opts wait mod fuel tend (RmmodWait.backOff ctx wait tend interval s)
        = .ok (-EAGAIN, s') := by
  -- the clock goes on with each sleep, and it has an end
  induction hn : 2 ^ 64 - (time s).toNat using Nat.strong_induction_on generalizing interval s with
  | _ n ih =>
    subst hn
    have hback := h.backOff hne interval s
    generalize RmmodWait.backOff ctx wait tend interval s = r at hback ⊢
    obtain ⟨r, s₁⟩ := r
    dsimp only at hback
    rcases hback with ⟨rfl, hend⟩ | ⟨hzero, ⟨i, rfl⟩, hgo⟩
    · exact ⟨0, s₁, hend, fun _ _ => rfl⟩
    · -- there is another attempt, and then the sleep that follows it
      have hremove := h.removes opts.force s₁
      generalize hs₂ : (ctx.removeModule mod opts.force s₁).2 = s₂ at hremove
      have hgo' := UInt64.lt_iff_toNat_lt.1 hgo
      have hremove' := UInt64.le_iff_toNat_le.1 hremove
      have hbound := (time s₂).toNat_lt
      obtain ⟨bound, s', hend, hrun⟩ := ih (2 ^ 64 - (time s₂).toNat) (by omega) i s₂ rfl
      refine ⟨bound + 1, s', hend, fun fuel hfuel => ?_⟩
      obtain ⟨fuel, rfl⟩ : ∃ n, fuel = n + 1 := ⟨fuel - 1, by omega⟩
      show removeLoop ctx opts wait mod (fuel + 1) tend i s₁ = _
      rw [h.removeLoop_eq hwait, hs₂]
      unfold startTimes
      rw [if_neg hzero]
      exact hrun fuel (by omega)

end Patient

/-- The clock after the first attempt. -/
def startMsec (ctx : WaitCtx M S) (opts : RmmodOpts) (mod : M) (s : S) : UInt64 :=
  (nowMsec ctx (ctx.removeModule mod opts.force s).2).1

/--
**modprobe waits for the whole time**, whatever number that time is, exactly when the time
by which it gives up has 64 bits. It always ends.
-/
theorem rmmodDoRemoveModule_waits_iff {mod : M} {time : S → UInt64} (h : Patient ctx mod time)
    (opts : RmmodOpts) {wait : UInt64} (hwait : wait ≠ 0) (s : S) :
    ∃ bound err s',
      (∀ fuel ≥ bound, rmmodDoRemoveModule ctx opts wait fuel mod s = .ok (err, s')) ∧
      (opts.dryRun = false → err = -EAGAIN) ∧
      ((err = -EAGAIN → (startMsec ctx opts mod s).toNat + wait.toNat ≤ (time s').toNat) ↔
        opts.dryRun = true ∨ (startMsec ctx opts mod s).toNat + wait.toNat < 2 ^ 64) := by
  unfold rmmodDoRemoveModule
  by_cases hdry : opts.dryRun = true
  · refine ⟨0, 0, s, fun _ _ => if_pos hdry, fun hnot => ?_, fun _ => Or.inl hdry, fun _ herr => ?_⟩
    · rw [hdry] at hnot
      exact absurd hnot (by decide)
    · exact absurd herr (by decide)
  obtain ⟨hstart, -, -⟩ := h.nowMsec (ctx.removeModule mod opts.force s).2
  have hne : startMsec ctx opts mod s + wait ≠ wait := by
    intro heq
    exact hstart (UInt64.add_eq_right.1 heq)
  obtain ⟨bound, s', hend, hrun⟩ := h.afterSleep_ends opts hwait hne 1
    (nowMsec ctx (ctx.removeModule mod opts.force s).2).2
  refine ⟨bound + 1, -EAGAIN, s', fun fuel hfuel => ?_, fun _ => rfl, fun hwaits => Or.inr ?_,
    fun hsum _ => ?_⟩
  · obtain ⟨fuel, rfl⟩ : ∃ n, fuel = n + 1 := ⟨fuel - 1, by omega⟩
    rw [if_neg hdry, h.removeLoop_eq hwait]
    exact hrun fuel (by omega)
  · exact Nat.lt_of_le_of_lt (hwaits rfl) (time s').toNat_lt
  · have hfits := hsum.resolve_left hdry
    have hend' := UInt64.le_iff_toNat_le.1 hend
    rw [UInt64.toNat_add, Nat.mod_eq_of_lt hfits] at hend'
    exact hend'

/-! ## A wait time that is too long -/

/-- The time, where nothing happens but the sleeps. -/
abbrev Msec := { t : UInt64 // t ≠ 0 }

/-- A sleep until a time that is over ends at once. -/
def Msec.sleep (t : Msec) (msec : UInt64) : Msec :=
  if h : t.1 < msec then ⟨msec, fun hzero => by simp [hzero] at h⟩ else t

/-- A module in use, for ever. -/
def busyModule : WaitCtx Unit Msec where
  name := fun _ => cstr "loop"
  dep := fun _ => []
  softdeps := []
  newFromLookup := fun _ => .ok []
  fnmatch := fun _ _ => false
  removeCommands := fun _ => none
  initstate := fun _ _ => KMOD_MODULE_LIVE
  refcnt := fun _ _ => 1
  holders := fun _ _ => []
  removeModule := fun _ _ t => (-EAGAIN, t)
  commandDo := fun _ _ t => (0, t)
  clockGettime := fun t => (some (msecTs t.1), t)
  clockNanosleep := fun ts t => ((0, 0), t.sleep (tsMsec ts))

theorem busyModule_patient : Patient busyModule () (fun t => t.1) where
  again := fun _ _ => rfl
  removes := fun _ t => UInt64.le_refl t.1
  reads := fun t => ⟨msecTs t.1, rfl, by rw [tsMsec_msecTs]; exact t.2,
    by rw [tsMsec_msecTs]; exact UInt64.le_refl t.1, by rw [tsMsec_msecTs]; exact UInt64.le_refl t.1⟩
  sleeps := by
    intro ts t
    refine ⟨Int.le_refl 0, ?_⟩
    show t.1 ≤ (t.sleep (tsMsec ts)).1 ∧ tsMsec ts ≤ (t.sleep (tsMsec ts)).1
    unfold Msec.sleep
    split
    · next h => exact ⟨UInt64.le_of_lt h, UInt64.le_refl _⟩
    · next h => exact ⟨UInt64.le_refl _, UInt64.not_lt.1 h⟩

def waitOpts : RmmodOpts :=
  { dryRun := false, force := false, firstTime := false, ignoreCommands := false
    ignoreLoaded := false }

theorem rmmodDoRemoveModule_waits_iff_busy :
    ∃ bound s', (∀ fuel ≥ bound,
      rmmodDoRemoveModule busyModule waitOpts 500 fuel () ⟨1000, by decide⟩ = .ok (-EAGAIN, s')) ∧
      1500 ≤ s'.1.toNat := by
  obtain ⟨bound, err, s', hrun, hagain, hwaits⟩ := rmmodDoRemoveModule_waits_iff
    busyModule_patient waitOpts (by decide : (500 : UInt64) ≠ 0) ⟨1000, by decide⟩
  cases hagain rfl
  exact ⟨bound, s', hrun, hwaits.2 (Or.inr (by decide)) rfl⟩

/-- With `-w -1`, modprobe gives up when a second has passed since the clock was zero. -/
theorem rmmodDoRemoveModule_minus_one :
    waitOption (cstr "-1") = some ULLONG_MAX ∧ Patient busyModule () (fun t => t.1) ∧
      (∀ fuel, rmmodDoRemoveModule busyModule waitOpts ULLONG_MAX (fuel + 1) () ⟨1000, by decide⟩
        = .ok (-EAGAIN, ⟨1000, by decide⟩)) ∧
      startMsec busyModule waitOpts () ⟨1000, by decide⟩ = 1000 ∧
      ¬ (1000 + ULLONG_MAX.toNat ≤ 1000) :=
  ⟨by decide, busyModule_patient, fun _ => rfl, by decide, by decide⟩

end Kmod.RmmodWait
