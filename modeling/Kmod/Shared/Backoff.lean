import Kmod.Base
import Mathlib.Data.Nat.Find
import Mathlib.Algebra.Order.Group.Nat

/-!
# Exponential backoff

`get_backoff_delta_msec` gives the time to sleep until the next attempt, when there is a
time by which the attempts have to end. The steps are doubled as long as they fit into the
time that is left, and halved when they do not.

A step is never zero before that time, so the clock, which is past the end of every step
when the next one is computed, reaches it; and no step goes beyond it
(`backoff_schedule`).
-/

namespace Kmod

/-! ## The model -/

def ULLONG_MAX : UInt64 := 18446744073709551615

theorem toNat_halved (d : UInt64) : (d >>> 1).toNat = d.toNat / 2 := by
  simp [Nat.shiftRight_eq_div_pow]

/-- `while (d > limit) d >>= 1`. -/
def fittingDelta (limit d : UInt64) : UInt64 :=
  if limit < d then fittingDelta limit (d >>> 1) else d
termination_by d.toNat
decreasing_by
  have hlt : limit.toNat < d.toNat := UInt64.lt_iff_toNat_lt.1 ‹_›
  rw [toNat_halved]
  omega

/-- The delta doubled; `umulll_overflow` says whether the product does not fit. -/
def doubledDelta (d : UInt64) : UInt64 := if 2 ^ 64 ≤ d.toNat * 2 then ULLONG_MAX else d * 2

/-- `get_backoff_delta_msec` at the time `t`: the new `*delta`, and what it returns. -/
def getBackoffDeltaMsec (tend delta t : UInt64) : UInt64 × UInt64 :=
  if tend ≤ t then (0, t + 0)
  else
    let limit := tend - t
    let d := if delta = 0 then 1 else doubledDelta delta
    let d := fittingDelta limit d
    -- if none found, use maximum wait time
    let d := if d = 0 then limit else d
    (d, t + d)

/-! ## One step -/

theorem toNat_pos_iff {d : UInt64} : 0 < d.toNat ↔ d ≠ 0 := by
  rw [Nat.pos_iff_ne_zero, Ne, Ne, ← UInt64.toNat_inj]
  rfl

theorem toNat_doubledDelta_le (d : UInt64) : (doubledDelta d).toNat ≤ 2 * d.toNat := by
  unfold doubledDelta
  split
  · next h =>
    have hmax : ULLONG_MAX.toNat = 2 ^ 64 - 1 := rfl
    omega
  · next h =>
    have htwo : (d * 2).toNat = d.toNat * 2 % 2 ^ 64 := UInt64.toNat_mul d 2
    omega

theorem toNat_doubledDelta_pos {d : UInt64} (h : d ≠ 0) : 0 < (doubledDelta d).toNat := by
  have hpos : 0 < d.toNat := toNat_pos_iff.2 h
  unfold doubledDelta
  split
  · decide
  · next h =>
    have htwo : (d * 2).toNat = d.toNat * 2 % 2 ^ 64 := UInt64.toNat_mul d 2
    omega

/-- Halving stops at a delta that fits, before it is zero. -/
theorem fittingDelta_spec {limit : UInt64} (hlimit : 0 < limit.toNat) (d : UInt64)
    (hd : 0 < d.toNat) :
    0 < (fittingDelta limit d).toNat ∧ (fittingDelta limit d).toNat ≤ limit.toNat ∧
      (fittingDelta limit d).toNat ≤ d.toNat := by
  induction d using fittingDelta.induct limit with
  | case1 d hlt ih =>
    have hlt' := UInt64.lt_iff_toNat_lt.1 hlt
    have hhalf := toNat_halved d
    obtain ⟨hpos, hle, hled⟩ := ih (by omega)
    rw [fittingDelta, if_pos hlt]
    exact ⟨hpos, hle, by omega⟩
  | case2 d hnot =>
    have hnot' : ¬ limit.toNat < d.toNat := fun h => hnot (UInt64.lt_iff_toNat_lt.2 h)
    rw [fittingDelta, if_neg hnot]
    exact ⟨hd, by omega, Nat.le_refl _⟩

/-- At the end, the delta is zero. -/
theorem getBackoffDeltaMsec_late {tend t : UInt64} (h : tend ≤ t) (delta : UInt64) :
    getBackoffDeltaMsec tend delta t = (0, t) := by
  unfold getBackoffDeltaMsec
  rw [if_pos h, UInt64.add_zero]

/-- **Before the end**, the delta is a step that is not too long and does not go beyond it. -/
theorem getBackoffDeltaMsec_early {tend t : UInt64} (h : t < tend) (delta : UInt64) :
    1 ≤ (getBackoffDeltaMsec tend delta t).1.toNat ∧
      (getBackoffDeltaMsec tend delta t).1.toNat ≤ (if delta = 0 then 1 else 2 * delta.toNat) ∧
      t.toNat + (getBackoffDeltaMsec tend delta t).1.toNat ≤ tend.toNat ∧
      (getBackoffDeltaMsec tend delta t).2.toNat
        = t.toNat + (getBackoffDeltaMsec tend delta t).1.toNat := by
  have hlt := UInt64.lt_iff_toNat_lt.1 h
  have hend := tend.toNat_lt
  have hle : t ≤ tend := UInt64.le_iff_toNat_le.2 (Nat.le_of_lt hlt)
  have hlimit : (tend - t).toNat = tend.toNat - t.toNat := UInt64.toNat_sub_of_le _ _ hle
  -- what is asked for, and what fits of it
  obtain ⟨d, hd, hdpos, hdle⟩ : ∃ d, d = (if delta = 0 then 1 else doubledDelta delta) ∧
      0 < d.toNat ∧ d.toNat ≤ (if delta = 0 then 1 else 2 * delta.toNat) := by
    by_cases hzero : delta = 0
    · exact ⟨1, by rw [if_pos hzero], by decide, by rw [if_pos hzero]; decide⟩
    · exact ⟨_, by rw [if_neg hzero], toNat_doubledDelta_pos hzero,
        by rw [if_neg hzero]; exact toNat_doubledDelta_le delta⟩
  obtain ⟨hpos, hfits, hsmall⟩ := fittingDelta_spec (by omega : 0 < (tend - t).toNat) d hdpos
  have hne : fittingDelta (tend - t) d ≠ 0 := toNat_pos_iff.1 hpos
  have hnot : ¬ tend ≤ t := fun hge => by
    have := UInt64.le_iff_toNat_le.1 hge
    omega
  unfold getBackoffDeltaMsec
  rw [if_neg hnot]
  dsimp only
  rw [← hd, if_neg hne]
  refine ⟨hpos, by omega, by omega, ?_⟩
  rw [UInt64.toNat_add, Nat.mod_eq_of_lt (by omega)]

/-! ## The schedule -/

/-- The delta before the `i`th call, where the `i`th call reads the clock as `clock i`. -/
def backoffDelta (tend delta : UInt64) (clock : Nat → UInt64) : Nat → UInt64
  | 0 => delta
  | i + 1 => (getBackoffDeltaMsec tend (backoffDelta tend delta clock i) (clock i)).1

/-- The time that the `i`th call returns. -/
def backoffUntil (tend delta : UInt64) (clock : Nat → UInt64) (i : Nat) : UInt64 :=
  (getBackoffDeltaMsec tend (backoffDelta tend delta clock i) (clock i)).2

/--
**The schedule.** If the clock never lags behind the time that was returned, every call
before `tend` gives a step that is not zero, not longer than twice the one before, and
ends at `tend` or earlier; every call from `tend` on gives zero, and some call does.
-/
theorem backoff_schedule (tend delta : UInt64) (clock : Nat → UInt64)
    (hclock : ∀ i, backoffUntil tend delta clock i ≤ clock (i + 1)) :
    (∀ i, clock i < tend →
      1 ≤ (backoffDelta tend delta clock (i + 1)).toNat ∧
      (backoffDelta tend delta clock (i + 1)).toNat
        ≤ (if backoffDelta tend delta clock i = 0 then 1
            else 2 * (backoffDelta tend delta clock i).toNat) ∧
      (backoffUntil tend delta clock i).toNat
        = (clock i).toNat + (backoffDelta tend delta clock (i + 1)).toNat ∧
      backoffUntil tend delta clock i ≤ tend) ∧
    (∀ i, tend ≤ clock i → backoffDelta tend delta clock (i + 1) = 0) ∧
    ∃ n, backoffDelta tend delta clock (n + 1) = 0 ∧ tend ≤ clock n ∧
      ∀ i < n, backoffDelta tend delta clock (i + 1) ≠ 0 ∧ clock i < tend := by
  have hearly : ∀ i, clock i < tend → _ :=
    fun i h => getBackoffDeltaMsec_early h (backoffDelta tend delta clock i)
  have hlate : ∀ i, tend ≤ clock i → backoffDelta tend delta clock (i + 1) = 0 :=
    fun i h => congrArg Prod.fst (getBackoffDeltaMsec_late h (backoffDelta tend delta clock i))
  -- as long as the end has not come, the clock goes on with each call
  have hgrows : ∀ n, (∀ i < n, clock i < tend) → n ≤ (clock n).toNat := by
    intro n
    induction n with
    | zero => exact fun _ => Nat.zero_le _
    | succ n ih =>
      intro h
      have hn := ih (fun i hi => h i (by omega))
      have huntil := UInt64.le_iff_toNat_le.1 (hclock n)
      obtain ⟨hpos, -, -, hsum⟩ := hearly n (h n (by omega))
      unfold backoffUntil at huntil
      omega
  have hexists : ∃ n, tend ≤ clock n := by
    by_contra hnone
    have hall : ∀ i, clock i < tend := fun i => UInt64.not_le.1 (fun h => hnone ⟨i, h⟩)
    have hbound := hgrows (tend.toNat + 1) (fun i _ => hall i)
    have hlt := UInt64.lt_iff_toNat_lt.1 (hall (tend.toNat + 1))
    omega
  refine ⟨fun i h => ?_, hlate, ?_⟩
  · obtain ⟨hpos, hdouble, hend, hsum⟩ := hearly i h
    exact ⟨hpos, hdouble, hsum, UInt64.le_iff_toNat_le.2 (hsum ▸ hend)⟩
  · -- the first reading at the end or later
    have hfirst := Nat.find_spec hexists
    refine ⟨Nat.find hexists, hlate _ hfirst, hfirst, fun i hi => ?_⟩
    have hi' : clock i < tend := UInt64.not_le.1 (Nat.find_min hexists hi)
    refine ⟨fun hzero => ?_, hi'⟩
    have hpos : 1 ≤ (backoffDelta tend delta clock (i + 1)).toNat := (hearly i hi').1
    rw [hzero] at hpos
    exact absurd hpos (by decide)

/-- A clock that jumps over the end while an attempt is made. -/
def jumpingClock (i : Nat) : UInt64 := if i = 0 then 1 else 9

theorem backoff_schedule_jumping :
    (∀ i, jumpingClock i < 7 → backoffUntil 7 1 jumpingClock i ≤ 7) ∧
      ∃ n, backoffDelta 7 1 jumpingClock (n + 1) = 0 := by
  have hclock : ∀ i, backoffUntil 7 1 jumpingClock i ≤ jumpingClock (i + 1) := by
    intro i
    cases i with
    | zero =>
      have hearly : (jumpingClock 0).toNat + _ ≤ (7 : UInt64).toNat ∧ _ :=
        (getBackoffDeltaMsec_early (by decide : jumpingClock 0 < 7) 1).2.2
      refine UInt64.le_iff_toNat_le.2 ?_
      show (getBackoffDeltaMsec 7 1 (jumpingClock 0)).2.toNat ≤ 9
      rw [hearly.2]
      exact Nat.le_trans hearly.1 (by decide)
    | succ i =>
      have hlate := getBackoffDeltaMsec_late (by decide : 7 ≤ (9 : UInt64))
        (backoffDelta 7 1 jumpingClock (i + 1))
      exact UInt64.le_of_eq (congrArg Prod.snd hlate)
  obtain ⟨hsteps, -, n, hn, -⟩ := backoff_schedule 7 1 jumpingClock hclock
  exact ⟨fun i hi => (hsteps i hi).2.2.2, n, hn⟩

end Kmod
