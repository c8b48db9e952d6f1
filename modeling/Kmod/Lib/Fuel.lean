import Mathlib.Logic.Basic
import Mathlib.Order.Basic

/-!
# Runs with fuel

A recursion that may go on for ever is written with a number of steps it may
still take; when they are used up, it stops with an error of its own, `stop`. The
recursion itself ends if, from some number of steps on, the result is always the
same and is not this error (`Ends`). It goes on for ever if it runs out of every
number of steps (`Endless`).

`Ends` composes as the runs do, so that a proof of it follows the program text.
-/

namespace Kmod.Fuel

variable {ε α β : Type} {stop : ε}

/-- With enough fuel, the run always has the same result. -/
def Ends (stop : ε) (run : Nat → Except ε α) : Prop :=
  ∃ bound res, res ≠ .error stop ∧ ∀ fuel ≥ bound, run fuel = res

/-- No fuel is enough. -/
def Endless (stop : ε) (run : Nat → Except ε α) : Prop := ∀ fuel, run fuel = .error stop

theorem Endless.not_ends {run : Nat → Except ε α} (h : Endless stop run) : ¬ Ends stop run := by
  rintro ⟨bound, res, hres, hrun⟩
  exact hres ((hrun bound (Nat.le_refl _)).symm.trans (h bound))

/-- A run that needs no fuel. -/
theorem ends_const {res : Except ε α} (h : res ≠ .error stop) : Ends stop (fun _ => res) :=
  ⟨0, res, h, fun _ _ => rfl⟩

theorem ends_ok (a : α) : Ends stop (fun _ => .ok a) := ends_const (fun h => nomatch h)

/-- A run that takes one step before it starts. -/
theorem ends_succ {run : Nat → Except ε α} (h : Ends stop (fun fuel => run (fuel + 1))) :
    Ends stop run := by
  obtain ⟨bound, res, hres, hrun⟩ := h
  refine ⟨bound + 1, res, hres, fun fuel hfuel => ?_⟩
  obtain ⟨fuel, rfl⟩ : ∃ n, fuel = n + 1 := ⟨fuel - 1, by omega⟩
  exact hrun fuel (by omega)

theorem Ends.add {run : Nat → Except ε α} (h : Ends stop run) (n : Nat) :
    Ends stop (fun fuel => run (fuel + n)) := by
  obtain ⟨bound, res, hres, hrun⟩ := h
  exact ⟨bound, res, hres, fun fuel hfuel => hrun (fuel + n) (by omega)⟩

/-- **One run after the other.** -/
theorem Ends.bind {run : Nat → Except ε α} {next : Nat → α → Except ε β} (h : Ends stop run)
    (hnext : ∀ a, Ends stop (fun fuel => next fuel a)) :
    Ends stop (fun fuel => run fuel >>= next fuel) := by
  obtain ⟨bound, res, hres, hrun⟩ := h
  cases res with
  | error e =>
    refine ⟨bound, .error e, fun he => hres (congrArg _ (Except.error.inj he)),
      fun fuel hfuel => ?_⟩
    show (run fuel >>= next fuel) = _
    rw [hrun fuel hfuel]
    rfl
  | ok a =>
    obtain ⟨bound', res', hres', hrun'⟩ := hnext a
    refine ⟨max bound bound', res', hres', fun fuel hfuel => ?_⟩
    show (run fuel >>= next fuel) = _
    rw [hrun fuel (by omega)]
    exact hrun' fuel (by omega)

/-- A run after a step that needs no fuel. -/
theorem ends_bind {res : Except ε α} {next : Nat → α → Except ε β} (h : res ≠ .error stop)
    (hnext : ∀ a, res = .ok a → Ends stop (fun fuel => next fuel a)) :
    Ends stop (fun fuel => res >>= next fuel) := by
  cases res with
  | error e => exact ends_const (fun he => h (congrArg _ (Except.error.inj he)))
  | ok a => exact hnext a rfl

theorem bind_ne_stop {run : Except ε α} {next : α → Except ε β} (h : run ≠ .error stop)
    (hnext : ∀ a, next a ≠ .error stop) : (run >>= next) ≠ .error stop := by
  cases run with
  | error e => exact fun he => h (congrArg _ (Except.error.inj he))
  | ok a => exact hnext a

/-! ## Runs that can only run out of fuel -/

/-- A result, or the error for missing fuel: no other error. -/
def Quiet (stop : ε) (res : Except ε α) : Prop := ∀ e, res = .error e → e = stop

theorem quiet_ok (a : α) : Quiet stop (.ok a : Except ε α) := fun _ h => nomatch h

theorem quiet_stop : Quiet stop (.error stop : Except ε α) := fun _ h => (Except.error.inj h).symm

theorem Quiet.bind {run : Except ε α} {next : α → Except ε β} (h : Quiet stop run)
    (hnext : ∀ a, Quiet stop (next a)) : Quiet stop (run >>= next) := by
  cases run with
  | error e =>
    rw [h e rfl]
    exact quiet_stop
  | ok a => exact hnext a

/-- What comes before a run that is out of fuel can only run out of fuel, too. -/
theorem Quiet.bind_stop {run : Except ε α} {next : α → Except ε β} (h : Quiet stop run)
    (hnext : ∀ a, next a = .error stop) : (run >>= next) = .error stop := by
  cases run with
  | error e =>
    rw [h e rfl]
    rfl
  | ok a => exact hnext a

end Kmod.Fuel
