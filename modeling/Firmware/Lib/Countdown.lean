import Firmware.Lib.Runs

/-!
# Sampled Down-Counters

A counter that counts down to zero and starts over from its reload value, and a
program that looks at it now and then.

Two values of such a counter tell the time between them only up to whole periods.
`countdown_spec` says it without a remainder: the value now and the time since
then add up to the old value and some number of periods. What a program can
conclude from a difference of two values follows from the cases of that number,
which the lemmas below go through once. A smaller value is at least as far away as
the difference, a larger one at least a period less the difference, and the same
value at least a whole period, provided that any time has passed at all.

`sampled` runs a program that consumes values on a clock. Its answers are the
times between two looks, so that "with interruptions of any length between them"
is a quantifier over lists of numbers, and the time is kept beside the state where
the program cannot see it.

## Main definitions

* `tick`: One count.
* `countdown`: The value some counts later.
* `sampled`: A program that looks at a clock.

## Theorems

* `countdown_spec`: The value, the time and the number of periods.
* `countdown_add`: The value seen from a later start.
* `sub_le_elapsed`, `wrap_le_elapsed`, `period_le_elapsed`: What a difference says at
  least.
* `countdown_near`: The value at most a period later.
-/

namespace Firmware

variable {σ κ : Type*}

/-- One count of a counter that starts over at `reload`. -/
def tick (reload v : Nat) : Nat := if v = 0 then reload else v - 1

/-- The value `t` counts after it was `v`. -/
def countdown (reload v : Nat) : Nat → Nat
  | 0 => v
  | t + 1 => tick reload (countdown reload v t)

section Values

variable {reload v : Nat}

theorem countdown_le (hv : v ≤ reload) (t : Nat) : countdown reload v t ≤ reload := by
  induction t with
  | zero => exact hv
  | succ t ih =>
      rw [countdown, tick]
      split
      · exact le_refl reload
      · omega

/-- The time and the value add up to the first value and a number of periods. -/
theorem countdown_spec (reload v t : Nat) :
    ∃ k, t + countdown reload v t = v + k * (reload + 1) := by
  induction t with
  | zero => exact ⟨0, by rw [countdown]; omega⟩
  | succ t ih =>
      rcases ih with ⟨k, hk⟩
      rw [countdown, tick]
      -- A new period begins behind a zero.
      split
      · refine ⟨k + 1, ?_⟩
        rw [Nat.succ_mul]
        omega
      · exact ⟨k, by omega⟩

theorem countdown_add (reload v s t : Nat) :
    countdown reload v (s + t) = countdown reload (countdown reload v s) t := by
  induction t with
  | zero => rfl
  | succ t ih => rw [← Nat.add_assoc, countdown, countdown, ih]

/-- The same by the number of periods that are over: none, or at least one. -/
theorem countdown_cases (reload v t : Nat) :
    t + countdown reload v t = v ∨ v + (reload + 1) ≤ t + countdown reload v t := by
  rcases countdown_spec reload v t with ⟨k, hk⟩
  cases k with
  | zero => exact .inl (by omega)
  | succ k =>
      rw [Nat.succ_mul] at hk
      exact .inr (by omega)

theorem sub_le_elapsed (hv : v ≤ reload) (t : Nat) : v - countdown reload v t ≤ t := by
  rcases countdown_cases reload v t with h | h
  · omega
  · have := countdown_le hv t
    omega

theorem wrap_le_elapsed {t : Nat} (h : v < countdown reload v t) :
    reload + 1 + v - countdown reload v t ≤ t := by
  rcases countdown_cases reload v t with h' | h'
  · omega
  · omega

theorem period_le_elapsed {t : Nat} (h : countdown reload v t = v) (ht : 0 < t) :
    reload + 1 ≤ t := by
  rcases countdown_cases reload v t with h' | h'
  · omega
  · omega

/-- Up to a period later the counter has started over at most once. -/
theorem countdown_near (hv : v ≤ reload) {t : Nat} (ht : t ≤ reload + 1) :
    t + countdown reload v t = v ∨ t + countdown reload v t = v + (reload + 1) := by
  have hle := countdown_le hv t
  rcases countdown_spec reload v t with ⟨k, hk⟩
  match k with
  | 0 => exact .inl (by omega)
  | 1 => exact .inr (by omega)
  | k + 2 =>
      have hmul : 2 * (reload + 1) ≤ (k + 2) * (reload + 1) :=
        Nat.mul_le_mul_right _ (Nat.le_add_left 2 k)
      omega

end Values

/-- A program that consumes the values of a clock, and the time. An answer is the time
    since the last value was taken. -/
def sampled (step : σ → κ → Option σ) (value : Nat → κ) : σ × Nat → Nat → Option (σ × Nat) :=
  fun w d => (step w.1 (value (w.2 + d))).map fun s => (s, w.2 + d)

theorem sampled_some (step : σ → κ → Option σ) (value : Nat → κ) {w w' : σ × Nat} {d : Nat}
    (h : sampled step value w d = some w') :
    step w.1 (value (w.2 + d)) = some w'.1 ∧ w'.2 = w.2 + d := by
  rcases Option.map_eq_some_iff.mp h with ⟨s, hs, rfl⟩
  exact ⟨hs, rfl⟩

end Firmware
