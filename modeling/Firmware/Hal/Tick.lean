import Mathlib

/-!
# HAL Time Base

`HAL_GetTick` from `drivers/drv_common.c` and the wait loops that measure time
with it, such as the ones around the PHY registers in `drivers/test_eth.c`.

The function scales the kernel tick to milliseconds by multiplying before it
divides, in 32 bits. At a thousand ticks a second the two factors cancel only as
long as the product fits, so the value climbs to `4294967` and falls back to
zero, about a thousand times before the tick itself wraps around. A wait loop
subtracts two such values modulo `2 ^ 32`, which is exact for a counter that runs
over all 32 bits and not for one that falls back early.

How far off it is has a closed form. Of the milliseconds between two ticks the
subtraction loses `lost`, one portion of `4294967` or `4294968` for each point
between them at which the product wraps, and `timedOut_exact_iff` says in terms
of it exactly when a limit is tested correctly.

## Main definitions

* `HalStatus`: What the functions of the HAL return.
* `halGetTick`: The time base of the drivers.
* `timedOut`: The test of a wait loop.
* `lost`: The milliseconds a subtraction of two values misses.
* `waitReady`: The wait for the MII busy flag.

## Theorems

* `toNat_halGetTick`: The value of the time base in terms of the tick.
* `toNat_elapsed`: The difference a wait loop computes.
* `timedOut_exact_iff`: The test is exact in these cases and no others.
* `not_timedOut_exact`: One tick can be taken for more than two thousand million.
-/

namespace Firmware

/-- `HAL_StatusTypeDef` -/
inductive HalStatus
  | ok
  | error
  | busy
  | timeout
  deriving DecidableEq

namespace Hal

/-- `RT_TICK_PER_SECOND` -/
def tickPerSecond : UInt32 := 1000

/-- `PHY_READ_TO` and `PHY_WRITE_TO`, which have the same value. -/
def phyTimeout : UInt32 := 0xffff

/-- `HAL_GetTick` at the given kernel tick. -/
def halGetTick (tick : UInt32) : UInt32 := tick * 1000 / tickPerSecond

/-- `(HAL_GetTick() - tickstart) > limit`, both values being given. -/
def timedOut (now tickstart limit : UInt32) : Bool := limit < now - tickstart

/-- The test is true exactly for a wait of more than `limit` ticks. -/
def Exact (start elapsed limit : UInt32) : Prop :=
  timedOut (halGetTick (start + elapsed)) (halGetTick start) limit = true ↔ limit < elapsed

/-- How often the product has wrapped when the tick is `t`, the tick not wrapping. -/
def wraps (t : Nat) : Nat := t * 1000 / 2 ^ 32

/-- The milliseconds that are gone after `w` wraps of the product. -/
def lostAt (w : Nat) : Nat := (w * 2 ^ 32 + 999) / 1000

/-- The milliseconds a wait misses because the product wraps during it. -/
def lost (start elapsed : UInt32) : Nat :=
  lostAt (wraps (start.toNat + elapsed.toNat)) - lostAt (wraps start.toNat)

/-- The wraps take away what they take away, and the rest is the tick. -/
theorem scaled_eq (t : Nat) : t * 1000 % 2 ^ 32 / 1000 + lostAt (wraps t) = t := by
  simp only [lostAt, wraps]
  omega

theorem scaled_lt (t : Nat) : t * 1000 % 2 ^ 32 / 1000 < 4294968 := by omega

theorem toNat_halGetTick (t : UInt32) :
    (halGetTick t).toNat = t.toNat * 1000 % 2 ^ 32 / 1000 := by
  simp only [halGetTick, tickPerSecond, UInt32.toNat_div, UInt32.toNat_mul]
  rfl

/-- The tick wraps together with the product, so a sum of ticks need not be
    reduced before it is scaled. -/
theorem toNat_halGetTick_add (s e : UInt32) :
    (halGetTick (s + e)).toNat = (s.toNat + e.toNat) * 1000 % 2 ^ 32 / 1000 := by
  rw [toNat_halGetTick, UInt32.toNat_add, Nat.mod_mul_mod]

theorem lostAt_mono {v w : Nat} (h : v ≤ w) : lostAt v ≤ lostAt w := by
  simp only [lostAt]
  omega

theorem wraps_mono {s t : Nat} (h : s ≤ t) : wraps s ≤ wraps t := by
  simp only [wraps]
  omega

/-- A subtraction of two scaled values `a` and `b` modulo `2 ^ 32`, where `k` and
    `l` were lost until then. -/
theorem elapsed_arith {a b k l s e : Nat} (hnow : a + k = s + e) (hstart : b + l = s)
    (hkl : l ≤ k) (ha : a < 4294968) (hb : b < 4294968) (he : e < 2 ^ 31) :
    (k - l ≤ e ∧ (2 ^ 32 - b + a) % 2 ^ 32 = e - (k - l)) ∨
    (e < k - l ∧ 2 ^ 31 ≤ (2 ^ 32 - b + a) % 2 ^ 32) := by
  omega

/-- What a wait loop compares with its limit: the elapsed ticks without the lost
    ones, or far too much where more was lost than elapsed. -/
theorem toNat_elapsed (s e : UInt32) (he : e < 2 ^ 31) :
    (lost s e ≤ e.toNat ∧
      (halGetTick (s + e) - halGetTick s).toNat = e.toNat - lost s e) ∨
    (e.toNat < lost s e ∧ 2 ^ 31 ≤ (halGetTick (s + e) - halGetTick s).toNat) := by
  rw [UInt32.toNat_sub, toNat_halGetTick_add, toNat_halGetTick]
  -- Both values are the ticks until then, less what was lost until then.
  exact elapsed_arith (scaled_eq _) (scaled_eq _)
    (lostAt_mono (wraps_mono (Nat.le_add_right _ _))) (scaled_lt _) (scaled_lt _)
    (UInt32.lt_iff_toNat_lt.mp he)

/-- The time-out test of a wait is exact in two cases and in no others: the wait
    has lasted longer than the limit and the wraps have taken away more than the
    whole wait, or they have not and what they have taken away does not reach
    across the limit. -/
theorem timedOut_exact_iff (s e m : UInt32) (he : e < 2 ^ 31) (hm : m < 2 ^ 31) :
    Exact s e m ↔
      (e.toNat < lost s e ∧ m < e) ∨
      (lost s e ≤ e.toNat ∧ (e ≤ m ∨ m.toNat + lost s e < e.toNat)) := by
  have hlt : m.toNat < 2 ^ 31 := UInt32.lt_iff_toNat_lt.mp hm
  simp only [Exact, timedOut, decide_eq_true_eq, UInt32.lt_iff_toNat_lt, UInt32.le_iff_toNat_le]
  rcases toNat_elapsed s e he with ⟨hle, hval⟩ | ⟨hgt, hval⟩
  · rw [hval]
    omega
  · -- The difference has wrapped, so it is above every limit there can be.
    omega

/-- An hour into the uptime nothing has wrapped yet. -/
theorem timedOut_exact_hour : Exact 3600000 70000 phyTimeout :=
  (timedOut_exact_iff 3600000 70000 phyTimeout (by decide) (by decide)).mpr
    (Or.inr ⟨by decide, Or.inr (by decide)⟩)

/-- A wait across the first point at which the product wraps: the value falls back
    to zero, and one tick counts as more than any limit. -/
theorem not_timedOut_exact :
    ¬ ∀ s e m : UInt32, e < 2 ^ 31 → m < 2 ^ 31 → Exact s e m := by
  intro h
  have hwait := h 4294967 1 phyTimeout (by decide) (by decide)
  exact absurd (hwait.mp (by decide)) (by decide)

/-- The loop `while((tmpreg1 & ETH_MACMIIAR_MB) == ETH_MACMIIAR_MB)` of a PHY
    access: each turn has the tick at which the time is taken and the busy flag
    read behind it. `none` if the flag is still being waited for at the end. -/
def waitReady (limit start : UInt32) : List (UInt32 × Bool) → Option HalStatus
  | [] => none
  | (now, busy) :: polls =>
      -- A time-out is returned without another look at the flag.
      if timedOut (halGetTick now) (halGetTick start) limit then some .timeout
      else if busy then waitReady limit start polls
      else some .ok

end Hal

end Firmware
