import Firmware.Hal.Tick
import Firmware.Lib.Countdown

/-!
# Busy Waits on SysTick

Two functions that wait for a number of microseconds by looking at the SysTick
counter: `rt_hw_us_delay` from `drivers/drv_common.c` and `stm32_udelay` from
`drivers/drv_soft_i2c.c`.

They do the same thing in two ways. `rt_hw_us_delay` compares every value with the
first one. The counter runs through its period once a tick, so a difference never
exceeds the reload value, and a wait for more than that never ends. The product it
compares with has 32 bits, and where it wraps the wait is too short instead.
`correctDelay_iff` says that a wait of less than a tick is what is left, and that
there nothing is wrong.

`stm32_udelay` compares every value with the last one and adds the differences up.
A sum has no such limit, whole periods that an interruption hides are only missing
from it, and the count that the formula loses at each wrap makes the wait longer.
`stm32Udelay_waits` has no condition beyond the sizes of the numbers.

## Main definitions

* `rtHwSystickInit`: The reload value for a core clock.
* `sysTickVal`: The counter.
* `UsDelay`, `rtHwUsDelay`: The first wait.
* `CorrectDelay`: It ends, and not too early.
* `Udelay`, `stm32Udelay`: The second wait.

## Theorems

* `delta_le_elapsed`: The first wait never counts too much.
* `correctDelay_iff`: It is correct exactly for less than a tick.
* `added_le_elapsed`: The second wait never counts too much.
* `stm32Udelay_waits`: It ends, not too early, and its sum does not wrap.
-/

namespace Firmware

namespace Hal

/-- `SysTick_Config`: what it writes to the reload register, if that is possible. -/
def sysTickConfig (ticks : UInt32) : Option UInt32 :=
  if 0xffffff < ticks - 1 then none else some (ticks - 1)

/-- `rt_hw_systick_init` -/
def rtHwSystickInit (systemCoreClock : UInt32) : Option UInt32 :=
  sysTickConfig (systemCoreClock / tickPerSecond)

/-- `SysTick->VAL`, `t` counts after it was `start`. -/
def sysTickVal (reload start : UInt32) (t : Nat) : UInt32 :=
  UInt32.ofNat (countdown reload.toNat start.toNat t)

section Value

variable {reload start : UInt32}

theorem toNat_sysTickVal (h : start ≤ reload) (t : Nat) :
    (sysTickVal reload start t).toNat = countdown reload.toNat start.toNat t := by
  have hle := countdown_le (UInt32.le_iff_toNat_le.mp h) t
  exact UInt32.toNat_ofNat_of_lt' (lt_of_le_of_lt hle reload.toNat_lt)

theorem sysTickVal_le (h : start ≤ reload) (t : Nat) : sysTickVal reload start t ≤ reload := by
  rw [UInt32.le_iff_toNat_le, toNat_sysTickVal h]
  exact countdown_le (UInt32.le_iff_toNat_le.mp h) t

/-- A later value, seen from an earlier one. -/
theorem sysTickVal_add (h : start ≤ reload) (s t : Nat) :
    sysTickVal reload start (s + t) = sysTickVal reload (sysTickVal reload start s) t := by
  rw [sysTickVal, sysTickVal, toNat_sysTickVal h, countdown_add]

end Value

/-- The variables of `rt_hw_us_delay`, and whether its loop has ended. -/
structure UsDelay where
  start : UInt32
  reload : UInt32
  usTick : UInt32
  us : UInt32
  ended : Bool := false
  deriving DecidableEq, Repr

/-- `delta = start > now ? start - now : reload + start - now` -/
def UsDelay.delta (d : UsDelay) (now : UInt32) : UInt32 :=
  if d.start > now then d.start - now else d.reload + d.start - now

/-- One turn of the loop, with the value it reads. -/
def UsDelay.turn (d : UsDelay) (now : UInt32) : Option UsDelay :=
  if d.ended then none
  else some { d with ended := !decide (d.delta now < d.usTick * d.us) }

/-- `rt_hw_us_delay` at its loop, with the first value it has read. -/
def rtHwUsDelay (us systemCoreClock reload start : UInt32) : UsDelay :=
  { start := start, reload := reload, usTick := systemCoreClock / 1000000, us := us }

/-- The wait on the counter. -/
def usDelayStep (reload start : UInt32) : UsDelay × Nat → Nat → Option (UsDelay × Nat) :=
  sampled UsDelay.turn (sysTickVal reload start)

/-- The wait ends if it looks at every count, and whenever it ends, looking at
    increasing times, as many counts have passed as it should wait for. -/
structure CorrectDelay (us systemCoreClock reload start : UInt32) : Prop where
  ends : ∃ n w, run (usDelayStep reload start) (rtHwUsDelay us systemCoreClock reload start, 0)
    (List.replicate n 1) = some w ∧ w.1.ended = true
  late : ∀ gaps w, (∀ d ∈ gaps, 0 < d) →
    run (usDelayStep reload start) (rtHwUsDelay us systemCoreClock reload start, 0) gaps = some w →
    w.1.ended = true → us.toNat * (systemCoreClock.toNat / 1000000) ≤ w.2

section UsDelay

variable {d : UsDelay}

theorem toNat_delta (hs : d.start ≤ d.reload) {now : UInt32} (hn : now ≤ d.reload) :
    (d.delta now).toNat = if now.toNat < d.start.toNat then d.start.toNat - now.toNat
      else d.reload.toNat + d.start.toNat - now.toNat := by
  rw [UInt32.le_iff_toNat_le] at hs hn
  have hr := d.reload.toNat_lt
  simp only [UsDelay.delta, gt_iff_lt, UInt32.lt_iff_toNat_lt]
  split
  · rw [UInt32.toNat_sub]
    omega
  · rw [UInt32.toNat_sub, UInt32.toNat_add]
    omega

theorem delta_le_reload (hs : d.start ≤ d.reload) {now : UInt32} (hn : now ≤ d.reload) :
    (d.delta now).toNat ≤ d.reload.toNat := by
  rw [toNat_delta hs hn]
  rw [UInt32.le_iff_toNat_le] at hs hn
  split
  · omega
  · omega

/-- A difference is at most the time that has passed, as long as some has. -/
theorem delta_le_elapsed (hs : d.start ≤ d.reload) {t : Nat} (ht : 0 < t) :
    (d.delta (sysTickVal d.reload d.start t)).toNat ≤ t := by
  rw [toNat_delta hs (sysTickVal_le hs t), toNat_sysTickVal hs]
  split
  · exact sub_le_elapsed (UInt32.le_iff_toNat_le.mp hs) t
  · rename_i hge
    -- The same value again is a whole period away, although it looks like none.
    rcases Nat.lt_or_eq_of_le (Nat.le_of_not_lt hge) with hlt | heq
    · have := wrap_le_elapsed hlt
      omega
    · have := period_le_elapsed heq.symm ht
      omega

/-- A whole period later the difference is the largest one. -/
theorem delta_period (hs : d.start ≤ d.reload) :
    (d.delta (sysTickVal d.reload d.start (d.reload.toNat + 1))).toNat = d.reload.toNat := by
  have hle := UInt32.le_iff_toNat_le.mp hs
  rw [toNat_delta hs (sysTickVal_le hs _), toNat_sysTickVal hs]
  -- A whole period later the value is the first one again.
  rcases countdown_near hle (le_refl _) with h | h
  · omega
  · rw [if_neg (by omega)]
    omega

/-- What the loop keeps: its variables, and how the end relates to the time. -/
structure DelayInv (d₀ : UsDelay) (w : UsDelay × Nat) : Prop where
  same : w.1 = { d₀ with ended := w.1.ended }
  late : w.1.ended = true → (d₀.usTick * d₀.us).toNat ≤ w.2 ∧
    (d₀.usTick * d₀.us).toNat ≤ d₀.reload.toNat

theorem usDelay_turn {w w' : UsDelay × Nat} {gap : Nat} (h : DelayInv d w)
    (hs : usDelayStep d.reload d.start w gap = some w') :
    w.1.ended = false ∧ w'.2 = w.2 + gap ∧ w'.1 = { d with
      ended := !decide (d.delta (sysTickVal d.reload d.start (w.2 + gap)) < d.usTick * d.us) } := by
  rcases sampled_some _ _ hs with ⟨hturn, htime⟩
  rw [h.same] at hturn
  unfold UsDelay.turn at hturn
  split at hturn
  · cases hturn
  · rename_i hended
    rw [Option.some.injEq] at hturn
    exact ⟨by simpa using hended, htime, hturn.symm⟩

theorem DelayInv.step (hle : d.start ≤ d.reload) {w w' : UsDelay × Nat} {gap : Nat}
    (hgap : 0 < gap) (h : DelayInv d w) (hs : usDelayStep d.reload d.start w gap = some w') :
    DelayInv d w' := by
  rcases usDelay_turn h hs with ⟨-, htime, hd⟩
  -- The loop has ended because of a difference, which is neither more than the time nor more than
  -- the reload value.
  refine ⟨by rw [hd], fun hended => ?_⟩
  rw [hd] at hended
  simp only [Bool.not_eq_eq_eq_not, Bool.not_true, decide_eq_false_iff_not,
    UInt32.lt_iff_toNat_lt, Nat.not_lt] at hended
  rw [htime]
  exact ⟨hended.trans (delta_le_elapsed hle (by omega)),
    hended.trans (delta_le_reload hle (sysTickVal_le hle _))⟩

theorem run_delayInv (hle : d.start ≤ d.reload) (hd : d.ended = false) {gaps : List Nat}
    (hgaps : ∀ g ∈ gaps, 0 < g) {w : UsDelay × Nat}
    (hr : run (usDelayStep d.reload d.start) (d, 0) gaps = some w) : DelayInv d w := by
  refine run_invariant_along _ (fun _ gap => 0 < gap) (DelayInv d)
    (fun _ _ _ hI hg hs => hI.step hle hg hs) ⟨rfl, fun h => ?_⟩
    (along_of_forall _ _ hgaps) hr
  rw [hd] at h
  cases h

/-- A wait that looks at every count is over at the end of the period. -/
structure EveryCount (d₀ : UsDelay) (w : UsDelay × Nat) : Prop where
  inv : DelayInv d₀ w
  running : w.1.ended = false → w.2 ≤ d₀.reload.toNat
  time : w.2 ≤ d₀.reload.toNat + 1

theorem EveryCount.step (hle : d.start ≤ d.reload)
    (hcount : (d.usTick * d.us).toNat ≤ d.reload.toNat) {w w' : UsDelay × Nat}
    (h : EveryCount d w) (hs : usDelayStep d.reload d.start w 1 = some w') :
    EveryCount d w' ∧ w'.2 = w.2 + 1 := by
  rcases usDelay_turn h.inv hs with ⟨hrun, htime, hd⟩
  have hbefore := h.running hrun
  refine ⟨⟨h.inv.step hle Nat.one_pos hs, fun hended => ?_, by omega⟩, htime⟩
  -- At the end of the period the difference is large enough.
  by_contra hlate
  have hend : w.2 + 1 = d.reload.toNat + 1 := by omega
  rw [hd, hend] at hended
  simp only [Bool.not_eq_eq_eq_not, Bool.not_false, decide_eq_true_eq, UInt32.lt_iff_toNat_lt,
    delta_period hle] at hended
  omega

theorem everyCount_start (hd : d.ended = false) : EveryCount d (d, 0) := by
  refine ⟨⟨rfl, fun h => ?_⟩, fun _ => Nat.zero_le _, Nat.zero_le _⟩
  rw [hd] at h
  cases h

/-- A count that is not beyond the reload value is reached. -/
theorem usDelay_ends (hle : d.start ≤ d.reload) (hd : d.ended = false)
    (hcount : (d.usTick * d.us).toNat ≤ d.reload.toNat) :
    ∃ n w, run (usDelayStep d.reload d.start) (d, 0) (List.replicate n 1) = some w ∧
      w.1.ended = true := by
  have hreach := run_reaches (usDelayStep d.reload d.start) (A := fun gap => gap = 1)
    (I := EveryCount d) (P := fun w => w.1.ended = true)
    (fun w => d.reload.toNat + 1 - w.2) ?_ (everyCount_start hd) (fun _ => 1) fun _ => rfl
  · simpa [firstAnswers] using hreach
  · intro w gap h hrun hgap
    subst hgap
    rw [Bool.not_eq_true] at hrun
    -- As long as it runs it is within the period, so the counts left are a measure.
    have hbefore := h.running hrun
    have hturn : ∃ w', usDelayStep d.reload d.start w 1 = some w' := by
      simp [usDelayStep, sampled, UsDelay.turn, hrun]
    rcases hturn with ⟨w', hs⟩
    rcases h.step hle hcount hs with ⟨h', htime⟩
    exact ⟨w', hs, h', .inr (by omega)⟩

theorem replicate_one_pos (n : Nat) : ∀ g ∈ List.replicate n 1, 0 < g := by
  intro g hg
  rw [List.eq_of_mem_replicate hg]
  exact Nat.one_pos

/-- A wait that ends has reached its count, which is then not beyond the reload value. -/
theorem count_le_of_ends (hle : d.start ≤ d.reload) (hd : d.ended = false) {n : Nat}
    {w : UsDelay × Nat}
    (hr : run (usDelayStep d.reload d.start) (d, 0) (List.replicate n 1) = some w)
    (hended : w.1.ended = true) : (d.usTick * d.us).toNat ≤ d.reload.toNat :=
  ((run_delayInv hle hd (replicate_one_pos n) hr).late hended).2

/-- It is reached within a period. -/
theorem usDelay_soon (hle : d.start ≤ d.reload) (hd : d.ended = false)
    (hcount : (d.usTick * d.us).toNat ≤ d.reload.toNat) {n : Nat} {w : UsDelay × Nat}
    (hr : run (usDelayStep d.reload d.start) (d, 0) (List.replicate n 1) = some w) :
    w.2 ≤ d.reload.toNat + 1 := by
  have hone : Along (usDelayStep d.reload d.start) (fun _ gap => gap = 1) (d, 0)
      (List.replicate n 1) := along_of_forall _ _ fun _ hg => List.eq_of_mem_replicate hg
  refine (run_invariant_along _ _ (EveryCount d) ?_ (everyCount_start hd) hone hr).time
  intro w gap w' h hgap hs
  subst hgap
  exact (h.step hle hcount hs).1

end UsDelay

/-- The reload register has 24 bits. -/
theorem rtHwSystickInit_le {systemCoreClock reload : UInt32}
    (h : rtHwSystickInit systemCoreClock = some reload) : reload.toNat ≤ 0xffffff := by
  unfold rtHwSystickInit sysTickConfig at h
  split at h
  · cases h
  · rename_i hle
    rw [Option.some.injEq] at h
    rw [← h]
    exact UInt32.le_iff_toNat_le.mp (UInt32.not_lt.mp hle)

/-- What the loop compares with, as a number. -/
theorem toNat_count (us systemCoreClock reload start : UInt32) :
    ((rtHwUsDelay us systemCoreClock reload start).usTick *
      (rtHwUsDelay us systemCoreClock reload start).us).toNat =
      us.toNat * (systemCoreClock.toNat / 1000000) % 2 ^ 32 := by
  simp only [rtHwUsDelay]
  rw [UInt32.toNat_mul, UInt32.toNat_div, Nat.mul_comm]
  rfl

/-- For every argument, every core clock with the reload value derived from it, and
    every start value: the wait is correct exactly if it is for no more counts than
    the reload value. -/
theorem correctDelay_iff {systemCoreClock reload start : UInt32}
    (hinit : rtHwSystickInit systemCoreClock = some reload) (hstart : start ≤ reload)
    (us : UInt32) : CorrectDelay us systemCoreClock reload start ↔
      us.toNat * (systemCoreClock.toNat / 1000000) ≤ reload.toNat := by
  have hreload := rtHwSystickInit_le hinit
  have hcount := toNat_count us systemCoreClock reload start
  have hle : (rtHwUsDelay us systemCoreClock reload start).start ≤
    (rtHwUsDelay us systemCoreClock reload start).reload := hstart
  have hreg : (rtHwUsDelay us systemCoreClock reload start).reload.toNat = reload.toNat := rfl
  constructor
  · intro h
    rcases h.ends with ⟨n, w, hr, hended⟩
    -- It ended, so the 32 bits of the product are within reach, and soon.
    have hreached := count_le_of_ends hle rfl hr hended
    have hsoon := usDelay_soon hle rfl hreached hr
    have hlate := h.late _ w (replicate_one_pos n) hr hended
    rw [hreg] at hreached hsoon
    rw [hcount, Nat.mod_eq_of_lt (by omega)] at hreached
    exact hreached
  · intro h
    rw [Nat.mod_eq_of_lt (by omega)] at hcount
    have hreached : ((rtHwUsDelay us systemCoreClock reload start).usTick *
        (rtHwUsDelay us systemCoreClock reload start).us).toNat ≤
        (rtHwUsDelay us systemCoreClock reload start).reload.toNat := by
      rw [hcount, hreg]
      exact h
    have hends := usDelay_ends hle rfl hreached
    refine ⟨hends, fun gaps w hgaps hr hended => ?_⟩
    have hlate := ((run_delayInv hle rfl hgaps hr).late hended).1
    rw [hcount] at hlate
    exact hlate

/-- A tenth of a millisecond at 180 MHz. -/
theorem correctDelay_hundred : CorrectDelay 100 180000000 179999 5 :=
  (correctDelay_iff (by decide) (by decide) 100).mpr (by decide)

/-- A millisecond is a whole tick, and the wait for it does not end. -/
theorem not_correctDelay_millisecond : ¬ CorrectDelay 1000 180000000 179999 5 := by
  intro h
  rcases h.ends with ⟨n, w, hr, hended⟩
  have hle : (rtHwUsDelay 1000 180000000 179999 5).start ≤
    (rtHwUsDelay 1000 180000000 179999 5).reload := by decide
  exact absurd (count_le_of_ends hle rfl hr hended) (by decide)

/-- The variables of `stm32_udelay`, and whether its loop has ended. -/
structure Udelay where
  reload : UInt32
  ticks : UInt32
  told : UInt32
  tcnt : UInt32 := 0
  ended : Bool := false
  deriving DecidableEq, Repr

/-- What a new value adds to `tcnt`. -/
def Udelay.added (u : Udelay) (tnow : UInt32) : UInt32 :=
  if tnow < u.told then u.told - tnow else u.reload - tnow + u.told

/-- One turn of the loop, with the value it reads. -/
def Udelay.turn (u : Udelay) (tnow : UInt32) : Option Udelay :=
  if u.ended then none
  else if tnow ≠ u.told then
    some { u with
      tcnt := u.tcnt + u.added tnow
      told := tnow
      ended := decide (u.tcnt + u.added tnow ≥ u.ticks) }
  else some u

/-- `stm32_udelay` at its loop, with the first value it has read. -/
def stm32Udelay (us reload told : UInt32) : Udelay :=
  { reload := reload, ticks := us * reload / (1000000 / tickPerSecond), told := told }

/-- The wait on the counter. -/
def udelayStep (reload start : UInt32) : Udelay × Nat → Nat → Option (Udelay × Nat) :=
  sampled Udelay.turn (sysTickVal reload start)

/-- If the next turn adds something, `tcnt` does not wrap. -/
def NoWrap (u : Udelay) (tnow : UInt32) : Prop :=
  u.ended = false → tnow ≠ u.told →
    (u.tcnt + u.added tnow).toNat = u.tcnt.toNat + (u.added tnow).toNat

section Udelay

variable {us reload start : UInt32}

theorem toNat_added {u : Udelay} (ht : u.told ≤ u.reload) {tnow : UInt32} (hn : tnow ≤ u.reload) :
    (u.added tnow).toNat = if tnow.toNat < u.told.toNat then u.told.toNat - tnow.toNat
      else u.reload.toNat + u.told.toNat - tnow.toNat := by
  rw [UInt32.le_iff_toNat_le] at ht hn
  have hr := u.reload.toNat_lt
  simp only [Udelay.added, UInt32.lt_iff_toNat_lt]
  split
  · -- Down in one piece, or through zero to the reload value.
    rw [UInt32.toNat_sub]
    omega
  · rw [UInt32.toNat_add, UInt32.toNat_sub]
    omega

/-- A value that is another one adds at most the time that has passed. -/
theorem added_le_elapsed {u : Udelay} (ht : u.told ≤ u.reload) {d : Nat}
    (hne : sysTickVal u.reload u.told d ≠ u.told) :
    (u.added (sysTickVal u.reload u.told d)).toNat ≤ d := by
  have hne' : (sysTickVal u.reload u.told d).toNat ≠ u.told.toNat :=
    fun e => hne (UInt32.toNat_inj.mp e)
  rw [toNat_sysTickVal ht] at hne'
  rw [toNat_added ht (sysTickVal_le ht d), toNat_sysTickVal ht]
  split
  · exact sub_le_elapsed (UInt32.le_iff_toNat_le.mp ht) d
  · -- The formula is one short behind a wrap.
    have := wrap_le_elapsed (by omega : u.told.toNat < countdown u.reload.toNat u.told.toNat d)
    omega

theorem added_le_reload {u : Udelay} (ht : u.told ≤ u.reload) {tnow : UInt32}
    (hn : tnow ≤ u.reload) (hne : tnow ≠ u.told) : (u.added tnow).toNat ≤ u.reload.toNat := by
  have hne' : tnow.toNat ≠ u.told.toNat := fun e => hne (UInt32.toNat_inj.mp e)
  rw [toNat_added ht hn]
  rw [UInt32.le_iff_toNat_le] at ht hn
  split
  · omega
  · omega

/-- What the loop keeps: the last value it has seen is the one of the time it looked,
    and the sum is behind the time and behind the goal. -/
structure UdelayInv (us reload start : UInt32) (w : Udelay × Nat) : Prop where
  register : w.1.reload = reload
  ticks : w.1.ticks = us * reload / (1000000 / tickPerSecond)
  told : w.1.told = sysTickVal reload start w.2
  time : w.1.tcnt.toNat ≤ w.2
  running : w.1.ended = false → w.1.tcnt.toNat ≤ w.1.ticks.toNat
  ended : w.1.ended = true → w.1.ticks.toNat ≤ w.1.tcnt.toNat

theorem udelayInv_start (us reload start : UInt32) :
    UdelayInv us reload start (stm32Udelay us reload start, 0) :=
  ⟨rfl, rfl, UInt32.ofNat_toNat.symm, Nat.zero_le _, fun _ => Nat.zero_le _, nofun⟩

/-- The goal has at most 23 bits if the product does not wrap. -/
theorem toNat_ticks (hfit : us.toNat * reload.toNat < 2 ^ 32) :
    (us * reload / (1000000 / tickPerSecond)).toNat =
      us.toNat * reload.toNat / (1000000 / tickPerSecond.toNat) := by
  rw [UInt32.toNat_div, UInt32.toNat_mul, Nat.mod_eq_of_lt hfit]
  rfl

variable {w w' : Udelay × Nat} {d : Nat}

/-- One look: the value is the last one again, or the difference is added. -/
theorem udelay_turn (hle : start ≤ reload) (h : UdelayInv us reload start w)
    (hs : udelayStep reload start w d = some w') :
    w.1.ended = false ∧ w'.2 = w.2 + d ∧
      (sysTickVal reload w.1.told d = w.1.told ∧ w'.1 = w.1 ∨
        sysTickVal reload w.1.told d ≠ w.1.told ∧ w'.1 = { w.1 with
          tcnt := w.1.tcnt + w.1.added (sysTickVal reload w.1.told d)
          told := sysTickVal reload w.1.told d
          ended := decide
            (w.1.tcnt + w.1.added (sysTickVal reload w.1.told d) ≥ w.1.ticks) }) := by
  rcases sampled_some _ _ hs with ⟨hturn, htime⟩
  rw [sysTickVal_add hle, ← h.told] at hturn
  unfold Udelay.turn at hturn
  split at hturn
  · cases hturn
  · rename_i hended
    refine ⟨by simpa using hended, htime, ?_⟩
    split at hturn
    · rename_i hne
      rw [Option.some.injEq] at hturn
      exact .inr ⟨hne, hturn.symm⟩
    · rename_i heq
      rw [Option.some.injEq] at hturn
      exact .inl ⟨not_not.mp heq, hturn.symm⟩

/-- The last value was one of the counter. -/
theorem UdelayInv.told_le (hle : start ≤ reload) (h : UdelayInv us reload start w) :
    w.1.told ≤ w.1.reload := by
  rw [h.told, h.register]
  exact sysTickVal_le hle _

/-- So is the value it sees next. -/
theorem UdelayInv.now_le (hle : start ≤ reload) (h : UdelayInv us reload start w) (d : Nat) :
    sysTickVal reload w.1.told d ≤ reload := by
  have htold := h.told_le hle
  rw [h.register] at htold
  exact sysTickVal_le htold d

/-- The sum has room for another difference. -/
theorem UdelayInv.noWrap (hle : start ≤ reload) (hreload : reload.toNat < 2 ^ 24)
    (hfit : us.toNat * reload.toNat < 2 ^ 32) (h : UdelayInv us reload start w) {tnow : UInt32}
    (hn : tnow ≤ reload) : NoWrap w.1 tnow := by
  intro hrun hne
  have hadd := added_le_reload (h.told_le hle) (by rw [h.register]; exact hn) hne
  have hticks := h.running hrun
  -- The goal is small, and a difference has 24 bits.
  have hgoal : w.1.ticks.toNat ≤ (2 ^ 32 - 1) / 1000 := by
    rw [h.ticks, toNat_ticks hfit]
    exact Nat.div_le_div_right (by omega)
  rw [h.register] at hadd
  rw [UInt32.toNat_add, Nat.mod_eq_of_lt (by omega)]

theorem UdelayInv.step (hle : start ≤ reload) (hreload : reload.toNat < 2 ^ 24)
    (hfit : us.toNat * reload.toNat < 2 ^ 32) (h : UdelayInv us reload start w)
    (hs : udelayStep reload start w d = some w') : UdelayInv us reload start w' := by
  -- The same value again changes nothing but the time.
  rcases udelay_turn hle h hs with ⟨hrun, htime, ⟨heq, hw⟩ | ⟨hne, hw⟩⟩
  · refine ⟨by rw [hw, h.register], by rw [hw, h.ticks], ?_, ?_, ?_, ?_⟩
    · rw [hw, htime, sysTickVal_add hle, ← h.told, heq]
    · rw [hw, htime]
      exact h.time.trans (Nat.le_add_right _ _)
    · rw [hw]
      exact h.running
    · rw [hw]
      exact h.ended
  · have hsum := h.noWrap hle hreload hfit (h.now_le hle d) hrun hne
    have hadd : (w.1.added (sysTickVal reload w.1.told d)).toNat ≤ d := by
      have helapsed := added_le_elapsed (d := d) (h.told_le hle)
      rw [h.register] at helapsed
      exact helapsed hne
    have htime' := h.time
    refine ⟨by rw [hw, h.register], by rw [hw, h.ticks], ?_, ?_, ?_, ?_⟩
    · rw [hw, htime, sysTickVal_add hle, ← h.told]
    · rw [hw, htime]
      simp only
      omega
    · rw [hw]
      simp only [decide_eq_false_iff_not, ge_iff_le, UInt32.le_iff_toNat_le]
      omega
    · rw [hw]
      simp only [decide_eq_true_eq, ge_iff_le, UInt32.le_iff_toNat_le]
      exact id

/-- How far the loop is from its end. A difference may be zero, but only from the value
    zero on, and the next one is not. -/
def Udelay.left (u : Udelay) : Nat :=
  2 * (u.ticks.toNat - u.tcnt.toNat) + if u.told = 0 then 1 else 0

/-- Less than a period later the value is another one, and the difference is the time,
    or one less behind a wrap. -/
theorem added_near (u : Udelay) (ht : u.told ≤ u.reload) (hd : 1 ≤ d) (hd' : d ≤ u.reload.toNat) :
    sysTickVal u.reload u.told d ≠ u.told ∧
      (0 < (u.added (sysTickVal u.reload u.told d)).toNat ∨
        u.told = 0 ∧ sysTickVal u.reload u.told d ≠ 0) := by
  have ht' := UInt32.le_iff_toNat_le.mp ht
  have hval := toNat_sysTickVal ht d
  have hne : sysTickVal u.reload u.told d ≠ u.told := by
    intro e
    rw [e] at hval
    rcases countdown_near ht' (by omega : d ≤ u.reload.toNat + 1) with h | h
    · omega
    · omega
  refine ⟨hne, ?_⟩
  rw [toNat_added ht (sysTickVal_le ht d), hval]
  rcases countdown_near ht' (by omega : d ≤ u.reload.toNat + 1) with h | h
  · refine .inl ?_
    rw [if_pos (by omega)]
    omega
  · rw [if_neg (by omega)]
    by_cases hone : d = 1
    · -- The one difference that is lost: from zero to the reload value.
      have hzero : u.told.toNat = 0 := by
        have := countdown_le ht' d
        omega
      refine .inr ⟨UInt32.toNat_inj.mp hzero, fun e => ?_⟩
      rw [e] at hval
      have h0 : (0 : UInt32).toNat = 0 := rfl
      omega
    · exact .inl (by omega)

theorem UdelayInv.approaches (hle : start ≤ reload) (hreload : reload.toNat < 2 ^ 24)
    (hfit : us.toNat * reload.toNat < 2 ^ 32) (h : UdelayInv us reload start w)
    (hrun : w.1.ended = false) (hd : 1 ≤ d) (hd' : d < reload.toNat + 1) :
    ∃ w', udelayStep reload start w d = some w' ∧ UdelayInv us reload start w' ∧
      (w'.1.ended = true ∨ w'.1.left < w.1.left) := by
  have hturn : ∃ w', udelayStep reload start w d = some w' := by
    simp only [udelayStep, sampled, Udelay.turn, hrun, Bool.false_eq_true, if_false]
    split
    · exact ⟨_, rfl⟩
    · exact ⟨_, rfl⟩
  rcases hturn with ⟨w', hs⟩
  refine ⟨w', hs, h.step hle hreload hfit hs, ?_⟩
  have hnear := added_near w.1 (h.told_le hle) hd (by rw [h.register]; omega)
  rw [h.register] at hnear
  rcases udelay_turn hle h hs with ⟨-, -, ⟨heq, -⟩ | ⟨hne, hw⟩⟩
  · -- Less than a period later the value is not the same.
    exact absurd heq hnear.1
  · have hsum := h.noWrap hle hreload hfit (h.now_le hle d) hrun hne
    by_cases hend : w'.1.ended = true
    · exact .inl hend
    · refine .inr ?_
      rw [hw] at hend ⊢
      simp only [decide_eq_true_eq, ge_iff_le, UInt32.le_iff_toNat_le, not_le] at hend
      simp only [Udelay.left]
      -- The sum grows, or the value leaves zero.
      rcases hnear.2 with hpos | ⟨hzero, hnz⟩
      · split
        · omega
        · omega
      · rw [if_neg hnz, if_pos hzero]
        omega

end Udelay

/-- For every argument and reload value whose product does not wrap, and every start
    value: whatever the times between two looks, at least as many counts have passed
    when the loop ends as it should wait for, and the sum never wraps; and the loop does
    end if it looks at least once a period and never twice at one count. -/
theorem stm32Udelay_waits (us : UInt32) {reload start : UInt32} (hreload : reload.toNat < 2 ^ 24)
    (hfit : us.toNat * reload.toNat < 2 ^ 32) (hstart : start ≤ reload) :
    (∀ gaps w, run (udelayStep reload start) (stm32Udelay us reload start, 0) gaps = some w →
      w.1.ended = true → us.toNat * reload.toNat / (1000000 / tickPerSecond.toNat) ≤ w.2) ∧
    (∀ gaps, Along (udelayStep reload start)
      (fun w d => NoWrap w.1 (sysTickVal reload start (w.2 + d)))
      (stm32Udelay us reload start, 0) gaps) ∧
    ∀ gaps : Nat → Nat, (∀ i, 1 ≤ gaps i ∧ gaps i < reload.toNat + 1) →
      ∃ n w, run (udelayStep reload start) (stm32Udelay us reload start, 0)
        (firstAnswers gaps n) = some w ∧ w.1.ended = true := by
  have hstep : ∀ w d w', UdelayInv us reload start w → udelayStep reload start w d = some w' →
      UdelayInv us reload start w' := fun _ _ _ h hs => h.step hstart hreload hfit hs
  refine ⟨fun gaps w hr hended => ?_, fun gaps => ?_, fun gaps hgaps => ?_⟩
  · -- At the end the sum has reached its goal, and it is never ahead of the time.
    have h := run_invariant _ _ hstep (udelayInv_start us reload start) hr
    have hgoal := h.ended hended
    rw [h.ticks, toNat_ticks hfit] at hgoal
    exact hgoal.trans h.time
  -- The sum has room at every look, because it is never beyond its goal.
  · exact along_of_invariant _ (UdelayInv us reload start) (fun w d w' h _ hs => hstep w d w' h hs)
      (fun _ _ h _ => h.noWrap hstart hreload hfit (sysTickVal_le hstart _))
      (udelayInv_start us reload start) (along_of_forall _ _ fun _ _ => trivial)
  · refine run_reaches _ (A := fun d => 1 ≤ d ∧ d < reload.toNat + 1)
      (I := UdelayInv us reload start) (fun w => w.1.left) ?_ (udelayInv_start us reload start)
      gaps hgaps
    intro w d h hrun hd
    exact h.approaches hstart hreload hfit (Bool.not_eq_true _ ▸ hrun) hd.1 hd.2

/-- Two ticks on a counter of six values, with an interruption of three
    periods. -/
theorem stm32Udelay_waits_short :
    (run (udelayStep 5 3) (stm32Udelay 2000 5 3, 0) [1, 19, 4, 2, 5]).map (fun w =>
      (w.1.tcnt, w.1.ended, w.2)) = some (11, true, 31) ∧
    2000 * 5 / (1000000 / tickPerSecond.toNat) ≤ 31 := by
  have hmap : (run (udelayStep 5 3) (stm32Udelay 2000 5 3, 0) [1, 19, 4, 2, 5]).map (fun w =>
      (w.1.tcnt, w.1.ended, w.2)) = some (11, true, 31) := by decide
  rcases Option.map_eq_some_iff.mp hmap with ⟨w, hr, hw⟩
  have hwaits := (stm32Udelay_waits 2000 (by decide) (by decide) (by decide)).1 _ w hr
  simp only [Prod.mk.injEq] at hw
  rw [hw.2.2] at hwaits
  exact ⟨hmap, hwaits hw.2.1⟩

end Hal

end Firmware
