import Firmware.Hal.Tick
import Firmware.Eth.Phy

/-!
# The Link Timer

The timer `phylnk` of `drivers/test_eth.c`, which polls the link once a second,
and the part of the kernel that runs it: `rt_timer_start` and `rt_timer_check`
from `rt-thread/src/timer.c`, `rt_tick_increase` from `rt-thread/src/clock.c` and
`SysTick_Handler` from `drivers/drv_common.c`.

The timer is made without `RT_TIMER_FLAG_SOFT_TIMER`, so it goes to the list that
the tick handler works off, and `phy_linkchange` runs inside that handler. Its two
register reads wait for the MII busy bit, and what ends a wait that the bit does
not end is `HAL_GetTick`. But the kernel tick behind it is counted by the handler
that is waiting, and interrupts are disabled besides. As long as a poll waits, its
clock stands still.

`linkchange_returns_iff` draws the conclusion: a poll returns if the bit goes clear,
and for no other reason.

## Main definitions

* `Timer`: A kernel timer.
* `Board`: The kernel and the Ethernet driver as far as the poll sees them.
* `boardStep`: What can happen next.
* `Polling`: A poll waits for a register.

## Theorems

* `step_frozen`: A wait has lasted no time.
* `Frozen.poll_cases`: A read of the busy bit, and nothing else, moves a poll on.
* `linkchange_returns_iff`: A poll returns exactly if the busy bit goes clear.
* `not_linkchange_returns`: A bit that stays set is waited for without an end.
-/

namespace Firmware

namespace Eth

/-- `RT_TICK_MAX / 2` -/
def halfTickMax : UInt32 := 0x7fffffff

/-- `HAL_ETH_StateTypeDef` -/
inductive EthState where
  | reset
  | ready
  | busy
  | busyTx
  | busyRx
  | busyTxRx
  | busyWr
  | busyRd
  | timeout
  | error
  deriving DecidableEq, Repr

/-- The function a timer calls. No two timers share one, so it also names the timer. -/
inductive TimeoutFunc where
  | phyLinkchange
  | other (k : Nat)
  deriving DecidableEq, Repr

/-- `struct rt_timer` with the bits of its flag. -/
structure Timer where
  timeoutFunc : TimeoutFunc
  activated : Bool := false
  periodic : Bool
  soft : Bool
  initTick : UInt32
  timeoutTick : UInt32 := 0
  deriving DecidableEq, Repr

/-- The timer that `phy_monitor_thread_entry` creates. -/
def phylnk : Timer :=
  { timeoutFunc := .phyLinkchange
    periodic := true
    soft := false
    initTick := Hal.tickPerSecond }

/-- The tick has reached the one a timer waits for. -/
def due (currentTick timeoutTick : UInt32) : Bool := currentTick - timeoutTick < halfTickMax

/-- A timer goes in front of the first one that is due later. -/
def insertTimer (t : Timer) : List Timer → List Timer
  | [] => [t]
  | x :: xs =>
      if x.timeoutTick - t.timeoutTick ≠ 0 ∧ x.timeoutTick - t.timeoutTick < halfTickMax then
        t :: x :: xs
      else x :: insertTimer t xs

/-- `_rt_timer_remove` -/
def removeTimer (t : Timer) (list : List Timer) : List Timer :=
  list.filter fun x => x.timeoutFunc ≠ t.timeoutFunc

/-- Where the processor is. -/
inductive Place where
  /-- In a thread. -/
  | thread
  /-- At the head of the loop of `rt_timer_check`, with its `current_tick`. -/
  | check (currentTick : UInt32)
  /-- In `phy_linkchange`, called for the timer, waiting for the status register since
      the tick `start`. -/
  | status (t : Timer) (stack : UInt32) (start : UInt32)
  /-- The same for the second register. -/
  | rate (t : Timer) (stack : UInt32) (status : PhyRead) (start : UInt32)
  deriving DecidableEq, Repr

/-- The tick, the interrupt mask, `EthHandle.State`, the link monitor, the two lists of
    timers and the place of the processor. -/
structure Board where
  rtTick : UInt32
  enabled : Bool
  state : EthState
  phy : Phy
  timerList : List Timer
  softTimerList : List Timer := []
  place : Place := .thread
  deriving DecidableEq, Repr

/-- `rt_timer_start` -/
def rtTimerStart (b : Board) (t : Timer) : Board :=
  let t := { t with activated := true, timeoutTick := b.rtTick + t.initTick }
  if t.soft then
    { b with
      timerList := removeTimer t b.timerList
      softTimerList := insertTimer t (removeTimer t b.softTimerList) }
  else
    { b with
      timerList := insertTimer t (removeTimer t b.timerList)
      softTimerList := removeTimer t b.softTimerList }

/-- `rt_timer_check` behind the call of a timer's function. -/
def afterTimeout (b : Board) (t : Timer) : Board :=
  -- The tick is read again, though it cannot have moved.
  let b := { b with place := .check b.rtTick }
  -- Its function may have stopped it.
  if t.periodic && t.activated then rtTimerStart b t else b

/-- The end of `phy_linkchange`. -/
def endPoll (b : Board) (t : Timer) (stack : UInt32) (status sr : PhyRead) : Board :=
  afterTimeout { b with phy := phyLinkchange b.phy status stack sr } t

/-- `phy_linkchange` behind the first read. A read that finds the handle reading returns
    `HAL_BUSY`. -/
def afterStatus (b : Board) (t : Timer) (stack : UInt32) (status : PhyRead) : Board :=
  if readsRate status stack then
    -- A second register that cannot be read leaves a zero.
    if b.state = .busyRd then endPoll b t stack status none
    else { b with state := .busyRd, place := .rate t stack status b.rtTick }
  else endPoll b t stack status none

/-- `phy_linkchange` up to its first wait. -/
def beginPoll (b : Board) (t : Timer) (stack : UInt32) : Board :=
  if b.state = .busyRd then afterStatus b t stack none
  else { b with state := .busyRd, place := .status t stack b.rtTick }

/-- One turn of `rt_timer_check`. The other timers' functions return and do not touch
    what is modelled here. -/
def checkTurn (b : Board) (currentTick stack : UInt32) : Board :=
  match b.timerList with
  | [] => { b with enabled := true, place := .thread }
  | t :: ts =>
      if due currentTick t.timeoutTick then
        -- The timer leaves the list before its function is called.
        match t.timeoutFunc with
        | .phyLinkchange => beginPoll { b with timerList := ts } t stack
        | .other _ => afterTimeout { b with timerList := ts } t
      -- The list is sorted, so no other timer is due either.
      else { b with enabled := true, place := .thread }

/-- What a turn of a wait comes to: nothing while the wait goes on, else the read. -/
def readTurn (b : Board) (start : UInt32) (busy : Bool) (data : UInt16) : Option PhyRead :=
  match Hal.waitReady Hal.phyTimeout start [(b.rtTick, busy)] with
  | none => none
  | some .ok => some (some data)
  | some _ => some none

/-- What happens next. -/
inductive BoardEvent where
  /-- The tick interrupt. -/
  | sysTick
  /-- A turn of `rt_timer_check`, with what `phy_linkchange` would find on the stack. -/
  | turn (stack : UInt32)
  /-- A turn of a wait, with the busy bit and the register it reads. -/
  | poll (busy : Bool) (data : UInt16)
  /-- A thread, or an interrupt of it, sets `EthHandle.State`. -/
  | setState (state : EthState)
  /-- A thread enables or disables interrupts. -/
  | setEnabled (on : Bool)
  /-- A thread starts a timer. -/
  | start (t : Timer)
  /-- A thread stops one. -/
  | stop (t : Timer)
  deriving DecidableEq, Repr

/-- One step. The tick interrupt needs interrupts to be enabled and does not interrupt
    its own handler. -/
def boardStep (b : Board) : BoardEvent → Option Board
  | .sysTick =>
      if b.enabled = true ∧ b.place = .thread then
        some { b with
          rtTick := b.rtTick + 1
          enabled := false
          place := .check (b.rtTick + 1) }
      else none
  | .turn stack => match b.place with
    | .check currentTick => some (checkTurn b currentTick stack)
    | _ => none
  | .poll busy data => match b.place with
    | .status t stack start => match readTurn b start busy data with
      | none => some b
      | some status => some (afterStatus { b with state := .ready } t stack status)
    | .rate t stack status start => match readTurn b start busy data with
      | none => some b
      | some sr => some (endPoll { b with state := .ready } t stack status sr)
    | _ => none
  | .setState state => if b.place = .thread then some { b with state := state } else none
  | .setEnabled on => if b.place = .thread then some { b with enabled := on } else none
  | .start t =>
      -- A longer time fails an assertion of `rt_timer_start`.
      if b.place = .thread ∧ t.initTick < halfTickMax then some (rtTimerStart b t) else none
  | .stop t =>
      if b.place = .thread then
        some { b with
          timerList := removeTimer t b.timerList
          softTimerList := removeTimer t b.softTimerList }
      else none

/-- How many waits are still ahead of a poll at most. -/
def Place.waits : Place → Nat
  | .thread => 0
  | .check _ => 0
  | .status .. => 2
  | .rate .. => 1

/-- A poll waits for a register. -/
def Polling (b : Board) : Prop := 0 < b.place.waits

instance (b : Board) : Decidable (Polling b) := inferInstanceAs (Decidable (_ < _))

/-- A read of the busy bit that finds it clear. -/
def ReadsClear (e : BoardEvent) : Prop := ∃ data, e = .poll false data

/-- A read of the busy bit that finds it set. -/
def ReadsBusy (e : BoardEvent) : Prop := ∃ data, e = .poll true data

/-- The tick is the one a wait has begun at. -/
def Place.Since (p : Place) (tick : UInt32) : Prop :=
  match p with
  | .thread => True
  | .check _ => True
  | .status _ _ start => start = tick
  | .rate _ _ _ start => start = tick

/-- A wait has lasted no time. -/
def Frozen (b : Board) : Prop := b.place.Since b.rtTick

variable {b b' : Board} {e : BoardEvent}

theorem rtTimerStart_place (b : Board) (t : Timer) : (rtTimerStart b t).place = b.place := by
  unfold rtTimerStart
  simp only
  split
  · rfl
  · rfl

theorem afterTimeout_place (b : Board) (t : Timer) :
    (afterTimeout b t).place = .check b.rtTick := by
  unfold afterTimeout
  split
  · exact rtTimerStart_place _ t
  · rfl

theorem endPoll_place (b : Board) (t : Timer) (stack : UInt32) (status sr : PhyRead) :
    (endPoll b t stack status sr).place = .check b.rtTick :=
  afterTimeout_place _ t

/-- Behind the first read there is at most one wait, which begins now. -/
theorem afterStatus_spec (b : Board) (t : Timer) (stack : UInt32) (status : PhyRead) :
    (afterStatus b t stack status).place.waits ≤ 1 ∧ Frozen (afterStatus b t stack status) := by
  have hend : (endPoll b t stack status none).place.waits ≤ 1 ∧
      Frozen (endPoll b t stack status none) := by
    rw [Frozen, endPoll_place]
    exact ⟨Nat.zero_le 1, trivial⟩
  unfold afterStatus
  split
  · split
    · exact hend
    · exact ⟨le_refl 1, rfl⟩
  · exact hend

theorem beginPoll_frozen (b : Board) (t : Timer) (stack : UInt32) :
    Frozen (beginPoll b t stack) := by
  unfold beginPoll
  split
  · exact (afterStatus_spec b t stack none).2
  · rfl

theorem checkTurn_frozen (b : Board) (currentTick stack : UInt32) :
    Frozen (checkTurn b currentTick stack) := by
  unfold checkTurn
  -- An empty list, a timer of each kind that is due, and one that is not.
  split
  · trivial
  · split
    · split
      · exact beginPoll_frozen _ _ stack
      · rw [Frozen, afterTimeout_place]
        trivial
    · trivial

/-- A thread does not poll. -/
theorem frozen_of_thread (h : b.place = .thread) : Frozen b := by
  rw [Frozen, h]
  trivial

/-- A wait has lasted no time, whatever happens. -/
theorem step_frozen (h : Frozen b) (hs : boardStep b e = some b') : Frozen b' := by
  cases e with
  | sysTick =>
      simp only [boardStep, Option.ite_none_right_eq_some, Option.some.injEq] at hs
      rw [← hs.2]
      trivial
  | turn stack =>
      cases hp : b.place with
      | check currentTick =>
          simp only [boardStep, hp, Option.some.injEq] at hs
          rw [← hs]
          exact checkTurn_frozen b currentTick stack
      | _ => simp only [boardStep, hp, reduceCtorEq] at hs
  | poll busy data =>
      cases hp : b.place with
      | status t stack start =>
          simp only [boardStep, hp] at hs
          -- The wait goes on in the same place, or the poll goes on to the next.
          split at hs
          · rw [← Option.some.inj hs]
            exact h
          · rw [← Option.some.inj hs]
            exact (afterStatus_spec _ t stack _).2
      | rate t stack status start =>
          simp only [boardStep, hp] at hs
          split at hs
          · rw [← Option.some.inj hs]
            exact h
          · rw [← Option.some.inj hs, Frozen, endPoll_place]
            trivial
      | _ => simp only [boardStep, hp, reduceCtorEq] at hs
  | setState state =>
      simp only [boardStep, Option.ite_none_right_eq_some, Option.some.injEq] at hs
      rw [← hs.2]
      exact frozen_of_thread hs.1
  | setEnabled on =>
      simp only [boardStep, Option.ite_none_right_eq_some, Option.some.injEq] at hs
      rw [← hs.2]
      exact frozen_of_thread hs.1
  | start t =>
      simp only [boardStep, Option.ite_none_right_eq_some, Option.some.injEq] at hs
      rw [← hs.2]
      exact frozen_of_thread ((rtTimerStart_place b t).trans hs.1.1)
  | stop t =>
      simp only [boardStep, Option.ite_none_right_eq_some, Option.some.injEq] at hs
      rw [← hs.2]
      exact frozen_of_thread hs.1

/-- A wait that has lasted no time is not over time, so the bit decides. -/
theorem readTurn_now (b : Board) (busy : Bool) (data : UInt16) :
    readTurn b b.rtTick busy data = if busy then none else some (some data) := by
  -- The difference that is compared with the limit is zero.
  have hnow : Hal.timedOut (Hal.halGetTick b.rtTick) (Hal.halGetTick b.rtTick) Hal.phyTimeout =
      false := by
    rw [Hal.timedOut, sub_self]
    rfl
  unfold readTurn
  simp only [Hal.waitReady, hnow]
  cases busy with
  | true => rfl
  | false => rfl

/-- While a poll waits nothing can happen but reads of the bit. One that finds it set
    changes nothing and one that finds it clear takes the poll to its next wait. -/
theorem Frozen.poll_cases (h : Frozen b) (hp : Polling b) (hs : boardStep b e = some b') :
    (ReadsBusy e ∧ b' = b) ∨ (ReadsClear e ∧ b'.place.waits < b.place.waits) := by
  unfold Polling at hp
  -- Only the two reads of the PHY wait; the tick stands still, so none of them times out.
  cases hplace : b.place with
  | thread =>
      rw [hplace] at hp
      exact absurd hp (lt_irrefl 0)
  | check currentTick =>
      rw [hplace] at hp
      exact absurd hp (lt_irrefl 0)
  | status t stack start =>
      have hstart : start = b.rtTick := by
        rw [Frozen, hplace] at h
        exact h
      cases e with
      | poll busy data =>
          simp only [boardStep, hplace, hstart, readTurn_now] at hs
          cases busy with
          | true => exact .inl ⟨⟨data, rfl⟩, (Option.some.inj hs).symm⟩
          | false =>
              refine .inr ⟨⟨data, rfl⟩, ?_⟩
              rw [← Option.some.inj hs]
              exact Nat.lt_succ_of_le (afterStatus_spec _ t stack _).1
      | _ => simp [boardStep, hplace] at hs
  | rate t stack status start =>
      have hstart : start = b.rtTick := by
        rw [Frozen, hplace] at h
        exact h
      cases e with
      | poll busy data =>
          simp only [boardStep, hplace, hstart, readTurn_now] at hs
          cases busy with
          | true => exact .inl ⟨⟨data, rfl⟩, (Option.some.inj hs).symm⟩
          | false =>
              refine .inr ⟨⟨data, rfl⟩, ?_⟩
              rw [← Option.some.inj hs]
              simp only [endPoll_place]
              exact Nat.zero_lt_one
      | _ => simp [boardStep, hplace] at hs

/-- Only a poll reads the bit. -/
theorem polling_of_readsBusy (he : ReadsBusy e) (hs : boardStep b e = some b') : Polling b := by
  rcases he with ⟨data, rfl⟩
  cases hp : b.place with
  | status t stack start =>
      rw [Polling, hp]
      exact Nat.zero_lt_two
  | rate t stack status start =>
      rw [Polling, hp]
      exact Nat.zero_lt_one
  | _ => simp only [boardStep, hp, reduceCtorEq] at hs

/-- A poll that waits is where it is until the bit is read as clear. -/
theorem Frozen.stays (h : Frozen b) (hp : Polling b) (e : BoardEvent) (b' : Board)
    (hs : boardStep b e = some b') : ReadsClear e ∨ b' = b := by
  -- A set bit changes nothing, since the time that is waited does not pass.
  rcases h.poll_cases hp hs with ⟨-, heq⟩ | ⟨hclear, -⟩
  · exact .inr heq
  · exact .inl hclear

/-- If every set bit goes clear, a poll comes to its end, one wait after the other. -/
theorem poll_ends (r : Endless boardStep) (hfrozen : ∀ n, Frozen (r.state n))
    (hclear : ∀ n, ReadsBusy (r.answer n) → ∃ m, n ≤ m ∧ ReadsClear (r.answer m)) (n : Nat) :
    ∃ m, n ≤ m ∧ ¬ Polling (r.state m) := by
  -- Induction on the waits that are still ahead.
  induction hk : (r.state n).place.waits using Nat.strong_induction_on generalizing n with
  | _ k ih =>
      by_cases hp : Polling (r.state n)
      · have hex : ∃ m, n ≤ m ∧ ReadsClear (r.answer m) := by
          rcases (hfrozen n).poll_cases hp (r.steps n) with ⟨hbusy, -⟩ | ⟨hc, -⟩
          · exact hclear n hbusy
          · exact ⟨n, le_refl n, hc⟩
        -- The first clear bit finds the poll where it was, and ends this wait.
        rcases r.stays_until ReadsClear ((hfrozen n).stays hp) hex with ⟨m, hm, hsame, hc⟩
        have hstep := r.steps m
        rw [hsame] at hstep
        rcases (hfrozen n).poll_cases hp hstep with ⟨⟨data, hbusy⟩, -⟩ | ⟨-, hlt⟩
        · rcases hc with ⟨data', hc⟩
          rw [hc] at hbusy
          cases hbusy
        · rcases ih _ (hk ▸ hlt) (m + 1) rfl with ⟨m', hm', hend⟩
          exact ⟨m', by omega, hend⟩
      · exact ⟨n, le_refl n, hp⟩

/-- A poll that came to its end has read the bit as clear. Without that the board does
    not move. -/
theorem reads_clear_of_ends (r : Endless boardStep) {n : Nat} (h : Frozen (r.state n))
    (hp : Polling (r.state n)) (hend : ∃ m, n ≤ m ∧ ¬ Polling (r.state m)) :
    ∃ m, n ≤ m ∧ ReadsClear (r.answer m) := by
  by_contra hnone
  rcases hend with ⟨m, hm, hend⟩
  -- Without a clear bit the board is still where it was.
  have hsame : r.state (n + (m - n)) = r.state n :=
    r.stays ReadsClear (h.stays hp) fun i _ hc => hnone ⟨n + i, by omega, hc⟩
  rw [Nat.add_sub_cancel' hm] at hsame
  rw [hsame] at hend
  exact hend hp

theorem frozen_run (r : Endless boardStep) (h0 : (r.state 0).place = .thread) (n : Nat) :
    Frozen (r.state n) :=
  r.invariant Frozen (fun _ _ _ h hs => step_frozen h hs) (frozen_of_thread h0) n

/-- In every infinite run that begins in a thread, every poll of the link comes to its
    end exactly if every busy bit that was read as set is read as clear later on. -/
theorem linkchange_returns_iff (r : Endless boardStep) (h0 : (r.state 0).place = .thread) :
    (∀ n, Polling (r.state n) → ∃ m, n ≤ m ∧ ¬ Polling (r.state m)) ↔
    (∀ n, ReadsBusy (r.answer n) → ∃ m, n ≤ m ∧ ReadsClear (r.answer m)) := by
  constructor
  · intro hends n hbusy
    have hp := polling_of_readsBusy hbusy (r.steps n)
    exact reads_clear_of_ends r (frozen_run r h0 n) hp (hends n hp)
  · intro hclear n _
    exact poll_ends r (frozen_run r h0) hclear n

/-- Nothing happens but the ticks, the work they cause and reads of one bit. -/
def ticking (busy : Bool) (b : Board) : BoardEvent :=
  match b.place with
  | .thread => if b.enabled then .sysTick else .setEnabled true
  | .check _ => .turn 0
  | .status .. => .poll busy 0
  | .rate .. => .poll busy 0

theorem isSome_ticking (busy : Bool) (b : Board) : (boardStep b (ticking busy b)).isSome := by
  cases hp : b.place with
  | thread => cases he : b.enabled <;> simp [ticking, boardStep, hp, he]
  | check currentTick => simp [ticking, boardStep, hp]
  | status t stack start =>
      simp only [ticking, boardStep, hp]
      split <;> rfl
  | rate t stack status start =>
      simp only [ticking, boardStep, hp]
      split <;> rfl

theorem ticking_poll {busy busy' : Bool} {data : UInt16}
    (h : ticking busy b = .poll busy' data) : busy' = busy := by
  unfold ticking at h
  split at h
  · split at h <;> cases h
  · cases h
  · exact (BoardEvent.poll.inj h).1.symm
  · exact (BoardEvent.poll.inj h).1.symm

/-- The infinite run of a board with that bit. -/
def tickingRun (busy : Bool) (b : Board) : Endless boardStep :=
  Endless.follow (fun b => (boardStep b (ticking busy b)).get (isSome_ticking busy b))
    (ticking busy) (fun b => (Option.some_get (isSome_ticking busy b)).symm) b

/-- A board just before the first poll of the timer. -/
def pollAhead : Board :=
  { rtTick := 999
    enabled := true
    state := .ready
    phy := { temp := 0 }
    timerList := [{ phylnk with activated := true, timeoutTick := 1000 }] }

/-- A PHY that answers at once is polled without an end to the polls, but with one to
    each of them. -/
theorem linkchange_returns_clear :
    Polling ((tickingRun false pollAhead).state 2) ∧
    ∀ n, Polling ((tickingRun false pollAhead).state n) →
      ∃ m, n ≤ m ∧ ¬ Polling ((tickingRun false pollAhead).state m) := by
  refine ⟨by decide, (linkchange_returns_iff (tickingRun false pollAhead) rfl).mpr ?_⟩
  intro n hbusy
  rcases hbusy with ⟨data, hbusy⟩
  exact absurd (ticking_poll hbusy) (by decide)

/-- A bit that stays set is waited for without an end. -/
theorem not_linkchange_returns :
    ¬ ∀ r : Endless boardStep, (r.state 0).place = .thread →
      ∀ n, Polling (r.state n) → ∃ m, n ≤ m ∧ ¬ Polling (r.state m) := by
  intro hall
  let r := tickingRun true pollAhead
  have hp : Polling (r.state 2) := by decide
  rcases reads_clear_of_ends r (frozen_run r rfl 2) hp (hall r rfl 2 hp) with ⟨m, -, data, hc⟩
  exact absurd (ticking_poll hc) (by decide)

end Eth

end Firmware
