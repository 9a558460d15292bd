import Firmware.Lib.FlagLock
import Firmware.Eth.LinkTimer
import Firmware.Eth.Transmit

/-!
# The Handle Lock

`__HAL_LOCK` and `__HAL_UNLOCK` on `EthHandle` and the functions of
`drivers/test_eth.c` that use them, as code around a flag: what each of them does to
`EthHandle.Lock` and `EthHandle.State`, in the order of the source. What they do to
the descriptors and the registers in between is in other modules and is a number of
turns here, and their tests of it can go either way.

On every return path of the three functions that lock, the lock is released again,
so the shape of the code is right. But the two accesses to the PHY release it when
they time out, and never took it, and the interrupt handler releases it after every
frame and every error. `along_quiet_iff` says that the lock works exactly as long as
none of this comes while a thread is inside.

## Main definitions

* `halEthTransmitFrame`, `halEthGetReceivedFrameIT`, `halEthStart`: The functions that
  lock.
* `phyAccess`: An access to a PHY register.
* `halEthIRQHandler`: The interrupt handler.
* `ethStep`: Threads and interrupts in any order.

## Theorems

* `ethCall_bracketed`: Every path releases what it took.
* `along_quiet_iff`: When the lock works.
* `not_exclusive_interrupted`: A received frame lets a second thread in.
-/

namespace Firmware

namespace Eth

namespace Handle

/-- `HAL_ETH_TransmitFrame`: nothing to send, no descriptor, or the frame is handed over. -/
def halEthTransmitFrame : Code EthState HalStatus :=
  .lock .busy <|
  .set .busy <|
  -- `FrameLength == 0U`, then the `OWN` bit of the first descriptor.
  .branch (.set .ready <| .unlock <| .ret .error) <|
  .branch (.set .busyTx <| .unlock <| .ret .error) <|
  .turns <|
  .set .ready <|
  .unlock <|
  .ret .ok

/-- `HAL_ETH_GetReceivedFrame_IT`: a scan that finds the end of a frame or none. -/
def halEthGetReceivedFrameIT : Code EthState HalStatus :=
  .lock .busy <|
  .set .busy <|
  .turns <|
  .branch (.set .ready <| .unlock <| .ret .ok) <|
  .set .ready <|
  .unlock <|
  .ret .error

/-- `HAL_ETH_Start` -/
def halEthStart : Code EthState HalStatus :=
  .lock .busy <|
  .set .busy <|
  .turns <|
  .set .ready <|
  .unlock <|
  .ret .ok

/-- An access to a PHY register, which waits for the busy bit. -/
def phyAccess (state : EthState) : Code EthState HalStatus :=
  .test state (.ret .busy) <|
  -- There is no `__HAL_LOCK` here.
  .set state <|
  .turns <|
  .branch (.set .ready <| .unlock <| .ret .timeout) <|
  .set .ready <|
  .ret .ok

/-- `HAL_ETH_ReadPHYRegister` -/
def halEthReadPHYRegister : Code EthState HalStatus := phyAccess .busyRd

/-- `HAL_ETH_WritePHYRegister` -/
def halEthWritePHYRegister : Code EthState HalStatus := phyAccess .busyWr

/-- `HAL_ETH_IRQHandler` behind its first two tests: an error of the DMA. -/
def irqError : Code EthState Unit :=
  .branch (.set .ready <| .unlock <| .ret ()) (.ret ())

/-- `HAL_ETH_IRQHandler`: a frame was received, or else one was sent, and an error. -/
def halEthIRQHandler : Code EthState Unit :=
  .branch (.set .ready <| .unlock irqError) <|
  .branch (.set .ready <| .unlock irqError) irqError

end Handle

/-- The functions a thread calls. -/
inductive EthCall where
  | transmitFrame
  | getReceivedFrameIT
  | readPHYRegister
  | writePHYRegister
  | start
  deriving DecidableEq, Repr

/-- What a call runs. -/
def EthCall.code : EthCall → Code EthState HalStatus
  | .transmitFrame => Handle.halEthTransmitFrame
  | .getReceivedFrameIT => Handle.halEthGetReceivedFrameIT
  | .readPHYRegister => Handle.halEthReadPHYRegister
  | .writePHYRegister => Handle.halEthWritePHYRegister
  | .start => Handle.halEthStart

section Threads

variable {ι : Type*} [DecidableEq ι]

/-- Threads that call the driver and interrupts of it, one instruction at a time. -/
def ethStep : World ι EthState HalStatus → Move ι EthCall → Option (World ι EthState HalStatus) :=
  worldStep EthCall.code Handle.halEthIRQHandler

/-- Every path of every function releases the lock if it took it. -/
theorem ethCall_bracketed (f : EthCall) : f.code.bracketed false = true := by
  -- Decided by running through the paths.
  cases f <;> rfl

/-- From a state in which no thread is in a call, at most one thread is inside at any
    point of a run, and `EthHandle.Lock` is set exactly while one is, if and only if the
    run has no release by the interrupt handler and none by a PHY access that times out
    while the lock is taken. -/
theorem along_quiet_iff {w w' : World ι EthState HalStatus} (h : AtRest w)
    {moves : List (Move ι EthCall)} (hr : run ethStep w moves = some w') :
    Along ethStep Harmless w moves ↔ Always ethStep Exclusive w moves :=
  along_harmless_iff_always ethCall_bracketed rfl h hr

end Threads

/-- Two threads, neither in a call. -/
def twoThreads : World Bool EthState HalStatus :=
  { shared := { lock := false, value := .ready }
    party := fun _ => {} }

theorem twoThreads_atRest : AtRest twoThreads := ⟨fun _ => ⟨rfl, rfl⟩, rfl, rfl⟩

/-- A PHY access that times out, then a transmission while the other thread is refused,
    then an interrupt. -/
theorem along_quiet_outside :
    let moves : List (Move Bool EthCall) :=
      [.call false .readPHYRegister, .go false false, .go false false, .go false true,
        .go false true, .go false false, .go false false, .go false false,
        .call false .start, .go false false, .call true .transmitFrame, .go true false,
        .go false false, .go false true, .go false false, .go false false, .go false false,
        .irq, .irqGo true, .irqGo false, .irqGo false]
    (run ethStep twoThreads moves).map (fun w => ((w.party false).last, (w.party true).last)) =
        some (some .ok, some .busy) ∧
      Always ethStep Exclusive twoThreads moves := by
  intro moves
  have hmap : (run ethStep twoThreads moves).map
      (fun w => ((w.party false).last, (w.party true).last)) = some (some .ok, some .busy) := by
    decide
  rcases Option.map_eq_some_iff.mp hmap with ⟨w, hw, -⟩
  refine ⟨hmap, (along_quiet_iff twoThreads_atRest hw).mp ?_⟩
  decide

/-- A frame that is received while one thread starts the interface lets another one in. -/
theorem not_exclusive_interrupted :
    ¬ ∀ (w w' : World Bool EthState HalStatus) (moves : List (Move Bool EthCall)), AtRest w →
      run ethStep w moves = some w' → Exclusive w' := by
  intro hall
  let moves : List (Move Bool EthCall) :=
    [.call false .start, .go false false, .irq, .irqGo true, .irqGo false, .irqGo false,
      .irqGo false, .irqGo false, .call true .transmitFrame, .go true false]
  have hmap : (run ethStep twoThreads moves).map
      (fun w => ((w.party false).holds, (w.party true).holds)) = some (true, true) := by
    decide
  rcases Option.map_eq_some_iff.mp hmap with ⟨w, hw, hboth⟩
  have hx := hall twoThreads w moves twoThreads_atRest hw
  rw [Prod.mk.injEq] at hboth
  exact Bool.false_ne_true (hx.one false true hboth.1 hboth.2)

end Eth

end Firmware
