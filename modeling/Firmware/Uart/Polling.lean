import Firmware.Lib.Runs

/-!
# Polled Transmission and the UART Interrupt

`stm32_putc` and `uart_isr` from `drivers/drv_usart.c`, which share the status
register of one UART.

A character is sent by polling: `stm32_putc` clears TC, writes the data register
and then reads TC until it is set. The hardware sets the flag once, when the
character has left the shift register, so whoever clears it after that takes the
end of the wait away. The interrupt handler does. It tests the flag in its third
branch, which is there for a transmission by DMA, and clears it when the port is
not open for one; and its last branch clears whatever flag it finds.

The model is as fine as the register accesses. The writer, the handler and the
hardware each move in single steps, the handler preempts the writer and the
hardware stops for neither of them, so a flag can rise between any two accesses.
An interrupt may be taken at any time: what is pending when the handler starts
need not be pending any more when it looks.

`along_spares_iff` says which interrupts are harmless, and `run_stranded` what
the others leave behind.

## Main definitions

* `Status`: The status register.
* `Uart`: A UART, the thread that writes to it and its interrupt handler.
* `putcStep`: One step of `stm32_putc`.
* `isrStep`: One step of `uart_isr`.
* `step`: One step of the writer, the handler or the hardware.
* `Uart.Ends`: A wait whose character is out is over.
* `Spares`: The handler does not come to the flag while the writer waits for it.

## Theorems

* `step_sound`: The flag and the transmitter never disagree.
* `along_spares_iff`: The wait is never lost exactly if every interrupt spares it.
* `run_stranded`: A wait that was lost is lost for ever.
* `not_ends_after_overrun`: One overrun is enough.
-/

namespace Firmware

namespace Uart

/-- The flags of `USART_SR`. -/
structure Status where
  pe : Bool := false
  fe : Bool := false
  ne : Bool := false
  ore : Bool := false
  idle : Bool := false
  rxne : Bool := false
  tc : Bool := false
  txe : Bool := false
  lbd : Bool := false
  cts : Bool := false
  deriving DecidableEq, Repr

/-- The flags the last branch of `uart_isr` goes through. -/
inductive Flag where
  | ore | ne | fe | pe | lbd | cts | txe | tc | rxne
  deriving DecidableEq, Repr

/-- `__HAL_UART_GET_FLAG` -/
def Status.get (s : Status) : Flag → Bool
  | .ore => s.ore
  | .ne => s.ne
  | .fe => s.fe
  | .pe => s.pe
  | .lbd => s.lbd
  | .cts => s.cts
  | .txe => s.txe
  | .tc => s.tc
  | .rxne => s.rxne

/-- A read of the status register followed by one of the data register, as in
    `stm32_getc` and `__HAL_UART_CLEAR_PEFLAG`. -/
def Status.readDr (s : Status) : Status :=
  { s with pe := false, fe := false, ne := false, ore := false, idle := false, rxne := false }

/-- How `uart_isr` clears a flag. -/
def Status.clear (s : Status) : Flag → Status
  -- The four error flags share one macro, which reads both registers.
  | .ore | .ne | .fe | .pe => s.readDr
  | .lbd => { s with lbd := false }
  | .cts => { s with cts := false }
  -- Only a write to the data register clears TXE, so this one does nothing.
  | .txe => s
  | .tc => { s with tc := false }
  | .rxne => { s with rxne := false }

/-- What the hardware does to the receiving half of the status register. -/
inductive Signal where
  | pe | fe | ne | ore | idle | rxne | lbd | cts
  deriving DecidableEq, Repr

def Status.raise (s : Status) : Signal → Status
  | .pe => { s with pe := true }
  | .fe => { s with fe := true }
  | .ne => { s with ne := true }
  | .ore => { s with ore := true }
  | .idle => { s with idle := true }
  | .rxne => { s with rxne := true }
  | .lbd => { s with lbd := true }
  | .cts => { s with cts := true }

/-- Where a character is on its way out. -/
inductive Tx where
  | empty
  | data (c : UInt8)
  | shift (c : UInt8)
  deriving DecidableEq, Repr

/-- Where the writing thread stands in `stm32_putc`. -/
inductive Writer where
  | idle
  | clearTc (c : UInt8)
  | writeDr (c : UInt8)
  | waitTc
  deriving DecidableEq, Repr

/-- Where the interrupt handler stands in `uart_isr`. -/
inductive Isr where
  | off
  | testRxne
  | rxInd
  | testIdle
  | testTc
  | clear (flags : List Flag)
  deriving DecidableEq, Repr

/-- How the port is set up: the interrupt enable bits, `uart_dma_flag` and whether
    `open_flag` has `RT_DEVICE_FLAG_DMA_TX`. -/
structure Port where
  rxneie : Bool
  idleie : Bool
  dmaFlag : Bool
  dmaTx : Bool
  deriving DecidableEq, Repr

end Uart

/-- A UART with the thread that writes to it and its interrupt handler. -/
structure Uart where
  status : Uart.Status := {}
  tx : Uart.Tx := .empty
  writer : Uart.Writer := .idle
  isr : Uart.Isr := .off
  deriving DecidableEq, Repr

namespace Uart

/-- One step of `stm32_putc`. -/
def putcStep (u : Uart) : Option Uart :=
  match u.writer with
  | .idle => none
  | .clearTc c => some { u with status := u.status.clear .tc, writer := .writeDr c }
  | .writeDr c =>
      some { u with status := { u.status with txe := false }, tx := .data c, writer := .waitTc }
  | .waitTc => if u.status.tc then some { u with writer := .idle } else some u

/-- The flags of the last branch, in its order. -/
def errorFlags : List Flag := [.ore, .ne, .fe, .pe, .lbd, .cts, .txe, .tc, .rxne]

section Step

variable (halUartIrqHandler : Status → Status) (p : Port)

/-- One step of `uart_isr`. `HAL_UART_IRQHandler` is called on a port that is open
    for a transmission by DMA, which is a port that nobody polls. -/
def isrStep (u : Uart) : Option Uart :=
  match u.isr with
  | .off => none
  | .testRxne =>
      if u.status.rxne && p.rxneie then some { u with isr := .rxInd }
      else some { u with isr := .testIdle }
  -- `rt_hw_serial_isr` calls `stm32_getc` until it returns `-1`.
  | .rxInd =>
      if u.status.rxne then some { u with status := u.status.readDr }
      else some { u with isr := .off }
  | .testIdle =>
      if p.dmaFlag && u.status.idle && p.idleie then
        some { u with status := u.status.readDr, isr := .off }
      else some { u with isr := .testTc }
  | .testTc =>
      if u.status.tc then
        if p.dmaTx then some { u with status := halUartIrqHandler u.status, isr := .off }
        else some { u with status := u.status.clear .tc, isr := .off }
      else some { u with isr := .clear errorFlags }
  | .clear [] => some { u with isr := .off }
  | .clear (f :: fs) =>
      if u.status.get f then some { u with status := u.status.clear f, isr := .clear fs }
      else some { u with isr := .clear fs }

/-- Who moves. -/
inductive Event where
  | putc (c : UInt8)
  | writer
  | interrupt
  | isr
  | load
  | finish
  | signal (g : Signal)
  | dmaRead
  deriving DecidableEq, Repr

/-- One step of the writer, the handler or the hardware. `rt_serial_write` polls
    only a port that is not open for a transmission by DMA. -/
def step (u : Uart) : Event → Option Uart
  | .putc c =>
      if u.isr = .off ∧ u.writer = .idle ∧ p.dmaTx = false then
        some { u with writer := .clearTc c }
      else none
  | .writer => if u.isr = .off then putcStep u else none
  | .interrupt => if u.isr = .off then some { u with isr := .testRxne } else none
  | .isr => isrStep halUartIrqHandler p u
  | .load => match u.tx with
    | .data c => some { u with status := { u.status with txe := true }, tx := .shift c }
    | _ => none
  -- The only place where TC is set.
  | .finish => match u.tx with
    | .shift _ => some { u with status := { u.status with tc := true }, tx := .empty }
    | _ => none
  | .signal g => some { u with status := u.status.raise g }
  | .dmaRead => some { u with status := { u.status with rxne := false } }

end Step

/-- A wait whose character has left the shift register ends with the next poll. -/
def Ends (u : Uart) : Prop :=
  u.writer = .waitTc → u.tx = .empty →
    u.status.tc = true ∧ putcStep u = some { u with writer := .idle }

/-- The handler is about to test TC, in its third branch or in its last one. -/
def AtTc (u : Uart) : Prop := u.isr = .testTc ∨ ∃ fs, u.isr = .clear (.tc :: fs)

/-- If the handler tests TC while the writer waits, the character is not out yet. -/
def Spares (u : Uart) (e : Event) : Prop :=
  e = .isr → u.AtTc → u.writer = .waitTc → u.tx ≠ .empty

/-- What holds whatever the handler does: a character is on its way only while the
    writer waits and TC is clear, and only a port without DMA is polled. -/
structure Sound (p : Port) (u : Uart) : Prop where
  sending : u.tx ≠ .empty → u.writer = .waitTc ∧ u.status.tc = false
  cleared : ∀ c, u.writer = .writeDr c → u.status.tc = false
  polled : u.writer ≠ .idle → p.dmaTx = false

@[simp] theorem Status.readDr_tc (s : Status) : s.readDr.tc = s.tc := rfl

@[simp] theorem Status.raise_tc (s : Status) (g : Signal) : (s.raise g).tc = s.tc := by
  cases g <;> rfl

@[simp] theorem Status.clear_tc (s : Status) (f : Flag) :
    (s.clear f).tc = (s.tc && !decide (f = .tc)) := by
  cases f <;> simp [Status.clear]

section Proofs

variable {halUartIrqHandler : Status → Status} {p : Port} {u u' : Uart}

/-- On a polled port the handler clears TC where it tests the flag, and nowhere
    else. -/
theorem isrStep_spec (h : isrStep halUartIrqHandler p u = some u') :
    u'.tx = u.tx ∧ u'.writer = u.writer ∧ (p.dmaTx = false →
      (u.AtTc → u'.status.tc = false) ∧ (¬ u.AtTc → u'.status.tc = u.status.tc)) := by
  -- A case for each place of the handler: only two of them are about TC.
  unfold isrStep at h
  unfold AtTc
  cases hi : u.isr with
  | off => simp [hi] at h
  | testRxne =>
      simp only [hi] at h
      split at h <;> cases h <;> simp
  | rxInd =>
      simp only [hi] at h
      split at h <;> cases h <;> simp
  | testIdle =>
      simp only [hi] at h
      split at h <;> cases h <;> simp
  | testTc =>
      simp only [hi] at h
      -- A port with DMA is left to the HAL, and a polled port has none.
      by_cases ht : u.status.tc = true
      · by_cases hd : p.dmaTx = true
        · simp only [ht, hd, if_true, Option.some.injEq] at h
          simp [← h, hd]
        · simp only [ht, hd, if_true, Bool.false_eq_true, if_false, Option.some.injEq] at h
          simp [← h]
      · simp only [ht, Bool.false_eq_true, if_false, Option.some.injEq] at h
        simp [← h, ht]
  | clear fs =>
      cases fs with
      | nil =>
          simp only [hi, Option.some.injEq] at h
          simp [← h]
      | cons f fs =>
          simp only [hi] at h
          split at h
          · rw [Option.some.injEq] at h
            by_cases hf : f = .tc <;> simp [← h, hf]
          · rename_i hg
            rw [Option.some.injEq] at h
            refine ⟨by rw [← h], by rw [← h], fun _ => ⟨?_, ?_⟩⟩
            -- A clear flag is skipped, so TC was clear if this is its turn.
            · rintro (ht | ⟨fs', ht⟩)
              · cases ht
              · cases ht
                rw [← h]
                simpa [Status.get] using hg
            · intro _
              rw [← h]

/-- What a step does to the writer, the transmitter and TC, seen from the outside. -/
inductive Move (p : Port) (u u' : Uart) : Event → Prop where
  | putc (c : UInt8) (hport : p.dmaTx = false) (hw : u.writer = .idle)
      (hw' : u'.writer = .clearTc c) (htx : u'.tx = u.tx) (htc : u'.status.tc = u.status.tc) :
      Move p u u' (.putc c)
  | clearTc (c : UInt8) (hw : u.writer = .clearTc c) (hw' : u'.writer = .writeDr c)
      (htx : u'.tx = u.tx) (htc : u'.status.tc = false) : Move p u u' .writer
  | writeDr (c : UInt8) (hw : u.writer = .writeDr c) (hw' : u'.writer = .waitTc)
      (htx : u'.tx = .data c) (htc : u'.status.tc = u.status.tc) : Move p u u' .writer
  | returns (hset : u.status.tc = true) (hw : u.writer = .waitTc) (hw' : u'.writer = .idle)
      (htx : u'.tx = u.tx) (htc : u'.status.tc = u.status.tc) : Move p u u' .writer
  | takes (hat : u.AtTc) (hw : u'.writer = u.writer) (htx : u'.tx = u.tx)
      (htc : p.dmaTx = false → u'.status.tc = false) : Move p u u' .isr
  | handles (hat : ¬ u.AtTc) (hw : u'.writer = u.writer) (htx : u'.tx = u.tx)
      (htc : p.dmaTx = false → u'.status.tc = u.status.tc) : Move p u u' .isr
  | load (c : UInt8) (hw : u'.writer = u.writer) (hsend : u.tx = .data c)
      (htx : u'.tx = .shift c) (htc : u'.status.tc = u.status.tc) : Move p u u' .load
  | finish (c : UInt8) (hw : u'.writer = u.writer) (hsend : u.tx = .shift c)
      (htx : u'.tx = .empty) (htc : u'.status.tc = true) : Move p u u' .finish
  | rest (e : Event) (he : e ≠ .isr) (hw : u'.writer = u.writer) (htx : u'.tx = u.tx)
      (htc : u'.status.tc = u.status.tc) : Move p u u' e

theorem step_cases {e : Event} (h : step halUartIrqHandler p u e = some u') :
    Move p u u' e := by
  unfold step at h
  cases e with
  | putc c =>
      simp only [Option.ite_none_right_eq_some, Option.some.injEq] at h
      rcases h with ⟨⟨-, hw, hd⟩, rfl⟩
      exact .putc c hd hw rfl rfl rfl
  | writer =>
      simp only [Option.ite_none_right_eq_some] at h
      rcases h with ⟨-, h⟩
      unfold putcStep at h
      cases hw : u.writer with
      | idle => simp [hw] at h
      | clearTc c =>
          simp only [hw, Option.some.injEq] at h
          subst h
          exact .clearTc c hw rfl rfl (by simp)
      | writeDr c =>
          simp only [hw, Option.some.injEq] at h
          subst h
          exact .writeDr c hw rfl rfl rfl
      | waitTc =>
          simp only [hw] at h
          split at h
          · rename_i ht
            rw [Option.some.injEq] at h
            subst h
            exact .returns ht hw rfl rfl rfl
          · rw [Option.some.injEq] at h
            subst h
            exact .rest .writer nofun rfl rfl rfl
  | interrupt =>
      simp only [Option.ite_none_right_eq_some, Option.some.injEq] at h
      rcases h with ⟨-, rfl⟩
      exact .rest .interrupt nofun rfl rfl rfl
  | isr =>
      rcases isrStep_spec h with ⟨htx, hw, htc⟩
      by_cases hat : u.AtTc
      · exact .takes hat hw htx fun hd => (htc hd).1 hat
      · exact .handles hat hw htx fun hd => (htc hd).2 hat
  | load =>
      cases hx : u.tx with
      | data c =>
          simp only [hx, Option.some.injEq] at h
          subst h
          exact .load c rfl hx rfl rfl
      | empty => simp [hx] at h
      | shift c => simp [hx] at h
  | finish =>
      cases hx : u.tx with
      | shift c =>
          simp only [hx, Option.some.injEq] at h
          subst h
          exact .finish c rfl hx rfl rfl
      | empty => simp [hx] at h
      | data c => simp [hx] at h
  | signal g =>
      simp only [Option.some.injEq] at h
      subst h
      exact .rest (.signal g) nofun rfl rfl (by simp)
  | dmaRead =>
      simp only [Option.some.injEq] at h
      subst h
      exact .rest .dmaRead nofun rfl rfl rfl

/-- A step that touches none of the three keeps what holds of them. -/
theorem Sound.congr (hs : Sound p u) (hw : u'.writer = u.writer) (htx : u'.tx = u.tx)
    (htc : u.writer ≠ .idle → u'.status.tc = u.status.tc ∨ u'.status.tc = false) :
    Sound p u' := by
  -- While something is being written, TC that is clear stays clear.
  have hfalse : u.writer ≠ .idle → u.status.tc = false → u'.status.tc = false := by
    intro hi hf
    rcases htc hi with heq | heq
    · rw [heq, hf]
    · exact heq
  refine ⟨?_, ?_, by rw [hw]; exact hs.polled⟩
  · rw [hw, htx]
    intro hx
    rcases hs.sending hx with ⟨hwait, hf⟩
    exact ⟨hwait, hfalse (by simp [hwait]) hf⟩
  · rw [hw]
    intro c hc
    exact hfalse (by simp [hc]) (hs.cleared c hc)

/-- A character is on its way only while the writer waits. -/
theorem Sound.empty (hs : Sound p u) (hw : u.writer ≠ .waitTc) : u.tx = .empty := by
  by_contra hx
  exact hw (hs.sending hx).1

theorem step_sound {e : Event} (hs : Sound p u)
    (h : step halUartIrqHandler p u e = some u') : Sound p u' := by
  cases step_cases h with
  | putc c hport hw hw' htx htc =>
      have hx : u'.tx = .empty := by rw [htx, hs.empty (by simp [hw])]
      exact ⟨fun hn => absurd hx hn, by simp [hw'], fun _ => hport⟩
  | clearTc c hw hw' htx htc =>
      have hx : u'.tx = .empty := by rw [htx, hs.empty (by simp [hw])]
      exact ⟨fun hn => absurd hx hn, fun _ _ => htc, fun _ => hs.polled (by simp [hw])⟩
  | writeDr c hw hw' htx htc =>
      have hf : u'.status.tc = false := by rw [htc, hs.cleared c hw]
      exact ⟨fun _ => ⟨hw', hf⟩, fun _ _ => hf, fun _ => hs.polled (by simp [hw])⟩
  | returns hset hw hw' htx htc =>
      -- The poll saw the flag, so nothing is on its way any more.
      have hx : u'.tx = .empty := by
        rw [htx]
        by_contra hn
        rw [(hs.sending hn).2] at hset
        cases hset
      exact ⟨fun hn => absurd hx hn, by simp [hw'], fun hi => absurd hw' hi⟩
  -- A handler that clears TC does no harm here; it is the wait that it may strand.
  | takes hat hw htx htc => exact hs.congr hw htx fun hi => .inr (htc (hs.polled hi))
  | handles hat hw htx htc => exact hs.congr hw htx fun hi => .inl (htc (hs.polled hi))
  | load c hw hsend htx htc =>
      have hx : u.tx ≠ .empty := by simp [hsend]
      refine ⟨fun _ => ?_, ?_, by rw [hw]; exact hs.polled⟩
      · rw [hw, htc]
        exact hs.sending hx
      · rw [hw, htc]
        exact hs.cleared
  | finish c hw hsend htx htc =>
      -- The character leaves and TC is set, in one step.
      have hwait := (hs.sending (by simp [hsend])).1
      exact ⟨fun hn => absurd htx hn, by simp [hw, hwait], by rw [hw]; exact hs.polled⟩
  | rest e he hw htx htc => exact hs.congr hw htx fun _ => .inl htc

/-- The poll that finds TC set is the last one. -/
theorem ends_iff : u.Ends ↔ (u.writer = .waitTc → u.tx = .empty → u.status.tc = true) := by
  constructor
  · intro h hw hx
    exact (h hw hx).1
  · intro h hw hx
    have ht := h hw hx
    exact ⟨ht, by simp [putcStep, hw, ht]⟩

/-- An interrupt that spares the wait does not take its end away. -/
theorem step_ends {e : Event} (hs : Sound p u) (hE : u.Ends) (hG : Spares u e)
    (h : step halUartIrqHandler p u e = some u') : u'.Ends := by
  rw [ends_iff] at hE ⊢
  intro hw' hx'
  cases step_cases h with
  | putc c hport hw hwn htx htc => simp [hwn] at hw'
  | clearTc c hw hwn htx htc => simp [hwn] at hw'
  | writeDr c hw hwn htx htc => simp [htx] at hx'
  | returns hset hw hwn htx htc => simp [hwn] at hw'
  | takes hat hw htx htc =>
      -- The one case in which the condition is needed.
      rw [hw] at hw'
      rw [htx] at hx'
      exact absurd hx' (hG rfl hat hw')
  | handles hat hw htx htc =>
      rw [hw] at hw'
      rw [htx] at hx'
      rw [htc (hs.polled (by simp [hw']))]
      exact hE hw' hx'
  | load c hw hsend htx htc => simp [htx] at hx'
  | finish c hw hsend htx htc => exact htc
  | rest e he hw htx htc =>
      rw [hw] at hw'
      rw [htx] at hx'
      rw [htc]
      exact hE hw' hx'

/-- An interrupt that does not spare the wait takes its end away. -/
theorem step_not_ends {e : Event} (hs : Sound p u) (hG : ¬ Spares u e)
    (h : step halUartIrqHandler p u e = some u') : ¬ u'.Ends := by
  unfold Spares at hG
  push Not at hG
  rcases hG with ⟨rfl, hat, hwait, hx⟩
  have hport : p.dmaTx = false := hs.polled (by simp [hwait])
  -- The character is out, and TC is clear behind the test.
  rcases isrStep_spec h with ⟨htx, hw, htc⟩
  intro hE
  have ht := (hE (by rw [hw, hwait]) (by rw [htx, hx])).1
  rw [(htc hport).1 hat] at ht
  cases ht

/-- A wait that nothing can end any more. -/
structure Stranded (p : Port) (u : Uart) : Prop where
  port : p.dmaTx = false
  writer : u.writer = .waitTc
  tx : u.tx = .empty
  tc : u.status.tc = false

theorem step_stranded {e : Event} (hs : Stranded p u)
    (h : step halUartIrqHandler p u e = some u') : Stranded p u' := by
  rcases hs with ⟨hport, hwait, hx, hf⟩
  cases step_cases h with
  | putc c _ hw hw' htx htc => simp [hwait] at hw
  | clearTc c hw hw' htx htc => simp [hwait] at hw
  | writeDr c hw hw' htx htc => simp [hwait] at hw
  -- A poll does not end without TC, and TC is only set where a character leaves.
  | returns hset hw hw' htx htc => simp [hf] at hset
  | takes hat hw htx htc => exact ⟨hport, by rw [hw, hwait], by rw [htx, hx], htc hport⟩
  | handles hat hw htx htc =>
      exact ⟨hport, by rw [hw, hwait], by rw [htx, hx], by rw [htc hport, hf]⟩
  | load c hw hsend htx htc => simp [hx] at hsend
  | finish c hw hsend htx htc => simp [hx] at hsend
  | rest e he hw htx htc => exact ⟨hport, by rw [hw, hwait], by rw [htx, hx], by rw [htc, hf]⟩

/-- A stranded writer waits for ever, whatever happens. -/
theorem run_stranded {events : List Event} (hs : Stranded p u)
    (h : run (step halUartIrqHandler p) u events = some u') : Stranded p u' :=
  run_invariant (step halUartIrqHandler p) (Stranded p) (fun _ _ _ hI hstep =>
    step_stranded hI hstep) hs h

/-- From a UART nobody is writing to, a wait whose character is out is never left
    without its end exactly if no execution of the handler comes to a test of TC
    between the character leaving and the poll that sees it. -/
theorem along_spares_iff {events : List Event} (hw : u.writer = .idle) (hx : u.tx = .empty)
    (h : run (step halUartIrqHandler p) u events = some u') :
    Along (step halUartIrqHandler p) Spares u events ↔
      Always (step halUartIrqHandler p) Ends u events := by
  have hs : Sound p u :=
    ⟨fun hn => absurd hx hn, by simp [hw], fun hn => absurd hw hn⟩
  have hE : u.Ends := fun hwait => by simp [hw] at hwait
  have hany : Along (step halUartIrqHandler p) (fun _ _ => True) u events :=
    along_of_forall (step halUartIrqHandler p) u fun _ _ => trivial
  exact along_iff_always (step halUartIrqHandler p)
    (fun _ _ _ hI _ hstep => step_sound hI hstep)
    (fun _ _ _ hI hP _ hG hstep => step_ends hI hP hG hstep)
    (fun _ _ _ hI _ _ hG hstep => step_not_ends hI hG hstep) hs hE hany h

end Proofs

/-- The console of this board: receive interrupts, no DMA. -/
def console : Port := ⟨true, false, false, false⟩

/-- A character is sent while a byte arrives; the handler takes the byte and never
    comes to TC. -/
def sendAndReceive : List Event :=
  [.putc 97, .writer, .writer, .load, .finish, .signal .rxne, .interrupt, .isr, .isr, .isr,
    .writer]

theorem along_spares_sendAndReceive :
    (run (step id console) {} sendAndReceive).isSome = true ∧
    Always (step id console) Ends {} sendAndReceive := by
  have hrun : (run (step id console) {} sendAndReceive).isSome = true := by decide
  rcases Option.isSome_iff_exists.mp hrun with ⟨t, ht⟩
  refine ⟨hrun, (along_spares_iff rfl rfl ht).mp ?_⟩
  simp [sendAndReceive, Along, step, putcStep, isrStep, Spares, AtTc, console, Status.raise,
    Status.readDr]

/-- The same with an overrun whose byte was read in time. -/
def sendAndOverrun : List Event :=
  [.putc 97, .writer, .writer, .load, .finish, .signal .ore, .interrupt, .isr, .isr, .isr]

/-- The handler clears TC behind the character, and the writer waits for ever. -/
theorem not_ends_after_overrun : ∃ t, run (step id console) {} sendAndOverrun = some t ∧
    ¬ t.Ends ∧ ∀ events v, run (step id console) t events = some v → v.writer = .waitTc := by
  refine ⟨⟨{ ore := true, txe := true }, .empty, .waitTc, .off⟩, by decide, ?_, ?_⟩
  · intro hE
    have ht := (hE rfl rfl).1
    cases ht
  · intro events v hv
    exact (run_stranded ⟨rfl, rfl, rfl, rfl⟩ hv).writer

end Uart

end Firmware
