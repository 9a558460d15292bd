import Firmware.Uart.Polling

/-!
# Reception by Interrupt

`uart_isr` from `drivers/drv_usart.c` once more, for a port that receives by
interrupt, as the register accesses it is made of.

The receiver has one data register. A byte that arrives while RXNE is clear is
loaded into it and sets RXNE; a byte that arrives while RXNE is set is lost, and
the overrun flag says so. `stm32_getc`, which `rt_hw_serial_isr` calls until it
returns `-1`, is where a byte is meant to leave the register. It is not the only
read of the register: the four error flags and IDLE are cleared by reading the
status and then the data register, whatever is in it, and at the end of its last
branch the handler clears RXNE.

A byte that arrives between the first test of RXNE and one of these accesses is
read by nobody. `delivers_iff` says that this is the only way to lose one: every
loaded byte is delivered, once and in order, by the run of the handler that is
under way or by the next one, exactly if the handler makes those accesses only
while RXNE is clear.

## Main definitions

* `Place`: Before which access the handler is.
* `Receiver`: The registers, the handler and the bytes so far.
* `isrAccess`: One access of `uart_isr`.
* `rxStep`: One step of the handler or the hardware.
* `Accounts`: A loaded byte is delivered or still in the data register.
* `Delivers`: What the handler owes to every byte.
* `Careful`: The handler takes nothing that it does not deliver.

## Theorems

* `isrAccess_spec`: What an access does to the byte in the data register.
* `rxStep_moves`: What a step does to it.
* `RxMove.waits`: A byte that waits comes closer to its delivery.
* `run_waits`: The same for a run.
* `delivers_iff`: Every byte is delivered exactly if the handler is careful.
* `not_delivers_behind_overrun`: A byte that arrives while the handler clears an
  overrun.
-/

namespace Firmware

namespace Uart

/-- The access of `uart_isr` that comes next. -/
inductive Place where
  | off
  | testRxne
  -- `stm32_getc`
  | getcSr
  | getcDr
  | testIdle
  | idleSr
  | idleDr
  | testTc
  | clearTc
  | hal
  -- The last branch, with the flags that are left.
  | test (flags : List Flag)
  | clearSr (flags : List Flag)
  | clearDr (flags : List Flag)
  | write (f : Flag) (flags : List Flag)
  deriving DecidableEq, Repr

/-- The receiving half of a UART and its interrupt handler, with the bytes that were
    loaded into the data register and those that `stm32_getc` has returned. -/
structure Receiver where
  status : Status := {}
  dr : UInt8 := 0
  place : Place := .off
  loaded : List UInt8 := []
  delivered : List UInt8 := []
  deriving DecidableEq, Repr

/-- `__HAL_UART_CLEAR_FLAG`, which writes `~flag` to the status register. The error flags
    and TXE are not cleared that way. -/
def Status.write (s : Status) : Flag → Status
  | .lbd => { s with lbd := false }
  | .cts => { s with cts := false }
  | .tc => { s with tc := false }
  | .rxne => { s with rxne := false }
  | .ore | .ne | .fe | .pe | .txe => s

/-- How the last branch clears a flag: the error flags through
    `__HAL_UART_CLEAR_PEFLAG`, which reads both registers, and the others by a write. -/
def Flag.clearing (flags : List Flag) : Flag → Place
  | .ore | .ne | .fe | .pe => .clearSr flags
  | f => .write f flags

/-- The accesses other than that of `stm32_getc` that empty the data register. -/
def Place.discards : Place → Bool
  | .idleDr => true
  | .clearDr _ => true
  | .write .rxne _ => true
  | _ => false

/-- An upper bound for the steps of the handler until a byte that waits is read. -/
def Place.rank : Place → Nat
  | .getcDr => 1
  | .getcSr => 2
  | .testRxne => 3
  | .off => 4
  | .idleDr => 5
  | .clearTc => 5
  | .hal => 5
  | .idleSr => 6
  | .test flags => 5 + 3 * flags.length
  | .clearDr flags => 6 + 3 * flags.length
  | .write _ flags => 6 + 3 * flags.length
  | .clearSr flags => 7 + 3 * flags.length
  | .testTc => 33
  | .testIdle => 34

section Step

variable (halUartIrqHandler : Status → Status) (p : Port)

/-- One access of `uart_isr`. -/
def isrAccess (u : Receiver) : Option Receiver :=
  match u.place with
  | .off => none
  | .testRxne =>
      if u.status.rxne && p.rxneie then some { u with place := .getcSr }
      else some { u with place := .testIdle }
  | .getcSr =>
      if u.status.rxne then some { u with place := .getcDr }
      else some { u with place := .off }
  -- The only read whose result anybody gets to see.
  | .getcDr =>
      some { u with
        status := u.status.readDr, delivered := u.delivered ++ [u.dr], place := .getcSr }
  | .testIdle =>
      if p.dmaFlag && u.status.idle && p.idleie then some { u with place := .idleSr }
      else some { u with place := .testTc }
  | .idleSr => some { u with place := .idleDr }
  | .idleDr => some { u with status := u.status.readDr, place := .off }
  | .testTc =>
      if u.status.tc then
        if p.dmaTx then some { u with place := .hal } else some { u with place := .clearTc }
      else some { u with place := .test errorFlags }
  | .clearTc => some { u with status := u.status.write .tc, place := .off }
  | .hal => some { u with status := halUartIrqHandler u.status, place := .off }
  | .test [] => some { u with place := .off }
  | .test (f :: fs) =>
      if u.status.get f then some { u with place := f.clearing fs }
      else some { u with place := .test fs }
  | .clearSr fs => some { u with place := .clearDr fs }
  | .clearDr fs => some { u with status := u.status.readDr, place := .test fs }
  | .write f fs => some { u with status := u.status.write f, place := .test fs }

/-- What happens next. `flags` is everything that others do to the status register:
    it leaves RXNE alone. -/
inductive AccessEvent where
  | interrupt
  | isr
  | arrive (b : UInt8)
  | flags (s : Status)
  deriving DecidableEq, Repr

/-- The events that are steps of the handler. -/
def AccessEvent.handler : AccessEvent → Bool
  | .interrupt => true
  | .isr => true
  | .arrive _ => false
  | .flags _ => false

/-- One step of the handler or the hardware. -/
def rxStep (u : Receiver) : AccessEvent → Option Receiver
  | .interrupt => if u.place = .off then some { u with place := .testRxne } else none
  | .isr => isrAccess halUartIrqHandler p u
  | .arrive b =>
      -- The byte in the register is kept, and the new one is lost without having been loaded.
      if u.status.rxne then some { u with status := { u.status with ore := true } }
      else some { u with
        status := { u.status with rxne := true }, dr := b, loaded := u.loaded ++ [b] }
  | .flags s => some { u with status := { s with rxne := u.status.rxne } }

/-- Every byte that was loaded was delivered, once and in order, but for the one that is
    still in the data register. -/
def Accounts (u : Receiver) : Prop :=
  u.delivered ++ (if u.status.rxne then [u.dr] else []) = u.loaded

/-- Outside of `stm32_getc` the handler empties the data register only while there is
    nothing in it. -/
def Careful (u : Receiver) (e : AccessEvent) : Prop :=
  e = .isr → u.place.discards = true → u.status.rxne = false

instance (u : Receiver) (e : AccessEvent) : Decidable (Careful u e) :=
  inferInstanceAs (Decidable (e = .isr → u.place.discards = true → u.status.rxne = false))

/-- What is loaded at some point of the run is delivered when a run of the handler
    that began behind that point has come to its end, and within 34 steps of the
    handler. -/
structure Delivers (s : Receiver) (events : List AccessEvent) : Prop where
  accounts : Always (rxStep halUartIrqHandler p) Accounts s events
  next : ∀ as bs u t, events = as ++ bs → run (rxStep halUartIrqHandler p) s as = some u →
    run (rxStep halUartIrqHandler p) u bs = some t → .interrupt ∈ bs → t.place = .off →
      u.loaded <+: t.delivered
  soon : ∀ as bs u t, events = as ++ bs → run (rxStep halUartIrqHandler p) s as = some u →
    run (rxStep halUartIrqHandler p) u bs = some t → 34 ≤ bs.countP AccessEvent.handler →
      u.loaded <+: t.delivered

end Step

@[simp] theorem Status.readDr_rxne (s : Status) : s.readDr.rxne = false := rfl

@[simp] theorem Status.write_rxne (s : Status) (f : Flag) :
    (s.write f).rxne = (s.rxne && !decide (f = .rxne)) := by
  cases f <;> simp [Status.write]

theorem Place.rank_pos (l : Place) : 0 < l.rank := by
  cases l <;> simp [Place.rank]

theorem Flag.clearing_ne_getcDr (fs : List Flag) (f : Flag) : f.clearing fs ≠ .getcDr := by
  cases f <;> simp [Flag.clearing]

theorem Flag.rank_clearing (fs : List Flag) (f : Flag) :
    (f.clearing fs).rank ≤ 7 + 3 * fs.length := by
  cases f <;> simp [Flag.clearing, Place.rank]

/-- Nobody touched the byte in the data register. -/
structure Kept (u u' : Receiver) : Prop where
  rxne : u'.status.rxne = u.status.rxne
  dr : u'.dr = u.dr
  loaded : u'.loaded = u.loaded
  delivered : u'.delivered = u.delivered

/-- What an access of the handler does to the byte in the data register, and how far it
    brings the handler. -/
inductive Access (u u' : Receiver) : Prop where
  | delivers (hat : u.place = .getcDr) (hplace : u'.place = .getcSr)
      (hrxne : u'.status.rxne = false) (hloaded : u'.loaded = u.loaded)
      (hdelivered : u'.delivered = u.delivered ++ [u.dr]) : Access u u'
  | discards (hat : u.place.discards = true) (hrxne : u'.status.rxne = false)
      (hloaded : u'.loaded = u.loaded) (hdelivered : u'.delivered = u.delivered)
      (hplace : u'.place ≠ .getcDr) (hrank : u'.place.rank < u.place.rank) : Access u u'
  | passes (hat : u.place.discards = false) (hkept : Kept u u')
      (hplace : u'.place = .getcDr → u.status.rxne = true)
      (hrank : u.status.rxne = true → u'.place.rank < u.place.rank)
      (hbound : u.place.rank ≤ 34 → u'.place.rank ≤ 34) : Access u u'

/-- An access behind which the handler is closer to its end, and not in `stm32_getc`. -/
theorem Access.of_lt {u u' : Receiver} (hat : u.place.discards = false) (hkept : Kept u u')
    (hplace : u'.place ≠ .getcDr) (hlt : u'.place.rank < u.place.rank) : Access u u' :=
  .passes hat hkept (fun h => absurd h hplace) (fun _ => hlt) fun _ => by omega

/-- The same for an access that only reads the status register. -/
theorem Access.moves {u : Receiver} {l : Place} (hat : u.place.discards = false)
    (hplace : l ≠ .getcDr) (hlt : l.rank < u.place.rank) : Access u { u with place := l } :=
  .of_lt hat ⟨rfl, rfl, rfl, rfl⟩ hplace hlt

section Proofs

variable {halUartIrqHandler : Status → Status} {p : Port} {u u' : Receiver}

theorem isrAccess_spec (hhal : ∀ s, (halUartIrqHandler s).rxne = s.rxne)
    (hport : p.rxneie = true) (h : isrAccess halUartIrqHandler p u = some u') :
    Access u u' := by
  rcases u with ⟨status, dr, place, loaded, delivered⟩
  unfold isrAccess at h
  cases place with
  | off => cases h
  | testRxne =>
      -- The only move that leads away from a delivery is made with RXNE clear.
      by_cases hr : status.rxne = true
      · simp only [hr, hport, Bool.and_self, if_true, Option.some.injEq] at h
        subst h
        exact .moves rfl nofun (by simp [Place.rank])
      · -- The branches that follow do not come back to `stm32_getc`.
        simp only [hr, Bool.false_and, Bool.false_eq_true, if_false, Option.some.injEq] at h
        subst h
        exact .passes rfl ⟨rfl, rfl, rfl, rfl⟩ nofun (fun h => absurd h hr) fun _ => le_rfl
  | getcSr =>
      by_cases hr : status.rxne = true
      · simp only [hr, if_true, Option.some.injEq] at h
        subst h
        exact .passes rfl ⟨rfl, rfl, rfl, rfl⟩ (fun _ => hr) (by simp [Place.rank])
          (by simp [Place.rank])
      · simp only [hr, Bool.false_eq_true, if_false, Option.some.injEq] at h
        subst h
        exact .passes rfl ⟨rfl, rfl, rfl, rfl⟩ nofun (fun h => absurd h hr)
          (by simp [Place.rank])
  | getcDr =>
      cases h
      exact .delivers rfl rfl rfl rfl rfl
  | testIdle =>
      simp only at h
      split at h
      · cases h
        exact .moves rfl nofun (by simp [Place.rank])
      · cases h
        exact .moves rfl nofun (by simp [Place.rank])
  | idleSr =>
      cases h
      exact .moves rfl nofun (by simp [Place.rank])
  | idleDr =>
      cases h
      exact .discards rfl rfl rfl rfl nofun (by simp [Place.rank])
  | testTc =>
      simp only at h
      split at h
      · split at h
        · cases h
          exact .moves rfl nofun (by simp [Place.rank])
        · cases h
          exact .moves rfl nofun (by simp [Place.rank])
      · cases h
        exact .moves rfl nofun (by simp [Place.rank, errorFlags])
  | clearTc =>
      cases h
      exact .of_lt rfl ⟨by simp, rfl, rfl, rfl⟩ nofun (by simp [Place.rank])
  | hal =>
      cases h
      exact .of_lt rfl ⟨hhal status, rfl, rfl, rfl⟩ nofun (by simp [Place.rank])
  | test fs =>
      cases fs with
      | nil =>
          cases h
          exact .moves rfl nofun (by simp [Place.rank])
      | cons f fs =>
          simp only at h
          split at h
          · cases h
            have hrank := Flag.rank_clearing fs f
            refine .moves rfl (Flag.clearing_ne_getcDr fs f) ?_
            change (f.clearing fs).rank < 5 + 3 * (fs.length + 1)
            omega
          · cases h
            exact .moves rfl nofun (by simp [Place.rank])
  | clearSr fs =>
      cases h
      exact .moves rfl nofun (by simp [Place.rank])
  | clearDr fs =>
      cases h
      exact .discards rfl rfl rfl rfl nofun (by simp [Place.rank])
  | write f fs =>
      cases h
      -- Only the write for RXNE empties the register; the others clear a flag of their own.
      by_cases hf : f = .rxne
      · subst hf
        exact .discards rfl (by simp) rfl rfl nofun (by simp [Place.rank])
      · refine .of_lt ?_ ⟨by simp [hf], rfl, rfl, rfl⟩ nofun (by simp [Place.rank])
        cases f with
        | rxne => exact absurd rfl hf
        | _ => rfl

/-- What a step does to the byte in the data register, seen from the outside. -/
inductive RxMove (u u' : Receiver) : AccessEvent → Prop where
  | enters (hoff : u.place = .off) (hplace : u'.place = .testRxne) (hkept : Kept u u') :
      RxMove u u' .interrupt
  | accesses (h : Access u u') : RxMove u u' .isr
  | loads (b : UInt8) (hempty : u.status.rxne = false) (hrxne : u'.status.rxne = true)
      (hloaded : u'.loaded = u.loaded ++ [u'.dr]) (hdelivered : u'.delivered = u.delivered)
      (hplace : u'.place = u.place) : RxMove u u' (.arrive b)
  -- A byte that is lost in an overrun is among these.
  | passes (e : AccessEvent) (hkept : Kept u u') (hplace : u'.place = u.place)
      (he : e.handler = false) : RxMove u u' e

theorem rxStep_moves (hhal : ∀ s, (halUartIrqHandler s).rxne = s.rxne)
    (hport : p.rxneie = true) {e : AccessEvent}
    (h : rxStep halUartIrqHandler p u e = some u') : RxMove u u' e := by
  cases e with
  | interrupt =>
      simp only [rxStep] at h
      split at h
      · rename_i hoff
        cases h
        exact .enters hoff rfl ⟨rfl, rfl, rfl, rfl⟩
      · cases h
  | isr => exact .accesses (isrAccess_spec hhal hport h)
  | arrive b =>
      simp only [rxStep] at h
      split at h
      · cases h
        exact .passes _ ⟨rfl, rfl, rfl, rfl⟩ rfl rfl
      · rename_i hempty
        cases h
        exact .loads b (by simpa using hempty) rfl rfl rfl rfl
  | flags s =>
      cases h
      exact .passes _ ⟨rfl, rfl, rfl, rfl⟩ rfl rfl

/-- What holds in every run of the handler that began with a test of RXNE. -/
structure Tidy (u : Receiver) : Prop where
  full : u.place = .getcDr → u.status.rxne = true
  near : u.place.rank ≤ 34

/-- A byte is in the data register, and it completes `bytes`. -/
structure Waits (bytes : List UInt8) (u : Receiver) : Prop where
  rxne : u.status.rxne = true
  bytes : u.delivered ++ [u.dr] = bytes

theorem accounts_full (hr : u.status.rxne = true) :
    Accounts u ↔ u.delivered ++ [u.dr] = u.loaded := by
  rw [Accounts, if_pos hr]

theorem accounts_empty (hr : u.status.rxne = false) :
    Accounts u ↔ u.delivered = u.loaded := by
  rw [Accounts, if_neg (by simp [hr]), List.append_nil]

theorem Kept.accounts (h : Kept u u') : Accounts u' ↔ Accounts u := by
  unfold Accounts
  rw [h.rxne, h.dr, h.loaded, h.delivered]

theorem Kept.waits {bytes : List UInt8} (h : Kept u u') (hw : Waits bytes u) :
    Waits bytes u' :=
  ⟨by rw [h.rxne, hw.rxne], by rw [h.delivered, h.dr, hw.bytes]⟩

theorem RxMove.tidy {e : AccessEvent} (h : RxMove u u' e) (hu : Tidy u) : Tidy u' := by
  cases h with
  | enters hoff hplace => exact ⟨by simp [hplace], by simp [hplace, Place.rank]⟩
  | accesses h =>
      cases h with
      | delivers hat hplace => exact ⟨by simp [hplace], by simp [hplace, Place.rank]⟩
      | discards hat hrxne hloaded hdelivered hplace hrank =>
          have hnear := hu.near
          exact ⟨fun h => absurd h hplace, by omega⟩
      -- `stm32_getc` reads the data register only behind a test of RXNE.
      | passes hat hkept hplace hrank hbound =>
          exact ⟨fun h => by rw [hkept.rxne, hplace h], hbound hu.near⟩
  | loads b hempty hrxne hloaded hdelivered hplace =>
      exact ⟨fun _ => hrxne, by rw [hplace]; exact hu.near⟩
  | passes _ hkept hplace =>
      refine ⟨fun h => ?_, by rw [hplace]; exact hu.near⟩
      rw [hkept.rxne]
      exact hu.full (hplace.symm.trans h)

/-- A careful step keeps the accounts in order. -/
theorem RxMove.accounts {e : AccessEvent} (h : RxMove u u' e) (hu : Tidy u) (hc : Careful u e)
    (ha : Accounts u) : Accounts u' := by
  cases h with
  | enters _ _ hkept => exact hkept.accounts.mpr ha
  | accesses h =>
      cases h with
      | delivers hat hplace hrxne hloaded hdelivered =>
          rw [accounts_empty hrxne, hdelivered, hloaded]
          exact (accounts_full (hu.full hat)).mp ha
      | discards hat hrxne hloaded hdelivered =>
          -- There is nothing in the data register.
          rw [accounts_empty hrxne, hdelivered, hloaded]
          exact (accounts_empty (hc rfl hat)).mp ha
      | passes hat hkept => exact hkept.accounts.mpr ha
  -- The register was empty, so the byte is behind all that were delivered.
  | loads b hempty hrxne hloaded hdelivered =>
      rw [accounts_full hrxne, hdelivered, hloaded, (accounts_empty hempty).mp ha]
  | passes _ hkept => exact hkept.accounts.mpr ha

/-- A step that is not careful loses a byte. -/
theorem RxMove.drops {e : AccessEvent} (h : RxMove u u' e) (hc : ¬ Careful u e)
    (ha : Accounts u) : ¬ Accounts u' := by
  unfold Careful at hc
  push Not at hc
  rcases hc with ⟨rfl, hat, hr⟩
  rw [accounts_full (by simpa using hr)] at ha
  cases h with
  | accesses h =>
      cases h with
      | delivers hat' => simp [hat', Place.discards] at hat
      | discards hat' hrxne hloaded hdelivered =>
          rw [accounts_empty hrxne, hdelivered, hloaded, ← ha]
          simp
      | passes hat' => simp [hat'] at hat
  | passes _ _ _ he => cases he

theorem RxMove.grows {e : AccessEvent} (h : RxMove u u' e) : u.delivered <+: u'.delivered := by
  cases h with
  | enters _ _ hkept => rw [hkept.delivered]
  | accesses h =>
      cases h with
      | delivers hat hplace hrxne hloaded hdelivered => exact ⟨[u.dr], hdelivered.symm⟩
      | discards hat hrxne hloaded hdelivered => rw [hdelivered]
      | passes hat hkept => rw [hkept.delivered]
  | loads b hempty hrxne hloaded hdelivered => rw [hdelivered]
  | passes _ hkept => rw [hkept.delivered]

/-- A byte that waits is delivered or goes on waiting, and then every step of the handler
    has brought the handler closer to it. A run of the handler that begins while it
    waits goes straight to it. -/
theorem RxMove.waits {e : AccessEvent} {bytes : List UInt8} (h : RxMove u u' e)
    (hc : Careful u e) (hw : Waits bytes u) :
    bytes <+: u'.delivered ∨ Waits bytes u' ∧
      u'.place.rank + [e].countP AccessEvent.handler ≤ u.place.rank ∧
      (e = .interrupt → u'.place.rank ≤ 3) := by
  cases h with
  | enters hoff hplace hkept =>
      refine .inr ⟨hkept.waits hw, ?_, fun _ => ?_⟩
      · simp [hoff, hplace, Place.rank, AccessEvent.handler]
      · simp [hplace, Place.rank]
  | accesses h =>
      cases h with
      | delivers hat hplace hrxne hloaded hdelivered =>
          left
          rw [hdelivered, hw.bytes]
      | discards hat =>
          -- A careful handler does not come here while a byte waits.
          have hr := hc rfl hat
          rw [hw.rxne] at hr
          cases hr
      | passes hat hkept hplace hrank =>
          have hlt := hrank hw.rxne
          refine .inr ⟨hkept.waits hw, ?_, nofun⟩
          simpa [AccessEvent.handler] using hlt
  | loads b hempty =>
      rw [hw.rxne] at hempty
      cases hempty
  | passes _ hkept hplace he =>
      refine .inr ⟨hkept.waits hw, ?_, fun heq => ?_⟩
      · simp [hplace, he]
      · rw [heq] at he
        cases he

theorem run_grows (hhal : ∀ s, (halUartIrqHandler s).rxne = s.rxne) (hport : p.rxneie = true)
    {t : Receiver} {events : List AccessEvent}
    (h : run (rxStep halUartIrqHandler p) u events = some t) : u.delivered <+: t.delivered :=
  run_invariant (rxStep halUartIrqHandler p) (fun v => u.delivered <+: v.delivered)
    (fun _ _ _ hv hs => hv.trans (rxStep_moves hhal hport hs).grows) List.prefix_rfl h

theorem run_waits (hhal : ∀ s, (halUartIrqHandler s).rxne = s.rxne) (hport : p.rxneie = true)
    {t : Receiver} {events : List AccessEvent} {bytes : List UInt8} (hw : Waits bytes u)
    (hc : Along (rxStep halUartIrqHandler p) Careful u events)
    (h : run (rxStep halUartIrqHandler p) u events = some t) :
    bytes <+: t.delivered ∨ Waits bytes t ∧
      t.place.rank + events.countP AccessEvent.handler ≤ u.place.rank ∧
      (.interrupt ∈ events → t.place.rank ≤ 3) := by
  induction events generalizing u with
  | nil =>
      simp only [run, Option.some.injEq] at h
      subst h
      exact .inr ⟨hw, by simp, by simp⟩
  | cons e events ih =>
      rcases run_cons_some _ h with ⟨v, hs, hr⟩
      -- Once the byte is delivered it stays so; until then the distances add up.
      rcases (rxStep_moves hhal hport hs).waits hc.1 hw with hd | ⟨hv, hrank, hint⟩
      · exact .inl (hd.trans (run_grows hhal hport hr))
      · rcases ih hv (hc.2 v hs) hr with hd | ⟨ht, hrank', hint'⟩
        · exact .inl hd
        · have hcount : (e :: events).countP AccessEvent.handler =
              [e].countP AccessEvent.handler + events.countP AccessEvent.handler := by
            rw [← List.countP_append, List.singleton_append]
          refine .inr ⟨ht, by omega, fun hmem => ?_⟩
          rcases List.mem_cons.mp hmem with heq | hmem
          · have := hint heq.symm
            omega
          · exact hint' hmem

/-- Whatever was loaded at a point `u` of a careful run has been delivered at a later one,
    or else it still waits and the handler is that much closer. -/
theorem delivered_or_waits (hhal : ∀ s, (halUartIrqHandler s).rxne = s.rxne)
    (hport : p.rxneie = true) {s t : Receiver} {as bs : List AccessEvent} (hs : Tidy s)
    (ha : Accounts s) (hc : Along (rxStep halUartIrqHandler p) Careful s (as ++ bs))
    (hu : run (rxStep halUartIrqHandler p) s as = some u)
    (ht : run (rxStep halUartIrqHandler p) u bs = some t) :
    u.loaded <+: t.delivered ∨ t.place.rank + bs.countP AccessEvent.handler ≤ 34 ∧
      (.interrupt ∈ bs → t.place.rank ≤ 3) := by
  rcases (along_append _ hu bs).mp hc with ⟨hcas, hcbs⟩
  have hinv : Tidy u ∧ Accounts u :=
    run_invariant_along (rxStep halUartIrqHandler p) Careful (fun v => Tidy v ∧ Accounts v)
      (fun v e v' hv hce hstep =>
        have hmove := rxStep_moves hhal hport hstep
        ⟨hmove.tidy hv.1, hmove.accounts hv.1 hce hv.2⟩) ⟨hs, ha⟩ hcas hu
  -- With nothing in the register everything has been delivered already.
  cases hr : u.status.rxne with
  | false =>
      rw [← (accounts_empty hr).mp hinv.2]
      exact .inl (run_grows hhal hport ht)
  | true =>
      have hw : Waits u.loaded u := ⟨hr, (accounts_full hr).mp hinv.2⟩
      have hnear := hinv.1.near
      rcases run_waits hhal hport hw hcbs ht with hd | ⟨-, hrank, hint⟩
      · exact .inl hd
      · exact .inr ⟨by omega, hint⟩

/-- For every port that receives by interrupt, every state of the status register at the
    start and every order of accesses and arrivals: every byte is delivered exactly if
    the handler is careful at each of its accesses. `HAL_UART_IRQHandler` reads the
    data register only for a reception that the HAL was asked for. -/
theorem delivers_iff (hhal : ∀ s, (halUartIrqHandler s).rxne = s.rxne)
    (hport : p.rxneie = true) {s t : Receiver} {events : List AccessEvent}
    (hoff : s.place = .off) (ha : Accounts s)
    (h : run (rxStep halUartIrqHandler p) s events = some t) :
    Delivers halUartIrqHandler p s events ↔
      Along (rxStep halUartIrqHandler p) Careful s events := by
  have htidy : Tidy s := ⟨by simp [hoff], by simp [hoff, Place.rank]⟩
  have hiff := along_iff_always (rxStep halUartIrqHandler p) (E := fun _ _ => True)
    (fun _ _ _ hu _ hs => (rxStep_moves hhal hport hs).tidy hu)
    (fun _ _ _ hu ha _ hc hs => (rxStep_moves hhal hport hs).accounts hu hc ha)
    (fun _ _ _ _ ha _ hc hs => (rxStep_moves hhal hport hs).drops hc ha) htidy ha
    (along_of_forall _ s fun _ _ => trivial) h
  -- The accounts alone force the handler to be careful, and a careful one is prompt.
  refine ⟨fun hd => hiff.mpr hd.accounts, fun hc => ?_⟩
  refine ⟨hiff.mp hc, ?_, ?_⟩
  · rintro as bs u v rfl hu hv hint hoff'
    rcases delivered_or_waits hhal hport htidy ha hc hu hv with hd | ⟨-, hrank⟩
    · exact hd
    · -- A byte that still waits would keep the handler from coming to its end.
      have hlow := hrank hint
      simp [hoff', Place.rank] at hlow
  · rintro as bs u v rfl hu hv hcount
    rcases delivered_or_waits hhal hport htidy ha hc hu hv with hd | ⟨hrank, -⟩
    · exact hd
    · have hpos := v.place.rank_pos
      omega

end Proofs

/-- A byte arrives and the handler reads it; a second one arrives before the handler
    has returned and is read in the same run of it. -/
def twoBytes : List AccessEvent :=
  [.arrive 0x41, .interrupt, .isr, .isr, .isr, .arrive 0x42, .isr, .isr, .isr]

theorem delivers_twoBytes :
    (run (rxStep id console) {} twoBytes).map (fun t => (t.delivered, t.place)) =
      some ([0x41, 0x42], .off) ∧ Delivers id console {} twoBytes := by
  have hrun : (run (rxStep id console) {} twoBytes).map (fun t => (t.delivered, t.place)) =
      some ([0x41, 0x42], .off) := by decide
  rcases Option.map_eq_some_iff.mp hrun with ⟨t, ht, -⟩
  have ha : Accounts {} := rfl
  exact ⟨hrun, (delivers_iff (fun _ => rfl) rfl rfl ha ht).mpr (by decide)⟩

/-- The handler is entered for an overrun whose byte was read in time, and a byte arrives
    between the two reads that clear the flag. -/
def behindOverrun : List AccessEvent :=
  [.interrupt, .isr, .isr, .isr, .isr, .isr, .arrive 0x41, .isr]

/-- The byte is read, RXNE is clear again, and `stm32_getc` was never called. -/
theorem not_delivers_behind_overrun : ∃ t,
    run (rxStep id console) { status := { ore := true } } behindOverrun = some t ∧
      t.loaded = [0x41] ∧ t.delivered = [] ∧ t.status.rxne = false ∧
      ¬ Delivers id console { status := { ore := true } } behindOverrun := by
  have hrun : (run (rxStep id console) { status := { ore := true } } behindOverrun).map
      (fun t => (t.loaded, t.delivered, t.status.rxne)) = some ([0x41], [], false) := by decide
  rcases Option.map_eq_some_iff.mp hrun with ⟨t, ht, hsum⟩
  simp only [Prod.mk.injEq] at hsum
  refine ⟨t, ht, hsum.1, hsum.2.1, hsum.2.2, fun hd => ?_⟩
  have ha : Accounts t := always_last _ hd.accounts ht
  rw [accounts_empty hsum.2.2, hsum.1, hsum.2.1] at ha
  cases ha

end Uart

end Firmware
