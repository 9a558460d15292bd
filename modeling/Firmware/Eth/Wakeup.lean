import Firmware.Eth.Frames

/-!
# Waking the Receive Thread

The receive interrupt, the thread `erx` that it wakes and the thread `etx` that
shares a lock with it, from `drivers/test_eth.c` and `ethernetif.c`.

A complete frame raises the interrupt. Its handler posts a message to the mailbox
of `erx`, and `erx` takes a message and calls `rt_stm32_eth_rx` until that returns
`NULL`, which is meant to say that the ring is empty. But the function also returns
`NULL` if it finds `EthHandle.Lock` held, and `etx` holds it while it hands a frame
over. A message that is taken at such a moment is spent for nothing: the frame stays
in the ring, and nothing calls for it until another one arrives. The transmit path
is written with the same lock in mind and waits for it.

`Heard` is the condition under which this does not happen. A call may find the lock
held, but not with a complete frame in the ring, the mailbox empty and no interrupt
on its way. `run_heard` says that it is enough, and `stranded_of_unheard` that a
call which breaks it does strand a frame.

The processor has one core. The handler is not interrupted by a thread, while the
DMA goes on during all of this. The handler takes two steps, since a frame that
completes between the message and the clearing of the flag raises no interrupt of
its own. Testing and setting the lock are two steps as well.

## Main definitions

* `Station`: The receiver, the lock, the interrupt and the two threads.
* `erxTurn`: A step of the receive thread.
* `etxTurn`: A step of the transmit thread.
* `stationStep`: One step of the whole.
* `Quiet`: Nothing is going on that would look for a frame.
* `Stranded`: A complete frame is in descriptors of the driver.
* `Heard`: A call that gives up because of the lock misses nothing.

## Theorems

* `awake_step`: A thread that waits has missed nothing.
* `run_heard`: If every call is heard, no frame is stranded.
* `stranded_of_unheard`: A call that is not heard strands a frame.
* `not_quiet_clean`: Such a call can be made.
-/

namespace Firmware

namespace Eth

/-- `RT_LWIP_ETHTHREAD_MBOX_SIZE` -/
def mboxSize : Nat := 8

/-- Where `erx` is: in `rt_mb_recv`, in `__HAL_LOCK` of a call of `rt_stm32_eth_rx`
    before the test or before the lock is set, or behind it. -/
inductive ErxPc
  | waiting
  | test
  | set
  | inside
  deriving DecidableEq

/-- Where `etx` is: without a frame to hand over, in the loop that waits for the
    lock, in `__HAL_LOCK` of `HAL_ETH_TransmitFrame`, or behind it. -/
inductive EtxPc
  | idle
  | spin
  | test
  | set
  | inside
  deriving DecidableEq

/-- The receiver, `EthHandle.Lock`, the receive flag of the DMA, whether the handler
    has posted its message, the number of messages, and the two threads. -/
structure Station (N B : Nat) where
  rx : Receiver N B
  lock : Bool
  flag : Bool
  posted : Bool
  mail : Nat
  erx : ErxPc
  etx : EtxPc

variable {N B : Nat}

/-- The next step of `rt_stm32_eth_rx`, with the chain that `pbuf_alloc` returns. -/
def Receiver.turn (r : Receiver N B) (chain : List Nat) : RxEvent :=
  match r.pc with
  | .idle => .call
  | .scan _ => .scan
  | .alloc => .alloc (some chain)
  | .copy _ _ _ => .copy
  | .release _ _ _ => .release

namespace Station

/-- `erx` after a step of `rt_stm32_eth_rx` behind the lock. The end of the scan
    unlocks. A call that returns a frame is followed by another one. -/
def afterRx (s : Station N B) (rx : Receiver N B) : Station N B :=
  match s.rx.pc, rx.pc with
  | .scan _, .scan _ => { s with rx := rx }
  | .scan _, .idle => { s with rx := rx, lock := false, erx := .waiting }
  | .scan _, _ => { s with rx := rx, lock := false }
  | .release _ _ (.returned _), .idle => { s with rx := rx, erx := .test }
  | .release _ _ _, .idle => { s with rx := rx, erx := .waiting }
  | _, _ => { s with rx := rx }

/-- A step of `erx`. With the lock held, `rt_stm32_eth_rx` returns `NULL` and the
    thread goes back to the mailbox. -/
def erxTurn [NeZero B] (s : Station N B) (chain : List Nat) : Option (Station N B) :=
  match s.erx with
  | .waiting => if 0 < s.mail then some { s with mail := s.mail - 1, erx := .test } else none
  | .test => if s.lock then some { s with erx := .waiting } else some { s with erx := .set }
  | .set => (rxStep s.rx .call).map fun rx => { s with rx := rx, lock := true, erx := .inside }
  | .inside => (rxStep s.rx (s.rx.turn chain)).map s.afterRx

/-- A step of `etx`. -/
def etxTurn (s : Station N B) : Station N B :=
  match s.etx with
  | .idle => { s with etx := .spin }
  | .spin => if s.lock then s else { s with etx := .test }
  | .test => if s.lock then { s with etx := .idle } else { s with etx := .set }
  | .set => { s with lock := true, etx := .inside }
  | .inside => { s with lock := false, etx := .idle }

end Station

/-- What can happen: a frame starts to come in, the DMA fills a descriptor, the
    handler of a receive interrupt posts its message or ends, the handler of a
    transmit interrupt runs, or one of the threads takes a step. -/
inductive Event
  | frame (data : List UInt8)
  | fill
  | irqPost
  | irqDone
  | irqTransmit
  | erx (chain : List Nat)
  | etx

/-- The station after an event, if the event can happen. -/
def stationStep [NeZero B] (s : Station N B) : Event → Option (Station N B)
  | .frame data => (rxStep s.rx (.frame data)).map fun rx => { s with rx := rx }
  | .fill => (rxStep s.rx .fill).map fun rx =>
      { s with
        rx := rx
        flag := s.flag || decide (s.rx.received.length < rx.received.length) }
  -- A message for a full mailbox is dropped.
  | .irqPost =>
      if s.flag ∧ s.posted = false then
        some { s with mail := if s.mail < mboxSize then s.mail + 1 else s.mail, posted := true }
      else none
  | .irqDone =>
      if s.posted then some { s with flag := false, lock := false, posted := false } else none
  | .irqTransmit =>
      if s.flag = false ∧ s.posted = false then some { s with lock := false } else none
  -- No thread runs before the handler has ended.
  | .erx chain => if s.posted then none else s.erxTurn chain
  | .etx => if s.posted then none else some s.etxTurn

/-- The station after the start-up, with both threads waiting. -/
def bootStation [NeZero N] (r : Receiver N B) : Station N B :=
  { rx := halEthDmaRxDescListInit r
    lock := false
    flag := false
    posted := false
    mail := 0
    erx := .waiting
    etx := .idle }

/-- `erx` waits for a message and there is none, no receive interrupt is pending and
    no frame is being sent. -/
structure Quiet (s : Station N B) : Prop where
  mail : s.mail = 0
  erx : s.erx = .waiting
  flag : s.flag = false
  posted : s.posted = false
  etx : s.etx = .idle

/-- A frame is complete, has not been returned and lies in descriptors that are the
    driver's. -/
structure Stranded (s : Station N B) (f : Frame N) : Prop where
  unread : f ∈ s.rx.received.drop s.rx.outcomes.length
  held : ∀ d ∈ f.descs, (s.rx.desc d).own = false

/-- There is no frame to look for, or something will look for it. -/
def Alert (s : Station N B) : Prop :=
  s.rx.outcomes.length = s.rx.received.length ∨ 0 < s.mail ∨ s.flag = true

/-- A call that finds the lock held does so while nothing is missed, and no frame is
    so long that the descriptor shows it as a bare checksum. -/
def Heard (s : Station N B) : Event → Prop
  | .frame data => data.length % 2 ^ 14 ≠ 4
  | .erx _ => s.erx = .test → s.lock = true → Alert s
  | _ => True

instance (s : Station N B) : Decidable (Alert s) :=
  inferInstanceAs (Decidable (_ ∨ _ ∨ _))

instance (s : Station N B) : (e : Event) → Decidable (Heard s e)
  | .frame data => inferInstanceAs (Decidable (data.length % 2 ^ 14 ≠ 4))
  | .erx _ => inferInstanceAs (Decidable (s.erx = .test → s.lock = true → Alert s))
  | .fill | .irqPost | .irqDone | .irqTransmit | .etx => isTrue trivial

section Invariant

variable [NeZero N] [NeZero B] {s : Station N B}

/-- The invariant of the station. A thread that waits has missed nothing. -/
structure StationInv (s : Station N B) : Prop where
  rx : RxInv s.rx
  shown : ∀ f ∈ s.rx.frames, f.data.length % 2 ^ 14 ≠ 4
  awake : s.erx = .waiting → Alert s
  posted : s.posted = true → 0 < s.mail
  inside : s.erx = .inside ↔ s.rx.pc ≠ .idle
  returns : ∀ d i p, s.rx.pc = .release d i p → ∃ chain, p = .returned chain
  lock : s.lock = true → s.etx = .inside ∨ ∃ c, s.rx.pc = .scan c

/-- The frames stay ones that show, if a new one does. -/
theorem StationInv.shown_step (h : StationInv s) {e : RxEvent} {rx : Receiver N B}
    (hs : rxStep s.rx e = some rx) (hnew : ∀ data, e = .frame data → data.length % 2 ^ 14 ≠ 4) :
    ∀ f ∈ rx.frames, f.data.length % 2 ^ 14 ≠ 4 := by
  intro g hg
  rcases frames_step hs g hg with ⟨f, hf, heq⟩ | heq
  · rw [heq]
    exact h.shown f hf
  · exact hnew g.data heq

omit [NeZero B] in
/-- The receiver is at rest while its thread is elsewhere. -/
theorem StationInv.idle_of_outside (h : StationInv s) (hout : s.erx ≠ .inside) :
    s.rx.pc = .idle := by
  by_contra hc
  exact hout (h.inside.mpr hc)

/-- A new frame is not complete yet. -/
theorem StationInv.frame (h : StationInv s) {data : List UInt8} (hdata : data.length % 2 ^ 14 ≠ 4)
    {rx : Receiver N B} (hs : rxStep s.rx (.frame data) = some rx) :
    StationInv { s with rx := rx } := by
  have hinv := inv_step h.rx hs
  have hshown := h.shown_step hs fun data' heq => by
    rw [RxEvent.frame.injEq] at heq
    rw [← heq]
    exact hdata
  -- The ring is as it was, but for the frame that is on its way.
  cases rxStep_cases hs with
  | frame _ _ _ => exact ⟨hinv, hshown, h.awake, h.posted, h.inside, h.returns, h.lock⟩

/-- A frame that becomes complete raises the interrupt. -/
theorem StationInv.fill (h : StationInv s) {rx : Receiver N B}
    (hs : rxStep s.rx .fill = some rx) :
    StationInv { s with
      rx := rx
      flag := s.flag || decide (s.rx.received.length < rx.received.length) } := by
  have hinv := inv_step h.rx hs
  have hshown := h.shown_step hs nofun
  cases rxStep_cases hs with
  | @fill f _ _ =>
      refine ⟨hinv, hshown, ?_, h.posted, h.inside, h.returns, h.lock⟩
      intro hwait
      have hawake := h.awake hwait
      simp only [Alert, Bool.or_eq_true, decide_eq_true_eq] at hawake ⊢
      have hle : s.rx.received.length ≤ (s.rx.toRxRing.fill f).received.length := by
        rcases received_fill s.rx.toRxRing f with ⟨heq, -⟩ | ⟨heq, -⟩
        · rw [heq]
        · rw [heq, List.length_append]
          exact Nat.le_add_right _ _
      -- Either everything had been taken, and then the new frame raises the flag itself.
      rcases hawake with hall | hmail | hflag
      · by_cases hgrew : s.rx.received.length < (s.rx.toRxRing.fill f).received.length
        · exact .inr (.inr (.inr hgrew))
        · exact .inl (by omega)
      · exact .inr (.inl hmail)
      · exact .inr (.inr (.inl hflag))

omit [NeZero B] in
/-- A frame that was found is not empty. -/
theorem Found.length_pos {r : Receiver N B} {f : Frame N} (h : Found r f)
    (hf : f.data.length % 2 ^ 14 ≠ 4) : 0 < r.length % 2 ^ 16 := by
  rw [h.length]
  omega

omit [NeZero N] [NeZero B] in
/-- What a call does behind the lock starts no frame. -/
theorem turn_ne_frame (r : Receiver N B) (chain : List Nat) (data : List UInt8) :
    r.turn chain ≠ .frame data := by
  unfold Receiver.turn
  intro h
  cases hc : r.pc <;> rw [hc] at h <;> cases h

/-- The scan goes on, finds a frame or gives up. It gives up only on a ring without a
    complete frame. -/
theorem StationInv.scan (h : StationInv s) {c : Nat} (hpc : s.rx.pc = .scan c)
    (hinv : RxInv (s.rx.scanTurn c)) (hshown : ∀ f ∈ (s.rx.scanTurn c).frames,
      f.data.length % 2 ^ 14 ≠ 4) : StationInv (s.afterRx (s.rx.scanTurn c)) := by
  have hin : s.erx = .inside := h.inside.mpr (by rw [hpc]; exact nofun)
  rcases scanTurn_pc s.rx c with hnext | hnext | ⟨hnext, hexit⟩
  · -- The scan goes on, with the lock held.
    have hafter : s.afterRx (s.rx.scanTurn c) = { s with rx := s.rx.scanTurn c } := by
      simp only [Station.afterRx, hpc, hnext]
    rw [hafter]
    refine ⟨hinv, hshown, ?_, h.posted, ?_, ?_, fun _ => .inr ⟨c + 1, hnext⟩⟩
    · intro hwait
      rw [hin] at hwait
      cases hwait
    · refine ⟨fun _ => ?_, fun _ => hin⟩
      rw [hnext]
      exact nofun
    · intro d i p hrel
      rw [hnext] at hrel
      cases hrel
  · -- A frame is found, and the rest of the call runs unlocked.
    have hafter : s.afterRx (s.rx.scanTurn c) =
        { s with rx := s.rx.scanTurn c, lock := false } := by
      simp only [Station.afterRx, hpc, hnext]
    rw [hafter]
    refine ⟨hinv, hshown, ?_, h.posted, ?_, ?_, fun hc => absurd hc Bool.false_ne_true⟩
    · intro hwait
      rw [hin] at hwait
      cases hwait
    · refine ⟨fun _ => ?_, fun _ => hin⟩
      rw [hnext]
      exact nofun
    · intro d i p hrel
      rw [hnext] at hrel
      cases hrel
  · have hafter : s.afterRx (s.rx.scanTurn c) =
        { s with rx := s.rx.scanTurn c, lock := false, erx := .waiting } := by
      simp only [Station.afterRx, hpc, hnext]
    rw [hafter]
    refine ⟨hinv, hshown, ?_, h.posted, ?_, ?_, fun hc => absurd hc Bool.false_ne_true⟩
    · -- Everything that is complete has been returned.
      intro _
      refine .inl ?_
      rw [scanTurn_outcomes, scanTurn_ring]
      exact h.rx.complete hpc hexit
    · exact ⟨nofun, fun hc => absurd hnext hc⟩
    · intro d i p hrel
      rw [hnext] at hrel
      cases hrel

omit [NeZero B] in
/-- A step between the scan and the return leaves the thread behind the lock. -/
theorem StationInv.go_on (h : StationInv s) (hin : s.erx = .inside) {rx : Receiver N B}
    (hinv : RxInv rx) (hshown : ∀ f ∈ rx.frames, f.data.length % 2 ^ 14 ≠ 4)
    (hscan : ∀ c, s.rx.pc ≠ .scan c) (hpc : rx.pc ≠ .idle)
    (hreturns : ∀ d i p, rx.pc = .release d i p → ∃ chain, p = .returned chain) :
    StationInv { s with rx := rx } := by
  refine ⟨hinv, hshown, ?_, h.posted, ⟨fun _ => hpc, fun _ => hin⟩, hreturns, ?_⟩
  · intro hwait
    rw [hin] at hwait
    cases hwait
  · intro hlock
    rcases h.lock hlock with hetx | ⟨c, hc⟩
    · exact .inl hetx
    · exact absurd hc (hscan c)

/-- A step of `rt_stm32_eth_rx` behind the lock. A call that has found a frame
    returns it. -/
theorem StationInv.inside_step (h : StationInv s) (hin : s.erx = .inside) {chain : List Nat}
    {rx : Receiver N B} (hs : rxStep s.rx (s.rx.turn chain) = some rx) :
    StationInv (s.afterRx rx) := by
  have hinv := inv_step h.rx hs
  have hshown := h.shown_step hs fun data heq => absurd heq (turn_ne_frame s.rx chain data)
  cases hpc : s.rx.pc with
  | idle => exact absurd hpc (h.inside.mp hin)
  | scan c =>
      simp only [Receiver.turn, hpc, rxStep, Option.some.injEq] at hs
      rw [← hs] at hinv hshown ⊢
      exact h.scan hpc hinv hshown
  | alloc =>
      -- The chain is there and not empty, so the copy starts.
      simp only [Receiver.turn, hpc, rxStep] at hs
      have hphase := h.rx.phase
      simp only [Phase, hpc] at hphase
      rcases hphase with ⟨-, f, hfound⟩
      have hpos := hfound.length_pos
        (h.shown f (List.mem_of_getElem? (RxRing.frames_of_received hfound.frame)))
      rcases onAlloc_cases hs with ⟨pbufs, -, -, -, rfl⟩ | ⟨hnone, -, -⟩ | ⟨hzero, -⟩
      · have hafter : ∀ w, s.afterRx { s.rx with pc := .copy w pbufs [] } =
            { s with rx := { s.rx with pc := .copy w pbufs [] } } := by
          intro w
          simp only [Station.afterRx, hpc]
        rw [hafter]
        refine h.go_on hin hinv hshown (fun c hc => ?_) (by simp) (by simp)
        rw [hpc] at hc
        cases hc
      · cases hnone
      · omega
  | copy w pbufs filled =>
      simp only [Receiver.turn, hpc, rxStep, Option.some.injEq] at hs
      have hafter : s.afterRx rx = { s with rx := rx } := by
        simp only [Station.afterRx, hpc]
      rw [hafter]
      refine h.go_on hin hinv hshown (fun c hc => ?_) ?_ ?_
      · rw [hpc] at hc
        cases hc
      · rw [← hs]
        cases pbufs <;> simp [Receiver.copyTurn]
      · intro d i p hrel
        rw [← hs] at hrel
        cases pbufs with
        | nil =>
            simp only [Receiver.copyTurn, RxPc.release.injEq] at hrel
            exact ⟨filled, hrel.2.2.symm⟩
        | cons len pbufs => cases hrel
  | release d i p =>
      simp only [Receiver.turn, hpc, rxStep, Option.some.injEq] at hs
      rcases h.returns d i p hpc with ⟨filled, rfl⟩
      by_cases hlt : i < s.rx.segCount
      · rw [Receiver.releaseTurn, if_pos hlt] at hs
        have hafter : s.afterRx rx = { s with rx := rx } := by
          rw [← hs]
          simp only [Station.afterRx, hpc]
        rw [hafter]
        refine h.go_on hin hinv hshown (fun c hc => ?_) ?_ ?_
        · rw [hpc] at hc
          cases hc
        · rw [← hs]
          simp
        · intro d' i' p' hrel
          rw [← hs] at hrel
          simp only [RxPc.release.injEq] at hrel
          exact ⟨filled, hrel.2.2.symm⟩
      · -- The frame is returned and the next call follows.
        rw [Receiver.releaseTurn, if_neg hlt] at hs
        have hafter : s.afterRx rx = { s with rx := rx, erx := .test } := by
          rw [← hs]
          simp only [Station.afterRx, hpc]
        rw [hafter]
        refine ⟨hinv, hshown, by simp, h.posted, ?_, ?_, ?_⟩
        · refine ⟨by simp, fun hc => ?_⟩
          rw [← hs] at hc
          exact absurd rfl hc
        · intro d' i' p' hrel
          rw [← hs] at hrel
          cases hrel
        · intro hlock
          rcases h.lock hlock with hetx | ⟨c, hc⟩
          · exact .inl hetx
          · rw [hpc] at hc
            cases hc

/-- A step of the receive thread. -/
theorem StationInv.erx_step (h : StationInv s) {chain : List Nat} {s' : Station N B}
    (hheard : s.erx = .test → s.lock = true → Alert s) (hs : s.erxTurn chain = some s')
    (hposted : s.posted = false) : StationInv s' := by
  have hquiet : s.posted = true → 0 < s'.mail := fun hc => absurd (hposted.symm.trans hc)
    Bool.false_ne_true
  cases herx : s.erx with
  | waiting =>
      simp only [Station.erxTurn, herx] at hs
      -- A message is taken out, and with it the thread begins to look.
      by_cases hmail : 0 < s.mail
      · rw [if_pos hmail, Option.some.injEq] at hs
        rw [← hs] at hquiet ⊢
        refine ⟨h.rx, h.shown, by simp, hquiet, ⟨by simp, fun hc => ?_⟩, h.returns, h.lock⟩
        have hin := h.inside.mpr hc
        rw [herx] at hin
        cases hin
      · rw [if_neg hmail] at hs
        cases hs
  | test =>
      have hidle : s.rx.pc = .idle := h.idle_of_outside (by simp [herx])
      simp only [Station.erxTurn, herx] at hs
      by_cases hlock : s.lock = true
      · -- The call gives up, which is the moment the condition is about.
        rw [if_pos hlock, Option.some.injEq] at hs
        rw [← hs]
        exact ⟨h.rx, h.shown, fun _ => hheard herx hlock, h.posted,
          ⟨by simp, fun hc => absurd hidle hc⟩, h.returns, h.lock⟩
      · -- Between test and set the lock is not taken yet, and the transmit thread may test it
        -- too.
        rw [if_neg hlock, Option.some.injEq] at hs
        rw [← hs]
        exact ⟨h.rx, h.shown, by simp, h.posted, ⟨by simp, fun hc => absurd hidle hc⟩, h.returns,
          h.lock⟩
  | set =>
      simp only [Station.erxTurn, herx] at hs
      rcases Option.map_eq_some_iff.mp hs with ⟨rx, hrx, rfl⟩
      have hinv := inv_step h.rx hrx
      cases rxStep_cases hrx with
      | call _ =>
          exact ⟨hinv, h.shown, by simp, h.posted, ⟨fun _ => by simp, fun _ => rfl⟩, by simp,
            fun _ => .inr ⟨0, rfl⟩⟩
  | inside =>
      simp only [Station.erxTurn, herx] at hs
      rcases Option.map_eq_some_iff.mp hs with ⟨rx, hrx, rfl⟩
      exact h.inside_step herx hrx

omit [NeZero B] in
/-- A step of the transmit thread. -/
theorem StationInv.etx_step (h : StationInv s) : StationInv s.etxTurn := by
  -- Only the lock and the thread's own place change.
  cases hetx : s.etx with
  | idle =>
      simp only [Station.etxTurn, hetx]
      refine ⟨h.rx, h.shown, h.awake, h.posted, h.inside, h.returns, fun hlock => ?_⟩
      rcases h.lock hlock with hc | hscan
      · rw [hetx] at hc
        cases hc
      · exact .inr hscan
  | spin =>
      simp only [Station.etxTurn, hetx]
      by_cases hlock : s.lock = true
      · rw [if_pos hlock]
        exact h
      · rw [if_neg hlock]
        exact ⟨h.rx, h.shown, h.awake, h.posted, h.inside, h.returns,
          fun hc => absurd hc hlock⟩
  | test =>
      simp only [Station.etxTurn, hetx]
      by_cases hlock : s.lock = true
      · rw [if_pos hlock]
        refine ⟨h.rx, h.shown, h.awake, h.posted, h.inside, h.returns, fun _ => ?_⟩
        rcases h.lock hlock with hc | hscan
        · rw [hetx] at hc
          cases hc
        · exact .inr hscan
      · rw [if_neg hlock]
        exact ⟨h.rx, h.shown, h.awake, h.posted, h.inside, h.returns,
          fun hc => absurd hc hlock⟩
  | set =>
      simp only [Station.etxTurn, hetx]
      exact ⟨h.rx, h.shown, h.awake, h.posted, h.inside, h.returns, fun _ => .inl rfl⟩
  | inside =>
      simp only [Station.etxTurn, hetx]
      exact ⟨h.rx, h.shown, h.awake, h.posted, h.inside, h.returns,
        fun hc => absurd hc Bool.false_ne_true⟩

/-- Every step that is heard keeps the invariant. -/
theorem awake_step {s' : Station N B} {e : Event} (h : StationInv s) (hheard : Heard s e)
    (hs : stationStep s e = some s') : StationInv s' := by
  cases e with
  | frame data =>
      rcases Option.map_eq_some_iff.mp hs with ⟨rx, hrx, rfl⟩
      exact h.frame hheard hrx
  | fill =>
      rcases Option.map_eq_some_iff.mp hs with ⟨rx, hrx, rfl⟩
      exact h.fill hrx
  | irqPost =>
      rw [stationStep] at hs
      by_cases hok : s.flag ∧ s.posted = false
      · rw [if_pos hok, Option.some.injEq] at hs
        -- A mailbox that is full has a message as well.
        have hmail : 0 < if s.mail < mboxSize then s.mail + 1 else s.mail := by
          rw [mboxSize]
          split_ifs <;> omega
        rw [← hs]
        exact ⟨h.rx, h.shown, fun _ => .inr (.inl hmail), fun _ => hmail, h.inside, h.returns,
          h.lock⟩
      · rw [if_neg hok] at hs
        cases hs
  | irqDone =>
      rw [stationStep] at hs
      by_cases hok : s.posted = true
      · rw [if_pos hok, Option.some.injEq] at hs
        rw [← hs]
        -- The handler clears the flag, but its message is in the mailbox.
        exact ⟨h.rx, h.shown, fun _ => .inr (.inl (h.posted hok)),
          fun hc => absurd hc Bool.false_ne_true, h.inside, h.returns,
          fun hc => absurd hc Bool.false_ne_true⟩
      · rw [if_neg hok] at hs
        cases hs
  | irqTransmit =>
      rw [stationStep] at hs
      by_cases hok : s.flag = false ∧ s.posted = false
      · rw [if_pos hok, Option.some.injEq] at hs
        rw [← hs]
        exact ⟨h.rx, h.shown, h.awake, h.posted, h.inside, h.returns,
          fun hc => absurd hc Bool.false_ne_true⟩
      · rw [if_neg hok] at hs
        cases hs
  | erx chain =>
      rw [stationStep] at hs
      by_cases hposted : s.posted = true
      · rw [if_pos hposted] at hs
        cases hs
      · rw [if_neg hposted] at hs
        exact h.erx_step hheard hs (Bool.eq_false_iff.mpr hposted)
  | etx =>
      rw [stationStep] at hs
      by_cases hposted : s.posted = true
      · rw [if_pos hposted] at hs
        cases hs
      · rw [if_neg hposted, Option.some.injEq] at hs
        rw [← hs]
        exact h.etx_step

omit [NeZero B] in
theorem stationInv_boot (r : Receiver N B) : StationInv (bootStation r) := by
  refine ⟨inv_init r, ?_, fun _ => .inl rfl, nofun, ⟨nofun, fun hc => absurd rfl hc⟩, nofun, nofun⟩
  intro f hf
  exact absurd hf List.not_mem_nil

/-- If every call is heard, a quiet station has no stranded frame. -/
theorem run_heard {r : Receiver N B} {events : List Event}
    (hrun : run stationStep (bootStation r) events = some s)
    (hheard : Along stationStep Heard (bootStation r) events) (hquiet : Quiet s) :
    ∀ f, ¬ Stranded s f := by
  have h := run_invariant_along stationStep Heard StationInv
    (fun _ _ _ hI hG hs => awake_step hI hG hs) (stationInv_boot r) hheard hrun
  intro f hf
  -- A quiet station has neither a message nor a flag, so all frames have been returned.
  rcases h.awake hquiet.erx with hall | hmail | hflag
  · have hmem := hf.unread
    rw [hall, List.drop_length] at hmem
    exact absurd hmem List.not_mem_nil
  · have := hquiet.mail
    omega
  · rw [hquiet.flag] at hflag
    exact absurd hflag Bool.false_ne_true

omit [NeZero B] in
/-- Between two calls the descriptors of every unread frame are the driver's. -/
theorem RxInv.stranded {r : Receiver N B} (h : RxInv r) (hpc : r.pc = .idle) {f : Frame N}
    (hf : f ∈ r.received.drop r.outcomes.length) : ∀ d ∈ f.descs, (r.desc d).own = false := by
  intro d hd
  have hphase := h.phase
  simp only [Phase, hpc] at hphase
  have hcut : r.received.flatMap Frame.descs =
      (r.received.take r.outcomes.length).flatMap Frame.descs ++
        (r.received.drop r.outcomes.length).flatMap Frame.descs := by
    rw [← List.flatMap_append, List.take_append_drop]
  refine h.unread ?_
  rw [hphase.1, Receiver.base, start, hcut, List.drop_left]
  exact List.mem_flatMap_of_mem hf hd

/-- A call that is not heard strands a frame: nothing has to happen but that the
    transmit thread comes to its end. -/
theorem stranded_of_unheard {r : Receiver N B} {events : List Event}
    (hrun : run stationStep (bootStation r) events = some s)
    (hheard : Along stationStep Heard (bootStation r) events) (hposted : s.posted = false)
    {chain : List Nat} (hunheard : ¬ Heard s (.erx chain)) :
    ∃ t, run stationStep s [.erx chain, .etx] = some t ∧ Quiet t ∧ ∃ f, Stranded t f := by
  have h := run_invariant_along stationStep Heard StationInv
    (fun _ _ _ hI hG hs => awake_step hI hG hs) (stationInv_boot r) hheard hrun
  simp only [Heard, Alert, not_forall, not_or] at hunheard
  rcases hunheard with ⟨htest, hlock, hleft, hmail, hflag⟩
  -- The receive thread is about to give up on a lock that the transmit thread holds.
  have hidle : s.rx.pc = .idle := h.idle_of_outside (by rw [htest]; nofun)
  have hetx : s.etx = .inside := by
    rcases h.lock hlock with hetx | ⟨c, hc⟩
    · exact hetx
    · rw [hidle] at hc
      cases hc
  have hgive : stationStep s (.erx chain) = some { s with erx := .waiting } := by
    simp only [stationStep, Station.erxTurn, hposted, htest, hlock, if_true, Bool.false_eq_true,
      if_false]
  have hdone : stationStep { s with erx := .waiting } .etx =
      some { s with erx := .waiting, lock := false, etx := .idle } := by
    simp only [stationStep, Station.etxTurn, hposted, hetx, Bool.false_eq_true, if_false]
  -- Some frame is complete and not returned, and the first of these is the one that is stranded.
  have htaken := h.rx.taken
  have hlt : s.rx.outcomes.length < s.rx.received.length := by omega
  have hzero : s.mail = 0 := by omega
  refine ⟨{ s with erx := .waiting, lock := false, etx := .idle }, ?_,
    ⟨hzero, rfl, Bool.eq_false_iff.mpr hflag, hposted, rfl⟩,
    s.rx.received[s.rx.outcomes.length], ?_, ?_⟩
  · rw [run_cons stationStep hgive, run_cons stationStep hdone, run_nil]
  · simp only
    rw [List.drop_eq_getElem_cons hlt]
    exact List.mem_cons_self
  · refine h.rx.stranded hidle ?_
    rw [List.drop_eq_getElem_cons hlt]
    exact List.mem_cons_self

end Invariant

/-- A frame arrives, is announced and is fetched, and the thread looks once more. -/
def heardRun : List Event :=
  [.frame [1, 2, 3, 4, 5, 6], .fill, .irqPost, .irqDone, .erx [], .erx [], .erx [], .erx [],
    .erx [2], .erx [], .erx [], .erx [], .erx [], .erx [], .erx [], .erx []]

theorem run_heard_oneFrame :
    ∃ s, run stationStep (bootStation (blankRx 1 8)) heardRun = some s ∧ Quiet s ∧
      ∀ f, ¬ Stranded s f := by
  have hsum : (run stationStep (bootStation (blankRx 1 8)) heardRun).map (fun s =>
      (s.mail, s.erx, s.flag, s.posted, s.etx)) = some (0, .waiting, false, false, .idle) := rfl
  rcases Option.map_eq_some_iff.mp hsum with ⟨s, hs, heq⟩
  simp only [Prod.mk.injEq] at heq
  have hquiet : Quiet s := ⟨heq.1, heq.2.1, heq.2.2.1, heq.2.2.2.1, heq.2.2.2.2⟩
  exact ⟨s, hs, hquiet, run_heard hs (by decide) hquiet⟩

/-- The transmit thread takes the lock between the message and the call for it. -/
def unheardRun : List Event :=
  [.frame [1, 2, 3, 4, 5, 6], .fill, .irqPost, .irqDone, .etx, .etx, .etx, .etx, .erx [], .erx [],
    .etx]

theorem not_quiet_clean :
    ¬ ∀ (N B : Nat) [NeZero N] [NeZero B] (r : Receiver N B) (s : Station N B)
      (events : List Event), run stationStep (bootStation r) events = some s → Quiet s →
      ∀ f, ¬ Stranded s f := by
  intro h
  have hrun : (run stationStep (bootStation (blankRx 1 8)) unheardRun).map (fun s =>
      (s.mail, s.erx, s.flag, s.posted, s.etx)) = some (0, .waiting, false, false, .idle) := rfl
  rcases Option.map_eq_some_iff.mp hrun with ⟨s, hs, heq⟩
  simp only [Prod.mk.injEq] at heq
  have hring : (run stationStep (bootStation (blankRx 1 8)) unheardRun).map (fun s =>
      (s.rx.received.map Frame.descs, s.rx.outcomes.length, (s.rx.desc 0).own)) =
        some ([[0]], 0, false) := rfl
  rw [hs, Option.map_some, Option.some.injEq] at hring
  simp only [Prod.mk.injEq] at hring
  rcases hring with ⟨hreceived, hout, hown⟩
  rcases List.map_eq_singleton_iff.mp hreceived with ⟨f, hf, hdescs⟩
  refine h 1 8 (blankRx 1 8) s unheardRun hs
    ⟨heq.1, heq.2.1, heq.2.2.1, heq.2.2.2.1, heq.2.2.2.2⟩ f ⟨?_, ?_⟩
  · rw [hf, hout]
    exact List.mem_singleton_self f
  · intro d hd
    rw [hdescs, List.mem_singleton] at hd
    rw [hd]
    exact hown

end Eth

end Firmware
