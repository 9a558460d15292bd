import Firmware.Lib.Runs

/-!
# Reception by DMA

The accounting of the bytes a UART receives by DMA: `dma_isr` and the idle branch
of `uart_isr` from `drivers/drv_usart.c`, and the event through which both of
them tell `rt_hw_serial_isr` in `components/drivers/serial/serial.c` how many
bytes there are.

The DMA stores into a circular buffer of `b` bytes and counts down from `b`,
starting over at the wrap. A handler learns from the counter where the DMA stands
and takes the distance to where it stood the last time. The distance is an
unsigned difference. It is right as long as the DMA has not wrapped in between,
and it is right in `dma_isr`, which has a case for it, if the DMA stands exactly
at the wrap. One byte later, or in the idle branch already at the wrap, the
difference is negative; and `dma_isr` takes a DMA that has not moved from the
start of the buffer for one that went all the way around.

`along_timely_iff` says that the accounts are kept exactly as long as none of
this happens.

## Main definitions

* `DmaRx`: The DMA, the position of the handlers and what they have reported.
* `dmaIsr`: `dma_isr`.
* `idleIsr`: The idle branch of `uart_isr`.
* `Accounted`: What was reported is what was received.
* `Timely`: The handler runs before the DMA has gone too far.

## Theorems

* `dmaDoneLength_event`: A length survives the event that carries it.
* `step_placed`: The counter says where the DMA is.
* `along_timely_iff`: The accounts are kept exactly if every handler is timely.
* `not_accounted_behind_wrap`: One byte behind the wrap is one too many.
-/

namespace Firmware

namespace Uart

/-- `RT_SERIAL_EVENT_RX_DMADONE | (recv_len << 8)` -/
def dmaDoneEvent (recvLen : UInt32) : BitVec 32 := 0x03#32 ||| (recvLen.toBitVec <<< 8)

/-- `(event & (~0xff)) >> 8`, on a signed number. -/
def dmaDoneLength (event : BitVec 32) : Int := ((event &&& ~~~0xff#32).sshiftRight 8).toInt

/-- The receiving DMA stream and what the handlers make of it. -/
structure DmaRx where
  /-- `NDTR`, which counts down from the size of the buffer. -/
  counter : UInt32
  /-- The interrupt enable bits of the stream for its two halves. -/
  tcie : Bool := true
  htie : Bool := true
  /-- `dma_rx.last_index` -/
  lastIndex : UInt32 := 0
  /-- The bytes the DMA has stored so far. -/
  received : Nat := 0
  /-- Those it has stored since a handler looked. -/
  pending : Nat := 0
  /-- The lengths `rt_hw_serial_isr` was told. -/
  reported : List Int := []
  deriving DecidableEq, Repr

/-- The stream behind `HAL_UART_Receive_DMA` with a buffer of `b` bytes. -/
def DmaRx.start (b : UInt32) : DmaRx := { counter := b }

namespace DmaRx

variable (b : UInt32) (s : DmaRx)

/-- The DMA stores one byte. -/
def arrive : DmaRx :=
  { s with
    counter := if s.counter = 1 then b else s.counter - 1
    received := s.received + 1
    pending := s.pending + 1 }

/-- `serial->config.bufsz - __HAL_DMA_GET_COUNTER(..)` -/
def recvTotalIndex : UInt32 := b - s.counter

/-- The part the two handlers share: the position is kept and a length that is not
    zero is reported. -/
def account (recvLen : UInt32) : DmaRx :=
  { s with
    lastIndex := s.recvTotalIndex b
    pending := 0
    reported :=
      if recvLen ≠ 0 then s.reported ++ [dmaDoneLength (dmaDoneEvent recvLen)] else s.reported }

/-- `dma_isr`, which both halves of the buffer call. -/
def dmaIsr : DmaRx :=
  if s.tcie || s.htie then
    s.account b (if s.recvTotalIndex b = 0 then b - s.lastIndex
      else s.recvTotalIndex b - s.lastIndex)
  else s

/-- The idle branch of `uart_isr`. -/
def idleIsr : DmaRx := s.account b (s.recvTotalIndex b - s.lastIndex)

end DmaRx

/-- What can happen to the stream. -/
inductive RxEvent where
  | arrive
  | dmaIsr
  | idleIsr
  deriving DecidableEq, Repr

def dmaStep (b : UInt32) (s : DmaRx) : RxEvent → Option DmaRx
  | .arrive => some (s.arrive b)
  | .dmaIsr => some (s.dmaIsr b)
  | .idleIsr => some (s.idleIsr b)

/-- Fewer than `b` bytes arrive between two executions of a handler. -/
def Prompt (b : UInt32) (s : DmaRx) (e : RxEvent) : Prop :=
  e = .arrive → s.pending + 1 < b.toNat

/-- The lengths add up to what was there when a handler last looked, each of them
    is one, and the position is the one the DMA had then. -/
structure Accounted (b : UInt32) (s : DmaRx) : Prop where
  sum : s.reported.sum + s.pending = s.received
  range : ∀ n ∈ s.reported, 1 ≤ n ∧ n ≤ b.toNat - 1
  position : s.lastIndex.toNat = (s.received - s.pending) % b.toNat

/-- The idle branch runs before the DMA has come around, and `dma_isr` at the
    latest when it stands at the wrap, and not when it has not moved from there. -/
def Timely (b : UInt32) (s : DmaRx) : RxEvent → Prop
  | .arrive => True
  | .dmaIsr => 0 < s.lastIndex.toNat + s.pending ∧ s.lastIndex.toNat + s.pending ≤ b.toNat
  | .idleIsr => s.lastIndex.toNat + s.pending < b.toNat

instance (b : UInt32) (s : DmaRx) (e : RxEvent) : Decidable (Prompt b s e) :=
  inferInstanceAs (Decidable (_ → _))

instance (b : UInt32) (s : DmaRx) : (e : RxEvent) → Decidable (Timely b s e)
  | .arrive => isTrue trivial
  | .dmaIsr => inferInstanceAs (Decidable (_ ∧ _))
  | .idleIsr => inferInstanceAs (Decidable (_ < _))

/-- The counter says where the DMA is, whatever the handlers have reported. -/
structure Placed (b : UInt32) (s : DmaRx) : Prop where
  enabled : s.tcie = true
  counter : s.counter.toNat + s.received % b.toNat = b.toNat
  since : s.pending ≤ s.received
  last : s.lastIndex.toNat = (s.received - s.pending) % b.toNat
  few : s.pending < b.toNat

theorem getLsbD_small {v i : Nat} (hv : v < 2 ^ 8) (hi : 8 ≤ i) :
    (BitVec.ofNat 32 v).getLsbD i = false := by
  have hpow : 2 ^ 8 ≤ 2 ^ i := Nat.pow_le_pow_right (by omega) hi
  rw [BitVec.getLsbD_ofNat, Nat.testBit_lt_two_pow (by omega), Bool.and_false]

/-- The kind of the event is masked away. -/
theorem dmaDoneEvent_masked (n : UInt32) :
    dmaDoneEvent n &&& ~~~0xff#32 = n.toBitVec <<< 8 := by
  apply BitVec.eq_of_getLsbD_eq
  intro i hi
  simp only [dmaDoneEvent, BitVec.getLsbD_and, BitVec.getLsbD_or, BitVec.getLsbD_not,
    BitVec.getLsbD_shiftLeft]
  by_cases h8 : i < 8
  · have hff : (0xff#32).getLsbD i = true := by interval_cases i <;> rfl
    simp [h8, hff]
  · -- Above the mask the event has only the length.
    have h3 : (3#32).getLsbD i = false := getLsbD_small (by omega) (not_lt.mp h8)
    have hff : (0xff#32).getLsbD i = false := getLsbD_small (by omega) (not_lt.mp h8)
    rw [h3, hff]
    simp [h8, hi]

/-- What is left of a length behind the event: its low 24 bits, with a sign. -/
theorem dmaDoneLength_event (n : UInt32) :
    dmaDoneLength (dmaDoneEvent n) = Int.bmod (n.toNat * 256) (2 ^ 32) / 256 := by
  unfold dmaDoneLength
  -- The source shifts a signed word, so that the upper bits are copies of the sign.
  rw [dmaDoneEvent_masked, BitVec.toInt_sshiftRight, Int.shiftRight_eq_div_pow,
    BitVec.toInt_shiftLeft, Nat.shiftLeft_eq]
  rfl

theorem dmaDoneLength_of_small {n : UInt32} (h : n.toNat < 2 ^ 23) :
    dmaDoneLength (dmaDoneEvent n) = n.toNat := by
  rw [dmaDoneLength_event, Int.bmod_eq_of_le (by omega) (by omega)]
  omega

theorem dmaDoneLength_of_wrapped {n : UInt32} (h : 2 ^ 32 - 2 ^ 23 ≤ n.toNat) :
    dmaDoneLength (dmaDoneEvent n) < 0 := by
  have hn := n.toNat_lt
  rw [dmaDoneLength_event]
  simp only [Int.bmod]
  split <;> omega

variable {b : UInt32} {s : DmaRx}

theorem placed_start (hb : 2 ≤ b.toNat) : Placed b (DmaRx.start b) :=
  ⟨rfl, by simp [DmaRx.start], le_refl 0, by simp [DmaRx.start], by
    simp only [DmaRx.start]
    omega⟩

/-- A handler sees the position of the DMA. -/
theorem Placed.recvTotalIndex (h : Placed b s) :
    (s.recvTotalIndex b).toNat = s.received % b.toNat := by
  have hlt := b.toNat_lt
  have hc := h.counter
  rw [DmaRx.recvTotalIndex, UInt32.toNat_sub]
  omega

theorem Placed.arrive (h : Placed b s) (hp : s.pending + 1 < b.toNat) :
    Placed b (s.arrive b) := by
  have hcount := h.counter
  have hmod : s.received % b.toNat < b.toNat := Nat.mod_lt _ (by omega)
  have hone : (1 : Nat) % b.toNat = 1 := Nat.mod_eq_of_lt (by omega)
  have hnext := Nat.add_mod_eq_ite (m := s.received) (n := 1) (k := b.toNat)
  rw [hone] at hnext
  refine ⟨h.enabled, ?_, ?_, ?_, hp⟩
  · simp only [DmaRx.arrive, hnext]
    by_cases hc : s.counter = 1
    -- The last byte of the buffer: the counter starts over.
    · have hv : s.counter.toNat = 1 := by rw [hc]; rfl
      rw [if_pos hc, if_pos (by omega)]
      omega
    · have hv : s.counter.toNat ≠ 1 := fun hv => hc (UInt32.toNat_inj.mp (by rw [hv]; rfl))
      rw [if_neg hc, if_neg (by omega), UInt32.toNat_sub]
      have hlt := s.counter.toNat_lt
      have h1 : (1 : UInt32).toNat = 1 := rfl
      omega
  · simp only [DmaRx.arrive]
    have := h.since
    omega
  · simp only [DmaRx.arrive]
    rw [h.last]
    congr 1
    omega

theorem Placed.account (h : Placed b s) (n : UInt32) : Placed b (s.account b n) :=
  ⟨h.enabled, h.counter, Nat.zero_le _, by
    simp only [DmaRx.account]
    rw [h.recvTotalIndex, Nat.sub_zero], by
    have := h.few
    simp only [DmaRx.account]
    omega⟩

theorem Placed.dmaIsr_eq (h : Placed b s) :
    s.dmaIsr b = s.account b (if s.recvTotalIndex b = 0 then b - s.lastIndex
      else s.recvTotalIndex b - s.lastIndex) := by
  rw [DmaRx.dmaIsr, h.enabled, Bool.true_or, if_pos rfl]

theorem step_placed {s' : DmaRx} {e : RxEvent} (h : Placed b s) (hp : Prompt b s e)
    (hs : dmaStep b s e = some s') : Placed b s' := by
  cases e with
  | arrive =>
      cases hs
      exact h.arrive (hp rfl)
  | dmaIsr =>
      cases hs
      rw [h.dmaIsr_eq]
      exact h.account _
  | idleIsr =>
      cases hs
      exact h.account _

/-- Where the DMA is, from where it was: as far as it went, less one round if it
    came past the end. -/
theorem Placed.index_eq (h : Placed b s) :
    (s.recvTotalIndex b).toNat =
      if b.toNat ≤ s.lastIndex.toNat + s.pending then s.lastIndex.toNat + s.pending - b.toNat
      else s.lastIndex.toNat + s.pending := by
  have hfew : s.pending % b.toNat = s.pending := Nat.mod_eq_of_lt h.few
  -- What has arrived is what was accounted for and what has come since.
  have hsum : s.received = s.received - s.pending + s.pending := by
    have := h.since
    omega
  rw [h.recvTotalIndex, hsum, Nat.add_mod_eq_ite, hfew, ← h.last]

theorem Placed.last_lt (h : Placed b s) : s.lastIndex.toNat < b.toNat := by
  rw [h.last]
  exact Nat.mod_lt _ (by have := h.few; omega)

/-- The unsigned difference as long as the DMA has not come around. -/
theorem Placed.length_before (h : Placed b s)
    (hlt : s.lastIndex.toNat + s.pending < b.toNat) :
    (s.recvTotalIndex b - s.lastIndex).toNat = s.pending := by
  have hb := b.toNat_lt
  have hi := h.index_eq
  rw [if_neg (by omega)] at hi
  rw [UInt32.toNat_sub, hi]
  omega

/-- The unsigned difference once it has. -/
theorem Placed.length_behind (h : Placed b s) (hb : b.toNat ≤ 65535)
    (hle : b.toNat ≤ s.lastIndex.toNat + s.pending) :
    2 ^ 32 - 2 ^ 23 ≤ (s.recvTotalIndex b - s.lastIndex).toNat := by
  have hfew := h.few
  have hlast := h.last_lt
  have hi := h.index_eq
  -- The DMA is behind where it was last seen, and the difference wraps around.
  rw [if_pos hle] at hi
  rw [UInt32.toNat_sub, hi]
  omega

theorem Placed.index_zero (h : Placed b s) : s.recvTotalIndex b = 0 ↔
    s.lastIndex.toNat + s.pending = 0 ∨ s.lastIndex.toNat + s.pending = b.toNat := by
  have hfew := h.few
  have hlast := h.last_lt
  have hi := h.index_eq
  rw [← UInt32.toNat_inj, hi]
  have h0 : (0 : UInt32).toNat = 0 := rfl
  rw [h0]
  split <;> omega

/-- A handler that finds as many bytes as have arrived keeps the accounts. -/
theorem Accounted.account (ha : Accounted b s) (h : Placed b s) (hb : b.toNat ≤ 65535)
    {n : UInt32} (hn : n.toNat = s.pending) : Accounted b (s.account b n) := by
  have hfew := h.few
  have hsum := ha.sum
  have hlen : dmaDoneLength (dmaDoneEvent n) = s.pending := by
    rw [dmaDoneLength_of_small (by omega), hn]
  by_cases hz : n = 0
  · -- Nothing has arrived and nothing is reported.
    have h0 : s.pending = 0 := by rw [← hn, hz]; rfl
    refine ⟨?_, ?_, (h.account n).last⟩
    · simp only [DmaRx.account, hz, ne_eq, not_true_eq_false, if_false]
      omega
    · simpa only [DmaRx.account, hz, ne_eq, not_true_eq_false, if_false] using ha.range
  · have hpos : s.pending ≠ 0 := fun h0 => hz (UInt32.toNat_inj.mp (by rw [hn, h0]; rfl))
    refine ⟨?_, ?_, (h.account n).last⟩
    · simp only [DmaRx.account, ne_eq, hz, not_false_eq_true, if_true, List.sum_append,
        List.sum_singleton, hlen]
      omega
    · intro m hm
      simp only [DmaRx.account, ne_eq, hz, not_false_eq_true, if_true, List.mem_append,
        List.mem_singleton, hlen] at hm
      rcases hm with hm | rfl
      · exact ha.range m hm
      · omega

/-- A handler that finds a length no chunk can have does not. -/
theorem not_accounted_of_length {n : UInt32} (hz : n ≠ 0)
    (hn : dmaDoneLength (dmaDoneEvent n) < 0 ∨ b.toNat ≤ dmaDoneLength (dmaDoneEvent n)) :
    ¬ Accounted b (s.account b n) := by
  intro ha
  -- It is in the list, and no length in the list is of that size.
  have hm : dmaDoneLength (dmaDoneEvent n) ∈ (s.account b n).reported := by
    simp [DmaRx.account, hz]
  have hr := ha.range _ hm
  omega

theorem not_accounted_behind (h : Placed b s) (hb : b.toNat ≤ 65535)
    (hle : b.toNat ≤ s.lastIndex.toNat + s.pending) :
    ¬ Accounted b (s.account b (s.recvTotalIndex b - s.lastIndex)) := by
  have hbig := h.length_behind hb hle
  refine not_accounted_of_length (fun hz => ?_) (.inl (dmaDoneLength_of_wrapped hbig))
  rw [hz] at hbig
  exact absurd hbig (by decide)

theorem step_accounted {s' : DmaRx} {e : RxEvent} (hb : b.toNat ≤ 65535) (h : Placed b s)
    (ha : Accounted b s) (ht : Timely b s e) (hs : dmaStep b s e = some s') :
    Accounted b s' := by
  cases e with
  | arrive =>
      cases hs
      have hsince := h.since
      refine ⟨?_, ha.range, ?_⟩
      · -- What has just arrived is pending, and no length is about it yet.
        have := ha.sum
        simp only [DmaRx.arrive]
        omega
      · simp only [DmaRx.arrive, ha.position]
        congr 1
        omega
  | dmaIsr =>
      cases hs
      rcases ht with ⟨hpos, hle⟩
      rw [h.dmaIsr_eq]
      by_cases hwrap : s.lastIndex.toNat + s.pending = b.toNat
      -- Exactly at the wrap the other subtraction is the right one.
      · rw [if_pos (h.index_zero.mpr (.inr hwrap))]
        refine ha.account h hb ?_
        have hlt := b.toNat_lt
        rw [UInt32.toNat_sub]
        have := h.few
        omega
      · rw [if_neg (fun hz => by rcases h.index_zero.mp hz with h0 | h0 <;> omega)]
        -- Anywhere else the DMA has not come around, or not moved from the wrap at all.
        exact ha.account h hb (h.length_before (by omega))
  | idleIsr =>
      cases hs
      exact ha.account h hb (h.length_before ht)

theorem step_not_accounted {s' : DmaRx} {e : RxEvent} (hb2 : 2 ≤ b.toNat)
    (hb : b.toNat ≤ 65535) (h : Placed b s) (ht : ¬ Timely b s e)
    (hs : dmaStep b s e = some s') : ¬ Accounted b s' := by
  cases e with
  | arrive => exact absurd trivial ht
  | dmaIsr =>
      cases hs
      rw [h.dmaIsr_eq]
      simp only [Timely, not_and_or, not_lt, not_le, Nat.le_zero] at ht
      rcases ht with h0 | hgt
      -- Nothing has moved, and the whole buffer is reported.
      · have hl : s.lastIndex = 0 := UInt32.toNat_inj.mp (by
          have : (0 : UInt32).toNat = 0 := rfl
          omega)
        rw [if_pos (h.index_zero.mpr (.inl h0)), hl, UInt32.sub_zero]
        refine not_accounted_of_length (fun hz => ?_) (.inr ?_)
        · rw [hz] at hb2
          exact absurd hb2 (by decide)
        · rw [dmaDoneLength_of_small (by omega)]
      · rw [if_neg (fun hz => by rcases h.index_zero.mp hz with h0 | h0 <;> omega)]
        exact not_accounted_behind h hb (by omega)
  | idleIsr =>
      cases hs
      exact not_accounted_behind h hb (not_lt.mp ht)

/-- For every size of the buffer and every order of arrivals and handlers with
    fewer than `b` bytes between two of them, the lengths reported add up to the
    bytes received after every execution, each in its range and with the position
    up to date, exactly if every execution is timely. -/
theorem along_timely_iff {t : DmaRx} {events : List RxEvent} (hb2 : 2 ≤ b.toNat)
    (hb : b.toNat ≤ 65535) (hp : Along (dmaStep b) (Prompt b) (DmaRx.start b) events)
    (h : run (dmaStep b) (DmaRx.start b) events = some t) :
    Along (dmaStep b) (Timely b) (DmaRx.start b) events ↔
      Always (dmaStep b) (Accounted b) (DmaRx.start b) events := by
  have hstart : Accounted b (DmaRx.start b) := ⟨rfl, nofun, (placed_start hb2).last⟩
  exact along_iff_always (dmaStep b)
    (fun _ _ _ hI hE hs => step_placed hI hE hs)
    (fun _ _ _ hI hP _ hG hs => step_accounted hb hI hP hG hs)
    (fun _ _ _ hI _ _ hG hs => step_not_accounted hb2 hb hI hG hs)
    (placed_start hb2) hstart hp h

/-- Both halves of a buffer of four bytes, each announced in time, and one more byte
    that the idle line announces. -/
def aroundOnce : List RxEvent :=
  [.arrive, .arrive, .dmaIsr, .arrive, .arrive, .dmaIsr, .arrive, .idleIsr]

theorem along_timely_aroundOnce :
    (run (dmaStep 4) (DmaRx.start 4) aroundOnce).map (fun t => (t.reported, t.received)) =
      some ([2, 2, 1], 5) ∧
    Always (dmaStep 4) (Accounted 4) (DmaRx.start 4) aroundOnce := by
  have hrun : (run (dmaStep 4) (DmaRx.start 4) aroundOnce).map
      (fun t => (t.reported, t.received)) = some ([2, 2, 1], 5) := by decide
  rcases Option.map_eq_some_iff.mp hrun with ⟨t, ht, -⟩
  exact ⟨hrun, (along_timely_iff (by decide) (by decide) (by decide) ht).mp (by decide)⟩

/-- The same buffer with one byte more before the second half is announced. -/
def behindWrap : List RxEvent :=
  [.arrive, .arrive, .dmaIsr, .arrive, .arrive, .arrive, .dmaIsr]

/-- The three bytes are reported as minus one. -/
theorem not_accounted_behind_wrap :
    Along (dmaStep 4) (Prompt 4) (DmaRx.start 4) behindWrap ∧
    ∃ t, run (dmaStep 4) (DmaRx.start 4) behindWrap = some t ∧
      t.reported = [2, -1] ∧ t.received = 5 ∧ t.pending = 0 ∧ ¬ Accounted 4 t := by
  refine ⟨by decide, ?_⟩
  have hrun : (run (dmaStep 4) (DmaRx.start 4) behindWrap).map
      (fun t => (t.reported, t.received, t.pending)) = some ([2, -1], 5, 0) := by decide
  rcases Option.map_eq_some_iff.mp hrun with ⟨t, ht, hsum⟩
  simp only [Prod.mk.injEq] at hsum
  refine ⟨t, ht, hsum.1, hsum.2.1, hsum.2.2, fun ha => ?_⟩
  have hn := ha.range (-1) (by simp [hsum.1])
  omega

end Uart

end Firmware
