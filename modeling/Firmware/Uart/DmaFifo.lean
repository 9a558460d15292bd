import Firmware.Uart.DmaReceive
import Firmware.Uart.Fifo

/-!
# The FIFO behind the DMA

A port of `drivers/serial/serial.c` that receives by DMA, from the arrival of a byte to
the read that returns it.

The DMA stores the bytes into the buffer of the FIFO and tells nobody where it stands. The
handlers of `drv_usart.c` find out now and then and report a length, by which
`rt_dma_recv_update_put_index` moves the write index on; it moves the read index as well if
the unread bytes have become more than the buffer holds. `_serial_dma_rx` masks interrupts
and copies the unread bytes in one or two pieces. Masked interrupts stop the handlers and
not the DMA, which may overwrite what is being copied.

`dma_in_order` puts the three together. As long as the handlers are on time and the DMA
stays out of the bytes that are copied, the reads return bytes that have arrived, in their
order and none twice; and all of them but the last ones, if a handler never finds more
bytes than there is room for.

## Main definitions

* `RxFifo.updatePutIndex`, `RxFifo.updateGetIndex`: The two sides of the FIFO.
* `DmaPort`, `dmaPortServe`: The port, the DMA and the thread.
* `Orderly`: The handlers are on time, and no byte is overwritten before it is copied.
* `Spans`: The indices of a number of unread bytes.
* `Stored`: The port against the stream of the bytes.

## Theorems

* `Spans.updatePutIndex`, `Spans.updateGetIndex`: What the two sides do.
* `dmaPort_step`: What one event does.
* `dma_in_order`: The reads return the stream.
-/

namespace Firmware

namespace Uart

namespace RxFifo

variable (bufsz : Nat) (f : RxFifo)

/-- `rt_dma_recv_update_get_index` -/
def updateGetIndex (len : Nat) : RxFifo :=
  let getIndex := (f.getIndex + len) % 2 ^ 16
  { f with
    isFull := if f.isFull ∧ len ≠ 0 then false else f.isFull
    getIndex := if bufsz ≤ getIndex then getIndex % bufsz else getIndex }

/-- The first part of `rt_dma_recv_update_put_index`: the write index is moved on, and the
    flag is set if it comes to the read index. -/
def movePutIndex (len : Int) : RxFifo :=
  let putIndex := ((f.putIndex + len) % 2 ^ 16).toNat
  if f.getIndex ≤ f.putIndex then
    if bufsz ≤ putIndex then
      { f with
        putIndex := putIndex % bufsz
        isFull := if f.getIndex ≤ putIndex % bufsz then true else f.isFull }
    else { f with putIndex }
  else if f.getIndex ≤ putIndex then
    { f with
      putIndex := if bufsz ≤ putIndex then putIndex % bufsz else putIndex
      isFull := true }
  else { f with putIndex }

/-- `rt_dma_recv_update_put_index` -/
def updatePutIndex (len : Int) : RxFifo :=
  let f := f.movePutIndex bufsz len
  -- Force overwrite of the read index.
  if f.isFull then { f with getIndex := f.putIndex } else f

/-- The cell that `_serial_dma_rx` copies byte `i` from: `recvLen` bytes in one piece, or
    in two pieces around the end of the buffer. -/
def copyCell (recvLen i : Nat) : Nat :=
  if f.getIndex + recvLen < bufsz then f.getIndex + i
  else if i < bufsz - f.getIndex then f.getIndex + i
  else i - (bufsz - f.getIndex)

end RxFifo

/-- A port that is open for reception by DMA. Within `_serial_dma_rx`, there are the number
    of bytes that it copies and those it has. The stream is the bytes that have arrived. -/
structure DmaPort where
  rx : DmaRx
  fifo : RxFifo
  copying : Option (Nat × List UInt8) := none
  stream : List UInt8 := []

/-- The port behind `rt_serial_open`, with the DMA set to the buffer. -/
def DmaPort.opened (b : UInt32) : DmaPort := { rx := .start b, fifo := .opened }

/-- The DMA stores a byte, a handler runs, a thread calls `rt_serial_read`, or it copies
    one byte more. -/
inductive DmaEvent where
  | arrive (x : UInt8)
  | dmaIsr
  | idleIsr
  | read (size : Nat)
  | copy

section Port

variable (b : UInt32)

/-- A handler, and `rt_hw_serial_isr` for `RT_SERIAL_EVENT_RX_DMADONE` with the length that
    it reports, if it reports one. -/
def DmaPort.handle (s : DmaPort) (rx : DmaRx) : DmaPort × PortOutcome :=
  match rx.reported.drop s.rx.reported.length with
  | [] => ({ s with rx }, .silent)
  | len :: _ =>
      let fifo := s.fifo.updatePutIndex b.toNat len
      ({ s with rx, fifo }, .indicated (fifo.calcRecvedLen b.toNat))

/-- The events of the port. No handler runs within a read. -/
def dmaPortServe (s : DmaPort) : DmaEvent → Option (DmaPort × PortOutcome)
  | .arrive x =>
      let buffer := Function.update s.fifo.buffer (s.rx.recvTotalIndex b).toNat x
      some ({ s with rx := s.rx.arrive b, fifo := { s.fifo with buffer },
                     stream := s.stream ++ [x] }, .silent)
  | .dmaIsr => if s.copying.isSome then none else some (s.handle b (s.rx.dmaIsr b))
  | .idleIsr => if s.copying.isSome then none else some (s.handle b (s.rx.idleIsr b))
  | .read size =>
      match s.copying with
      | some _ => none
      | none =>
          if size = 0 then some (s, .returned [])
          else some ({ s with
            copying := some (min size (s.fifo.calcRecvedLen b.toNat), []) }, .silent)
  | .copy =>
      match s.copying with
      | none => none
      | some (recvLen, data) =>
          if data.length < recvLen then
            let ch := s.fifo.buffer (s.fifo.copyCell b.toNat recvLen data.length)
            some ({ s with copying := some (recvLen, data ++ [ch]) }, .silent)
          else
            some ({ s with fifo := s.fifo.updateGetIndex b.toNat recvLen, copying := none },
              .returned data)

def dmaPortStep (s : DmaPort) (e : DmaEvent) : Option DmaPort := (dmaPortServe b s e).map Prod.fst

def dmaPortOutcome (s : DmaPort) (e : DmaEvent) : PortOutcome :=
  match dmaPortServe b s e with
  | some (_, outcome) => outcome
  | none => .silent

/-- The bytes that have arrived. -/
def arrived (events : List DmaEvent) : List UInt8 :=
  events.flatMap fun
    | .arrive x => [x]
    | _ => []

/-- The handlers are on time, and a byte is copied before the DMA is there again. -/
def Orderly (s : DmaPort) : DmaEvent → Prop
  | .arrive _ => s.rx.pending + 1 < b.toNat
  | .dmaIsr => Timely b s.rx .dmaIsr
  | .idleIsr => Timely b s.rx .idleIsr
  | .read _ => True
  | .copy =>
      match s.copying with
      | none => True
      | some (recvLen, data) => data.length < recvLen →
          s.rx.pending + s.fifo.calcRecvedLen b.toNat ≤ b.toNat + data.length

/-- What a handler finds is no more than the buffer holds. -/
def Fits (s : DmaPort) : DmaEvent → Prop
  | .dmaIsr => s.rx.pending + s.fifo.calcRecvedLen b.toNat ≤ b.toNat
  | .idleIsr => s.rx.pending + s.fifo.calcRecvedLen b.toNat ≤ b.toNat
  | _ => True

instance (s : DmaPort) : (e : DmaEvent) → Decidable (Orderly b s e)
  | .arrive _ => inferInstanceAs (Decidable (_ < _))
  | .dmaIsr => inferInstanceAs (Decidable (Timely b s.rx .dmaIsr))
  | .idleIsr => inferInstanceAs (Decidable (Timely b s.rx .idleIsr))
  | .read _ => isTrue trivial
  | .copy =>
      match h : s.copying with
      | none => isTrue (by simp only [Orderly, h])
      | some (recvLen, data) => decidable_of_iff (data.length < recvLen →
          s.rx.pending + s.fifo.calcRecvedLen b.toNat ≤ b.toNat + data.length)
            (by simp only [Orderly, h])

instance (s : DmaPort) : (e : DmaEvent) → Decidable (Fits b s e)
  | .arrive _ => isTrue trivial
  | .dmaIsr => inferInstanceAs (Decidable (_ ≤ _))
  | .idleIsr => inferInstanceAs (Decidable (_ ≤ _))
  | .read _ => isTrue trivial
  | .copy => isTrue trivial

end Port

/-- The indices of `u` unread bytes, the first of which is byte `k` of all. -/
structure Spans (bufsz : Nat) (f : RxFifo) (k u : Nat) : Prop where
  get : f.getIndex = k % bufsz
  put : f.putIndex = (k + u) % bufsz
  le : u ≤ bufsz
  full : f.isFull = true ↔ u = bufsz

section Indices

variable {bufsz : Nat} {f : RxFifo} {k u : Nat}

/-- One subtraction is enough. -/
theorem mod_once {x : Nat} (h : bufsz ≤ x) (h' : x < 2 * bufsz) : x % bufsz = x - bufsz := by
  rw [Nat.mod_eq_sub_mod h, Nat.mod_eq_of_lt (by omega)]

theorem spans_opened (hpos : 0 < bufsz) : Spans bufsz .opened 0 0 := by
  refine ⟨(Nat.zero_mod _).symm, (Nat.zero_mod _).symm, Nat.zero_le _, ?_⟩
  simp only [RxFifo.opened, Bool.false_eq_true, false_iff]
  omega

theorem Spans.calcRecvedLen (hpos : 0 < bufsz) (h : Spans bufsz f k u) :
    f.calcRecvedLen bufsz = u := by
  have hk := Nat.mod_lt k hpos
  have hle := h.le
  have hput : f.putIndex = (k % bufsz + u) % bufsz := by rw [h.put, Nat.mod_add_mod]
  unfold RxFifo.calcRecvedLen
  by_cases hmeet : f.putIndex = f.getIndex
  · rw [if_pos hmeet]
    -- Equal indices mean none or all, and only the flag tells which.
    rw [hput, h.get, mod_eq_self_iff hk hle] at hmeet
    by_cases hall : u = bufsz
    · have hset := h.full.mpr hall
      rw [if_neg (by rw [hset]; decide), hall]
    · have hclear : f.isFull = false := by
        rw [← Bool.not_eq_true, h.full]
        exact hall
      rw [if_pos hclear]
      omega
  · rw [if_neg hmeet]
    have hlt : u < bufsz := by
      by_contra hc
      have hall : u = bufsz := by omega
      exact hmeet (by rw [hput, h.get, mod_eq_self_iff hk hle]; exact .inr hall)
    have hlength := length_of_mod hk hlt
    rw [← hput, ← h.get] at hlength
    rw [← hlength]
    -- The bytes lie in one piece, or around the end of the buffer.
    by_cases hgt : f.getIndex < f.putIndex
    · rw [if_pos hgt, if_pos (by omega)]
    · rw [if_neg hgt, if_neg (by omega)]

/-- A read of some of the unread bytes. -/
theorem Spans.updateGetIndex (hpos : 0 < bufsz) (hsz : bufsz ≤ 2 ^ 15) (h : Spans bufsz f k u)
    {n : Nat} (hn : n ≤ u) : Spans bufsz (f.updateGetIndex bufsz n) (k + n) (u - n) := by
  have hk := Nat.mod_lt k hpos
  have hle := h.le
  have hget := h.get
  refine ⟨?_, ?_, by omega, ?_⟩
  · -- The sum is taken in 16 bits, and half of them is what keeps it from wrapping.
    simp only [RxFifo.updateGetIndex, Nat.mod_eq_of_lt (by omega : f.getIndex + n < 2 ^ 16)]
    have hmod : (k + n) % bufsz = (f.getIndex + n) % bufsz := by rw [hget, Nat.mod_add_mod]
    rw [hmod]
    by_cases hwrap : bufsz ≤ f.getIndex + n
    · rw [if_pos hwrap]
    · rw [if_neg hwrap, Nat.mod_eq_of_lt (by omega)]
  · simp only [RxFifo.updateGetIndex, h.put]
    congr 1
    omega
  · simp only [RxFifo.updateGetIndex]
    -- A byte that is read clears the flag, and there is room then.
    by_cases hsome : f.isFull = true ∧ n ≠ 0
    · rw [if_pos hsome]
      have := hsome.2
      simp only [Bool.false_eq_true, false_iff]
      omega
    · rw [if_neg hsome, h.full]
      by_cases hzero : n = 0
      · rw [hzero, Nat.sub_zero]
      · have hclear : u ≠ bufsz := fun hall => hsome ⟨h.full.mpr hall, hzero⟩
        omega

/-- The write index behind a report, and when the flag is set. -/
theorem Spans.movePutIndex (hpos : 0 < bufsz) (hsz : bufsz ≤ 2 ^ 15) (h : Spans bufsz f k u)
    {n : Nat} (hn : n ≤ bufsz) :
    (f.movePutIndex bufsz n).getIndex = f.getIndex ∧
      (f.movePutIndex bufsz n).putIndex = (k + u + n) % bufsz ∧
      ((f.movePutIndex bufsz n).isFull = true ↔ bufsz ≤ u + n) := by
  have hk := Nat.mod_lt k hpos
  have hle := h.le
  have hget := h.get
  have hfull := h.full
  have hput : f.putIndex = (k % bufsz + u) % bufsz := by rw [h.put, Nat.mod_add_mod]
  have hlt : f.putIndex < bufsz := by
    rw [h.put]
    exact Nat.mod_lt _ hpos
  have hmod : (f.putIndex + n) % bufsz = (k + u + n) % bufsz := by rw [h.put, Nat.mod_add_mod]
  have hsum : ((f.putIndex + (n : Int)) % 2 ^ 16).toNat = f.putIndex + n := by omega
  -- Where the write index is, with and without a turn.
  have hbefore : k % bufsz + u < bufsz → f.putIndex = k % bufsz + u := fun hx => by
    rw [hput, Nat.mod_eq_of_lt hx]
  have hbehind : bufsz ≤ k % bufsz + u → f.putIndex = k % bufsz + u - bufsz := fun hx => by
    rw [hput, mod_once hx (by omega)]
  unfold RxFifo.movePutIndex
  simp only [hsum]
  -- The code tests for an overrun differently on the two sides of the read index: ahead of it the
  -- write index has to come around the end first.
  by_cases hord : f.getIndex ≤ f.putIndex
  · rw [if_pos hord]
    by_cases hend : bufsz ≤ f.putIndex + n
    · rw [if_pos hend]
      have honce := mod_once hend (by omega)
      refine ⟨rfl, hmod, ?_⟩
      simp only [honce]
      by_cases hmeet : f.getIndex ≤ f.putIndex + n - bufsz
      · rw [if_pos hmeet]
        simp only [true_iff]
        omega
      · rw [if_neg hmeet, hfull]
        omega
    · rw [if_neg hend]
      refine ⟨rfl, ?_, ?_⟩
      · rw [← hmod, Nat.mod_eq_of_lt (by omega)]
      · simp only [hfull]
        omega
  · rw [if_neg hord]
    by_cases hmeet : f.getIndex ≤ f.putIndex + n
    · rw [if_pos hmeet]
      refine ⟨rfl, ?_, ?_⟩
      · simp only [← hmod]
        by_cases hend : bufsz ≤ f.putIndex + n
        · rw [if_pos hend]
        · rw [if_neg hend, Nat.mod_eq_of_lt (by omega)]
      · simp only [true_iff]
        omega
    · rw [if_neg hmeet]
      refine ⟨rfl, ?_, ?_⟩
      · rw [← hmod, Nat.mod_eq_of_lt (by omega)]
      · simp only [hfull]
        omega

/-- The bytes that a handler reports. Those that no longer fit push the oldest ones out. -/
theorem Spans.updatePutIndex (hpos : 0 < bufsz) (hsz : bufsz ≤ 2 ^ 15) (h : Spans bufsz f k u)
    {n : Nat} (hn : n ≤ bufsz) :
    Spans bufsz (f.updatePutIndex bufsz n) (k + (u + n - bufsz)) (min (u + n) bufsz) := by
  rcases h.movePutIndex hpos hsz hn with ⟨hget, hput, hfull⟩
  unfold RxFifo.updatePutIndex
  by_cases hall : bufsz ≤ u + n
  · -- The buffer is full, and its oldest byte is `bufsz` before the write index.
    have hset := hfull.mpr hall
    have hlast : k + (u + n - bufsz) + bufsz = k + u + n := by omega
    rw [Nat.min_eq_right hall]
    simp only [hset, if_true]
    refine ⟨?_, ?_, le_refl _, by simp⟩
    · rw [hput, ← hlast, Nat.add_mod_right]
    · rw [hput, hlast]
  · have hclear : (f.movePutIndex bufsz n).isFull = false := by
      rw [← Bool.not_eq_true, hfull]
      exact hall
    have hzero : u + n - bufsz = 0 := by omega
    -- There was room, so the read index has not been moved.
    rw [Nat.min_eq_left (by omega), hzero, Nat.add_zero]
    simp only [hclear, Bool.false_eq_true, if_false]
    refine ⟨by rw [hget, h.get], by rw [hput, Nat.add_assoc], by omega, ?_⟩
    rw [hclear]
    simp only [Bool.false_eq_true, false_iff]
    omega

theorem buffer_movePutIndex (bufsz : Nat) (f : RxFifo) (len : Int) :
    (f.movePutIndex bufsz len).buffer = f.buffer := by
  unfold RxFifo.movePutIndex
  simp only
  split_ifs <;> rfl

@[simp] theorem buffer_updatePutIndex (bufsz : Nat) (f : RxFifo) (len : Int) :
    (f.updatePutIndex bufsz len).buffer = f.buffer := by
  unfold RxFifo.updatePutIndex
  simp only
  split_ifs
  · exact buffer_movePutIndex bufsz f len
  · exact buffer_movePutIndex bufsz f len

/-- The cell a byte is copied from, in either piece. -/
theorem Spans.copyCell (hpos : 0 < bufsz) (h : Spans bufsz f k u) {n i : Nat} (hn : n ≤ u)
    (hi : i < n) : f.copyCell bufsz n i = (k + i) % bufsz := by
  have hk := Nat.mod_lt k hpos
  have hle := h.le
  have hget := h.get
  have hmod : (k + i) % bufsz = (f.getIndex + i) % bufsz := by rw [hget, Nat.mod_add_mod]
  rw [hmod]
  unfold RxFifo.copyCell
  -- One piece, or two of which the second begins at the start of the buffer.
  by_cases hone : f.getIndex + n < bufsz
  · rw [if_pos hone, Nat.mod_eq_of_lt (by omega)]
  · rw [if_neg hone]
    by_cases hfirst : i < bufsz - f.getIndex
    · rw [if_pos hfirst, Nat.mod_eq_of_lt (by omega)]
    · rw [if_neg hfirst, mod_once (by omega) (by omega)]
      omega

end Indices

/-- The port against the stream, of which the reads have passed the first `g` bytes: the
    FIFO has the bytes from there to the last one reported, the buffer has the last bytes
    that arrived, and what a read has copied is what comes next in the stream. -/
structure Stored (b : UInt32) (s : DmaPort) (g : Nat) : Prop where
  placed : Placed b s.rx
  count : s.stream.length = s.rx.received
  passed : g ≤ s.rx.received - s.rx.pending
  spans : Spans b.toNat s.fifo g (s.rx.received - s.rx.pending - g)
  cells : ∀ j (h : j < s.stream.length), s.stream.length ≤ j + b.toNat →
    s.fifo.buffer (j % b.toNat) = s.stream[j]
  copied : ∀ recvLen data, s.copying = some (recvLen, data) →
    data.length ≤ recvLen ∧ recvLen ≤ s.rx.received - s.rx.pending - g ∧ data <+: s.stream.drop g

section Steps

variable {b : UInt32} {s s' : DmaPort} {g : Nat} {o : PortOutcome}

theorem stored_opened (hb2 : 2 ≤ b.toNat) : Stored b (.opened b) 0 := by
  refine ⟨placed_start hb2, rfl, Nat.zero_le _, spans_opened (by omega), ?_, ?_⟩
  · intro j h
    exact absurd h (Nat.not_lt_zero j)
  · intro recvLen data h
    exact absurd h (by simp [DmaPort.opened])

/-- A handler that is on time finds as many bytes as have arrived. -/
theorem account_of_timely {r : DmaRx} (h : Placed b r) :
    (Timely b r .dmaIsr → ∃ n : UInt32, r.dmaIsr b = r.account b n ∧ n.toNat = r.pending) ∧
      (Timely b r .idleIsr → ∃ n : UInt32, r.idleIsr b = r.account b n ∧ n.toNat = r.pending) := by
  refine ⟨fun ht => ?_, fun ht => ⟨_, rfl, h.length_before ht⟩⟩
  rcases ht with ⟨hpos, hle⟩
  refine ⟨_, h.dmaIsr_eq, ?_⟩
  by_cases hwrap : r.lastIndex.toNat + r.pending = b.toNat
  · -- Exactly at the wrap the length is what is left of the buffer.
    have hlt := b.toNat_lt
    have hfew := h.few
    rw [if_pos (h.index_zero.mpr (.inr hwrap)), UInt32.toNat_sub]
    omega
  · -- Elsewhere the index is not zero, and both handlers take the difference.
    have hne : ¬ r.recvTotalIndex b = 0 := fun hz => by
      rcases h.index_zero.mp hz with h0 | h0
      · omega
      · exact hwrap h0
    rw [if_neg hne]
    exact h.length_before (by omega)

/-- The stream grows, and the oldest cell of the buffer has its last byte. -/
theorem stored_arrive (h : Stored b s g) (hp : s.rx.pending + 1 < b.toNat) (x : UInt8) :
    Stored b { s with
      rx := s.rx.arrive b
      fifo := { s.fifo with
        buffer := Function.update s.fifo.buffer (s.rx.recvTotalIndex b).toNat x }
      stream := s.stream ++ [x] } g := by
  have hsince := h.placed.since
  have hpassed := h.passed
  have hcount := h.count
  have hsame : (s.rx.arrive b).received - (s.rx.arrive b).pending =
      s.rx.received - s.rx.pending := by
    simp only [DmaRx.arrive]
    omega
  refine ⟨h.placed.arrive hp, ?_, ?_, ?_, fun j hj hnew => ?_, fun recvLen data hcopy => ?_⟩
  · simp only [DmaRx.arrive, List.length_append, List.length_singleton, hcount]
  · rw [hsame]
    exact hpassed
  · rw [hsame]
    exact ⟨h.spans.get, h.spans.put, h.spans.le, h.spans.full⟩
  · simp only [List.length_append, List.length_singleton] at hj hnew
    simp only [h.placed.recvTotalIndex, ← hcount]
    by_cases hlast : j = s.stream.length
    · subst hlast
      rw [Function.update_self, List.getElem_append_right (le_refl _)]
      simp
    · -- Another byte of the last ones is in another cell.
      have hne : j % b.toNat ≠ s.stream.length % b.toNat := by
        intro heq
        have hsum : j + (s.stream.length - j) = s.stream.length := by omega
        have hzero := window_inj (k := j) (by omega : 0 < b.toNat)
          (by omega : s.stream.length - j < b.toNat) (by rw [hsum]; exact heq)
        omega
      rw [Function.update_of_ne hne, List.getElem_append_left (by omega)]
      exact h.cells j (by omega) (by omega)
  · -- What has been copied is still what comes next, in a stream that has become longer.
    rcases h.copied recvLen data hcopy with ⟨hlen, hle, hpre⟩
    refine ⟨hlen, by rw [hsame]; exact hle, ?_⟩
    simp only
    rw [List.drop_append_of_le_length (by omega)]
    exact hpre.trans (List.prefix_append _ _)

/-- A handler that is on time: the FIFO has what has arrived, less what does not fit. -/
theorem stored_handle (hb2 : 2 ≤ b.toNat) (hb : b.toNat ≤ 2 ^ 15) (h : Stored b s g)
    (hidle : s.copying = none) {n : UInt32} (hn : n.toNat = s.rx.pending) :
    ∃ g', g ≤ g' ∧ (s.rx.pending + s.fifo.calcRecvedLen b.toNat ≤ b.toNat → g' = g) ∧
      Stored b (s.handle b (s.rx.account b n)).1 g' ∧
      (s.handle b (s.rx.account b n)).1.stream = s.stream ∧
      returned [(s.handle b (s.rx.account b n)).2] = [] := by
  have hplaced := h.placed.account n
  have hpassed := h.passed
  have hsince := h.placed.since
  have hfew := h.placed.few
  have hspans := h.spans
  rw [hspans.calcRecvedLen (by omega)]
  by_cases hzero : n = 0
  · -- Nothing has arrived, and nothing is reported.
    have hnone : s.rx.pending = 0 := by
      rw [← hn, hzero]
      rfl
    have hdrop : (s.rx.account b n).reported.drop s.rx.reported.length = [] := by
      simp [DmaRx.account, hzero]
    simp only [DmaPort.handle, hdrop]
    refine ⟨g, le_refl g, fun _ => rfl, ⟨hplaced, h.count, ?_, ?_, h.cells, ?_⟩, trivial, rfl⟩
    · simp only [DmaRx.account]
      omega
    · simp only [DmaRx.account, Nat.sub_zero]
      rw [hnone, Nat.sub_zero] at hspans
      exact hspans
    · intro recvLen data hcopy
      simp only [hidle] at hcopy
      exact absurd hcopy (by simp)
  · -- The length survives the event word, as a buffer is shorter than that can hold.
    have hlen : dmaDoneLength (dmaDoneEvent n) = s.rx.pending := by
      rw [dmaDoneLength_of_small (by omega), hn]
    have hdrop : (s.rx.account b n).reported.drop s.rx.reported.length =
        [(s.rx.pending : Int)] := by
      simp [DmaRx.account, hzero, hlen]
    have hupdate := hspans.updatePutIndex (by omega) hb (by omega : s.rx.pending ≤ b.toNat)
    simp only [DmaPort.handle, hdrop]
    -- What does not fit is what the read index is pushed past.
    refine ⟨g + (s.rx.received - s.rx.pending - g + s.rx.pending - b.toNat),
      Nat.le_add_right g _, fun hfits => ?_, ⟨hplaced, h.count, ?_, ?_, ?_, ?_⟩, trivial, rfl⟩
    · omega
    · simp only [DmaRx.account]
      omega
    · simp only [DmaRx.account, Nat.sub_zero]
      convert hupdate using 1
      omega
    · simp only [buffer_updatePutIndex]
      exact h.cells
    · intro recvLen data hcopy
      simp only [hidle] at hcopy
      exact absurd hcopy (by simp)

/-- One byte more is copied. -/
theorem stored_copy (hb2 : 2 ≤ b.toNat) (h : Stored b s g) {recvLen : Nat} {data : List UInt8}
    (hcopy : s.copying = some (recvLen, data)) (hlt : data.length < recvLen)
    (hfresh : s.rx.pending + s.fifo.calcRecvedLen b.toNat ≤ b.toNat + data.length) :
    Stored b { s with copying := some (recvLen, data ++
      [s.fifo.buffer (s.fifo.copyCell b.toNat recvLen data.length)]) } g := by
  rcases h.copied recvLen data hcopy with ⟨hlen, hle, t, ht⟩
  have hpassed := h.passed
  have hsince := h.placed.since
  have hcount := h.count
  rw [h.spans.calcRecvedLen (by omega)] at hfresh
  -- The cell still has this byte, since it has not been overwritten yet.
  have hin : g + data.length < s.stream.length := by omega
  rw [h.spans.copyCell (by omega) hle hlt, h.cells _ hin (by omega)]
  refine ⟨h.placed, hcount, hpassed, h.spans, h.cells, fun recvLen' data' hcopy' => ?_⟩
  simp only [Option.some.injEq, Prod.mk.injEq] at hcopy'
  rcases hcopy' with ⟨rfl, rfl⟩
  refine ⟨by rw [List.length_append, List.length_singleton]; omega, hle, ?_⟩
  -- The byte is the one behind those that are copied.
  have hnext : (s.stream.drop g)[data.length]? = some s.stream[g + data.length] := by
    rw [List.getElem?_drop, List.getElem?_eq_getElem hin]
  rw [← ht, List.getElem?_append_right (le_refl _), Nat.sub_self] at hnext
  rcases t with _ | ⟨x, t⟩
  · exact absurd hnext (by simp)
  · rw [List.getElem?_cons_zero, Option.some.injEq] at hnext
    refine ⟨t, ?_⟩
    rw [← ht, ← hnext, List.append_assoc, List.singleton_append]

/-- The end of a read. -/
theorem stored_return (hb2 : 2 ≤ b.toNat) (hb : b.toNat ≤ 2 ^ 15) (h : Stored b s g)
    {recvLen : Nat} {data : List UInt8} (hcopy : s.copying = some (recvLen, data))
    (hend : ¬ data.length < recvLen) :
    Stored b { s with fifo := s.fifo.updateGetIndex b.toNat recvLen, copying := none }
        (g + recvLen) ∧ data ++ s.stream.drop (g + recvLen) = s.stream.drop g := by
  rcases h.copied recvLen data hcopy with ⟨hlen, hle, t, ht⟩
  have hpassed := h.passed
  have hupdate := h.spans.updateGetIndex (by omega) hb hle
  constructor
  · refine ⟨h.placed, h.count, ?_, ?_, h.cells, fun recvLen' data' hcopy' => ?_⟩
    · simp only
      omega
    · simp only
      rwa [Nat.sub_add_eq]
    · exact absurd hcopy' (by simp)
  · -- All that was asked for has been copied.
    have hall : recvLen = data.length := by omega
    rw [← List.drop_drop, ← ht, hall, List.drop_left]

/-- What one event returns and what is left of the stream. -/
theorem dmaPort_step (hb2 : 2 ≤ b.toNat) (hb : b.toNat ≤ 2 ^ 15) (h : Stored b s g)
    {e : DmaEvent} (ho : Orderly b s e) (hs : dmaPortServe b s e = some (s', o)) :
    ∃ g', Stored b s' g' ∧
      (returned [o] ++ s'.stream.drop g').Sublist (s.stream.drop g ++ arrived [e]) ∧
      (Fits b s e → returned [o] ++ s'.stream.drop g' = s.stream.drop g ++ arrived [e]) := by
  have hpassed := h.passed
  have hcount := h.count
  -- A handler finds what has arrived, and drops what the read index is pushed past.
  have hhandler : ∀ n : UInt32, n.toNat = s.rx.pending → s.copying = none →
      s.handle b (s.rx.account b n) = (s', o) →
      ∃ g', Stored b s' g' ∧ (returned [o] ++ s'.stream.drop g').Sublist (s.stream.drop g) ∧
        (s.rx.pending + s.fifo.calcRecvedLen b.toNat ≤ b.toNat →
          returned [o] ++ s'.stream.drop g' = s.stream.drop g) := by
    intro n hn hidle hx
    rcases stored_handle hb2 hb h hidle hn with ⟨g', hle, hfits, hstored, hstream, hout⟩
    rw [hx] at hstored hstream hout
    refine ⟨g', hstored, ?_, fun hroom => ?_⟩
    · rw [hout, hstream, List.nil_append]
      exact List.drop_sublist_drop_left _ hle
    · rw [hout, hstream, List.nil_append, hfits hroom]
  cases e with
  -- The byte comes to the end of what is left.
  | arrive x =>
      simp only [dmaPortServe, Option.some.injEq, Prod.mk.injEq] at hs
      rcases hs with ⟨rfl, rfl⟩
      have hdrop : (s.stream ++ [x]).drop g = s.stream.drop g ++ [x] :=
        List.drop_append_of_le_length (by omega)
      refine ⟨g, stored_arrive h ho x, ?_, fun _ => ?_⟩
      · simp [returned, arrived, hdrop]
      · simp [returned, arrived, hdrop]
  | dmaIsr =>
      rcases hc : s.copying with _ | call
      · simp only [dmaPortServe, hc, Option.isSome_none, Bool.false_eq_true, if_false,
          Option.some.injEq] at hs
        rcases (account_of_timely h.placed).1 ho with ⟨n, haccount, hn⟩
        rw [haccount] at hs
        rcases hhandler n hn hc hs with ⟨g', hstored, hsub, heq⟩
        have hnone : arrived [.dmaIsr] = [] := rfl
        rw [hnone, List.append_nil]
        exact ⟨g', hstored, hsub, heq⟩
      · exact absurd hs (by simp [dmaPortServe, hc])
  | idleIsr =>
      rcases hc : s.copying with _ | call
      · simp only [dmaPortServe, hc, Option.isSome_none, Bool.false_eq_true, if_false,
          Option.some.injEq] at hs
        rcases (account_of_timely h.placed).2 ho with ⟨n, haccount, hn⟩
        rw [haccount] at hs
        rcases hhandler n hn hc hs with ⟨g', hstored, hsub, heq⟩
        have hnone : arrived [.idleIsr] = [] := rfl
        rw [hnone, List.append_nil]
        exact ⟨g', hstored, hsub, heq⟩
      · exact absurd hs (by simp [dmaPortServe, hc])
  | read size =>
      rcases hc : s.copying with _ | call
      · by_cases hzero : size = 0
        · simp only [dmaPortServe, hc, if_pos hzero, Option.some.injEq, Prod.mk.injEq] at hs
          rcases hs with ⟨rfl, rfl⟩
          exact ⟨g, h, by simp [returned, arrived], fun _ => by simp [returned, arrived]⟩
        · simp only [dmaPortServe, hc, if_neg hzero, Option.some.injEq, Prod.mk.injEq] at hs
          rcases hs with ⟨rfl, rfl⟩
          refine ⟨g, ⟨h.placed, hcount, hpassed, h.spans, h.cells, ?_⟩,
            by simp [returned, arrived], fun _ => by simp [returned, arrived]⟩
          intro recvLen data hcopy
          simp only [Option.some.injEq, Prod.mk.injEq] at hcopy
          rcases hcopy with ⟨rfl, rfl⟩
          -- A read takes no more than there is.
          refine ⟨Nat.zero_le _, ?_, List.nil_prefix⟩
          rw [h.spans.calcRecvedLen (by omega)]
          exact Nat.min_le_right _ _
      · exact absurd hs (by simp [dmaPortServe, hc])
  | copy =>
      rcases hc : s.copying with _ | ⟨recvLen, data⟩
      · exact absurd hs (by simp [dmaPortServe, hc])
      · by_cases hlt : data.length < recvLen
        · simp only [dmaPortServe, hc, if_pos hlt, Option.some.injEq, Prod.mk.injEq] at hs
          rcases hs with ⟨rfl, rfl⟩
          simp only [Orderly, hc] at ho
          refine ⟨g, stored_copy hb2 h hc hlt (ho hlt), ?_, fun _ => ?_⟩
          · simp [returned, arrived]
          · simp [returned, arrived]
        · -- The read is over: what it has copied leaves what is unread and is returned.
          simp only [dmaPortServe, hc, if_neg hlt, Option.some.injEq, Prod.mk.injEq] at hs
          rcases hs with ⟨rfl, rfl⟩
          rcases stored_return hb2 hb h hc hlt with ⟨hstored, hall⟩
          refine ⟨g + recvLen, hstored, ?_, fun _ => ?_⟩
          · simp [returned, arrived, hall]
          · simp [returned, arrived, hall]

theorem arrived_cons (e : DmaEvent) (events : List DmaEvent) :
    arrived (e :: events) = arrived [e] ++ arrived events := by
  simp [arrived]

/-- The same for a run. -/
theorem run_stored (hb2 : 2 ≤ b.toNat) (hb : b.toNat ≤ 2 ^ 15) {u : DmaPort}
    {events : List DmaEvent} (h : Stored b s g) (hrun : run (dmaPortStep b) s events = some u)
    (ho : Along (dmaPortStep b) (Orderly b) s events) :
    ∃ g', Stored b u g' ∧
      (returned (trace (dmaPortStep b) (dmaPortOutcome b) s events) ++ u.stream.drop g').Sublist
        (s.stream.drop g ++ arrived events) ∧
      (Along (dmaPortStep b) (Fits b) s events →
        returned (trace (dmaPortStep b) (dmaPortOutcome b) s events) ++ u.stream.drop g' =
          s.stream.drop g ++ arrived events) := by
  induction events generalizing s g with
  | nil =>
      rw [run_nil, Option.some.injEq] at hrun
      subst hrun
      exact ⟨g, h, by simp [returned, arrived], fun _ => by simp [returned, arrived]⟩
  | cons e events ih =>
      rcases run_cons_some _ hrun with ⟨s₁, hs, hrest⟩
      rcases ho with ⟨hthis, hothers⟩
      rcases hx : dmaPortServe b s e with _ | ⟨s', o⟩
      · rw [dmaPortStep, hx] at hs
        exact absurd hs (by simp)
      · have hstep : dmaPortStep b s e = some s' := by rw [dmaPortStep, hx, Option.map_some]
        have hout : dmaPortOutcome b s e = o := by rw [dmaPortOutcome, hx]
        rw [hstep, Option.some.injEq] at hs
        subst hs
        rcases dmaPort_step hb2 hb h hthis hx with ⟨g₁, h₁, hone, heq₁⟩
        rcases ih h₁ hrest (hothers s' hstep) with ⟨g', hstored, hsub, heq⟩
        rw [trace_cons _ _ hstep, hout, returned_cons, arrived_cons]
        refine ⟨g', hstored, ?_, ?_⟩
        · -- What this event returns comes before what the others do.
          have hlater := hsub.append_left (returned [o])
          have hfirst := hone.append_right (arrived events)
          rw [← List.append_assoc, ← List.append_assoc] at hlater
          rw [← List.append_assoc]
          exact hlater.trans hfirst
        · rintro ⟨hfit, hfits⟩
          rw [List.append_assoc, heq (hfits s' hstep), ← List.append_assoc, heq₁ hfit,
            List.append_assoc]

end Steps

/-- A buffer of four bytes: the DMA comes to its end while the first two bytes are read. -/
def readAtEnd : List DmaEvent :=
  [.arrive 1, .arrive 2, .idleIsr, .read 9, .copy, .arrive 3, .copy, .copy, .arrive 4, .dmaIsr]

end Uart

end Firmware
