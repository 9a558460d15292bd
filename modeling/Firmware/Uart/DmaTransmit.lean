import Firmware.Lib.Runs
import Firmware.Lib.Window

/-!
# Transmission by DMA

A port of `drivers/serial/serial.c` that transmits by DMA, with any number of threads that
write to it.

`_serial_dma_tx` puts the buffer of a write into a data queue, and if the DMA is not
active it starts it. `rt_hw_serial_isr` takes the first buffer out of the queue when the
DMA is done with it, and starts the DMA with the next one. The queue is thus the order of
the writes, and its first buffer is the one in transmission; but a thread starts the DMA
with its own buffer and never looks at the queue. Between the two steps of a write another
write can come: if the other one finds the DMA inactive, it transmits a buffer that is not
the first one, and the first one is taken out of the queue as if it had been transmitted.

The indices of the queue are numbers of 16 bits whose difference `rt_data_queue_push` takes
as a signed number, so that a queue which is full around the overflow of the write index is
not found to be.

`along_inTurn_iff` says that these two are all there is: the buffers are transmitted in the
order of the writes, each of them once, exactly if no write gets between the steps of
another one while the DMA is inactive, and none into a queue that is full.

## Main definitions

* `DataQueue`: The data queue, with `push`, `pop` and `peak`.
* `TxPort`, `txServe`: The port, its DMA and the threads.
* `InTurn`: The steps that keep the order.
* `Faithful`: The queue is what has been written and not transmitted.

## Theorems

* `Counts.push`, `Counts.pop`: The queue as a list.
* `txStep_faithful`: What the steps in turn keep.
* `txStep_not_faithful`: What any other step spoils.
* `along_inTurn_iff`: The order is kept exactly if every step is in turn.
-/

namespace Firmware

namespace Uart

/-- `struct rt_data_item`, with the number of writes before this one. -/
structure DataItem where
  dataPtr : Nat
  dataSize : Nat
  ticket : Nat
  deriving DecidableEq, Repr

/-- The size of the queue in `rt_data_queue_init` -/
abbrev queueSize : Nat := 8

/-- `struct rt_data_queue`, with indices of 16 bits. -/
structure DataQueue where
  queue : Nat → DataItem
  putIndex : Nat
  getIndex : Nat

namespace DataQueue

variable (q : DataQueue)

/-- `queue->put_index - queue->get_index == queue->size`, a difference of signed numbers -/
def isFull : Bool := (q.putIndex : Int) - q.getIndex = queueSize

/-- The part of `rt_data_queue_push` behind the wait for a free place. -/
def push (x : DataItem) : DataQueue :=
  ⟨Function.update q.queue (q.putIndex % queueSize) x, (q.putIndex + 1) % 2 ^ 16, q.getIndex⟩

/-- `rt_data_queue_peak` -/
def peak : Option DataItem :=
  if q.getIndex = q.putIndex then none else some (q.queue (q.getIndex % queueSize))

/-- `rt_data_queue_pop` with a timeout of zero: the item, if there is one, and the queue
    behind it. -/
def pop : Option DataItem × DataQueue :=
  if q.getIndex = q.putIndex then (none, q)
  else (some (q.queue (q.getIndex % queueSize)), { q with getIndex := (q.getIndex + 1) % 2 ^ 16 })

/-- The number of items. -/
def count : Nat := (q.putIndex + 2 ^ 16 - q.getIndex) % 2 ^ 16

/-- The items, the first one first. -/
def items : List DataItem := window q.queue queueSize q.getIndex q.count

end DataQueue

/-- Where a thread is in `_serial_dma_tx`: outside, behind the push, or about to start the
    DMA. -/
inductive Writing where
  | idle
  | pushed (x : DataItem)
  | starting (x : DataItem)
  deriving DecidableEq, Repr

/-- A port that is open for transmission by DMA, with its writers. What the DMA is at is
    the state of the HAL; the writes, the buffers that were transmitted and the pointers
    that were passed to `tx_complete` are written down. -/
structure TxPort (ι : Type) where
  queue : DataQueue
  activated : Bool
  inFlight : Option DataItem
  place : ι → Writing
  writes : List DataItem := []
  sent : List DataItem := []
  completed : List (Option Nat) := []

/-- The port behind `rt_serial_open`. -/
def TxPort.opened (ι : Type) : TxPort ι :=
  { queue := ⟨fun _ => ⟨0, 0, 0⟩, 0, 0⟩, activated := false, inFlight := none,
    place := fun _ => .idle }

/-- A thread writes a buffer, looks whether the DMA is active, or starts it; or the DMA is
    done. -/
inductive TxEvent (ι : Type) where
  | push (t : ι) (dataPtr dataSize : Nat)
  | check (t : ι)
  | transmit (t : ι)
  | done

section Port

variable {ι : Type} [DecidableEq ι] (s : TxPort ι)

/-- `stm32_dma_transmit` and `HAL_UART_Transmit_DMA`, which starts if it is not busy and the
    size, as a number of 16 bits, is not zero. -/
def TxPort.dmaTransmit (x : DataItem) : TxPort ι :=
  if s.inFlight = none ∧ x.dataSize % 2 ^ 16 ≠ 0 then
    { s with inFlight := some { x with dataSize := x.dataSize % 2 ^ 16 } }
  else s

/-- `rt_hw_serial_isr` for `RT_SERIAL_EVENT_TX_DMADONE`. The pointer for `tx_complete` is
    whatever it is if the queue is empty. -/
def TxPort.dmaDone (x : DataItem) : TxPort ι :=
  let (last, queue) := s.queue.pop
  let s := { s with
    queue, inFlight := none, sent := s.sent ++ [x]
    completed := s.completed ++ [last.map DataItem.dataPtr] }
  match queue.peak with
  | some next => TxPort.dmaTransmit { s with activated := true } next
  | none => { s with activated := false }

/-- `_serial_dma_tx` in its steps. A thread waits in `rt_data_queue_push` as long as the
    queue is full. -/
def txStep : TxEvent ι → Option (TxPort ι)
  | .push t dataPtr dataSize =>
      if s.place t = .idle ∧ s.queue.isFull = false then
        let x := ⟨dataPtr, dataSize, s.writes.length⟩
        some { s with
          queue := s.queue.push x, place := Function.update s.place t (.pushed x)
          writes := s.writes ++ [x] }
      else none
  | .check t =>
      match s.place t with
      | .pushed x =>
          if s.activated then some { s with place := Function.update s.place t .idle }
          else some { s with
            activated := true, place := Function.update s.place t (.starting x) }
      | _ => none
  | .transmit t =>
      match s.place t with
      | .starting x =>
          some (TxPort.dmaTransmit { s with place := Function.update s.place t .idle } x)
      | _ => none
  | .done =>
      match s.inFlight with
      | some x => some (s.dmaDone x)
      | none => none

/-- A size that `HAL_UART_Transmit_DMA` can take. -/
def Sized : TxEvent ι → Prop
  | .push _ _ dataSize => 0 < dataSize ∧ dataSize < 2 ^ 16
  | _ => True

/-- There is a place for a buffer that is written, and a thread that is about to start the
    DMA has the first buffer of the queue. -/
def InTurn : TxEvent ι → Prop
  | .push _ _ _ => s.queue.count < queueSize
  | .check t => s.activated = false → ∀ x, s.place t = .pushed x → s.queue.peak = some x
  | _ => True

end Port

/-- What the port promises: the buffers were transmitted in the order of the writes, the
    queue has the others, the DMA is at the first one of the queue, `tx_complete` was called
    for those that were transmitted, and none is left behind when everything is at rest. -/
structure Faithful {ι : Type} (s : TxPort ι) : Prop where
  sent : s.sent = s.writes.take s.sent.length
  queued : s.queue.items = s.writes.drop s.sent.length
  first : ∀ x, (s.inFlight = some x ∨ ∃ t, s.place t = .starting x) →
    s.queue.items.head? = some x
  completed : s.completed = s.sent.map fun x => some x.dataPtr
  rest : s.inFlight = none → (∀ t, s.place t = .idle) → s.sent = s.writes

/-- The indices of a queue of which `k` items have been taken out of the `n` put in. -/
structure Counts (q : DataQueue) (k n : Nat) : Prop where
  put : q.putIndex = n % 2 ^ 16
  get : q.getIndex = k % 2 ^ 16
  le : k ≤ n
  few : n ≤ k + (queueSize + 1)

section Queue

variable {q : DataQueue} {k n : Nat}

namespace Counts

theorem count_eq (h : Counts q k n) : q.count = n - k := by
  have hput := h.put
  have hget := h.get
  have hle := h.le
  have hfew : n ≤ k + 9 := h.few
  unfold DataQueue.count
  omega

theorem empty_iff (h : Counts q k n) : q.getIndex = q.putIndex ↔ k = n := by
  have hput := h.put
  have hget := h.get
  have hle := h.le
  have hfew : n ≤ k + 9 := h.few
  omega

/-- Only the counts matter for the place of an item. -/
theorem items_eq (h : Counts q k n) : q.items = window q.queue queueSize k (n - k) := by
  -- The indices run on in 16 bits, which the size of the queue divides.
  have hcell : q.getIndex % queueSize = k % queueSize := by
    rw [h.get]
    exact Nat.mod_mod_of_dvd k (by decide)
  unfold DataQueue.items
  rw [h.count_eq, ← window_mod, hcell, window_mod]

theorem peak_eq (h : Counts q k n) : q.peak = q.items.head? := by
  have hle := h.le
  have hcell : q.getIndex % queueSize = k % queueSize := by
    rw [h.get]
    exact Nat.mod_mod_of_dvd k (by decide)
  unfold DataQueue.peak
  rw [h.items_eq]
  by_cases hempty : k = n
  · rw [if_pos (h.empty_iff.mpr hempty), hempty, Nat.sub_self]
    rfl
  · have hsucc : n - k = n - k - 1 + 1 := by omega
    rw [if_neg (mt h.empty_iff.mp hempty), hsucc, window_cons, List.head?_cons, hcell]

/-- One more item. -/
theorem push (h : Counts q k n) (hroom : n ≤ k + queueSize) (x : DataItem) :
    Counts (q.push x) k (n + 1) := by
  have hput := h.put
  have hle := h.le
  refine ⟨?_, h.get, by omega, by omega⟩
  simp only [DataQueue.push]
  omega

/-- With room it comes behind the others. -/
theorem items_push (h : Counts q k n) (hroom : n < k + queueSize) (x : DataItem) :
    (q.push x).items = q.items ++ [x] := by
  have hle := h.le
  have hcell : q.putIndex % queueSize = (k + (n - k)) % queueSize := by
    rw [h.put, Nat.add_sub_cancel' hle]
    exact Nat.mod_mod_of_dvd n (by decide)
  have hsucc : n + 1 - k = n - k + 1 := by omega
  rw [(h.push (by omega) x).items_eq, h.items_eq, hsucc]
  simp only [DataQueue.push, hcell]
  exact window_store x (by omega)

/-- Without room it takes the place of the first one. -/
theorem items_push_full (h : Counts q k n) (hfull : n = k + queueSize) (x : DataItem) :
    (q.push x).items.head? = some x := by
  have hcell : q.putIndex % queueSize = k % queueSize := by
    rw [h.put, hfull, Nat.mod_mod_of_dvd _ (by decide : queueSize ∣ 2 ^ 16), Nat.add_mod_right]
  have hsucc : n + 1 - k = queueSize + 1 := by omega
  rw [(h.push (by omega) x).items_eq, hsucc, window_cons, List.head?_cons]
  simp only [DataQueue.push, hcell, Function.update_self]

/-- The first item is taken out. -/
theorem pop (h : Counts q k n) (hsome : k < n) :
    q.pop.1 = q.items.head? ∧ Counts q.pop.2 (k + 1) n ∧ q.pop.2.items = q.items.tail := by
  have hne := mt h.empty_iff.mp (by omega : k ≠ n)
  have hget := h.get
  have hle := h.le
  have hfew : n ≤ k + 9 := h.few
  have hcounts : Counts q.pop.2 (k + 1) n := by
    unfold DataQueue.pop
    rw [if_neg hne]
    exact ⟨h.put, by simp only; omega, hsome, by simp only [queueSize]; omega⟩
  refine ⟨?_, hcounts, ?_⟩
  · rw [← h.peak_eq]
    unfold DataQueue.pop DataQueue.peak
    rw [if_neg hne, if_neg hne]
  · have hqueue : q.pop.2.queue = q.queue := by
      unfold DataQueue.pop
      rw [if_neg hne]
    have hsucc : n - k = n - (k + 1) + 1 := by omega
    rw [hcounts.items_eq, h.items_eq, hqueue, hsucc, window_cons, List.tail_cons]

end Counts

end Queue

/-- The writes are numbered, of a size that can be transmitted, and the queue has room for
    those that have not been. -/
structure Numbered {ι : Type} (s : TxPort ι) : Prop where
  ticket : ∀ j (h : j < s.writes.length), s.writes[j].ticket = j
  sized : ∀ x ∈ s.writes, 0 < x.dataSize ∧ x.dataSize < 2 ^ 16
  room : s.writes.length ≤ s.sent.length + queueSize
  counts : Counts s.queue s.sent.length s.writes.length

/-- Who is to start the DMA. If it is active, it is at work or one thread is about to start
    it; and if it is not, every buffer in the queue has a thread that has yet to look. -/
structure Attended {ι : Type} (s : TxPort ι) : Prop where
  single : ∀ t x, s.place t = .starting x → s.inFlight = none ∧ s.activated = true ∧
    ∀ t' y, s.place t' = .starting y → t' = t
  busy : s.inFlight ≠ none → s.activated = true
  working : s.activated = true → s.inFlight ≠ none ∨ ∃ t x, s.place t = .starting x
  waiting : s.activated = false → ∀ x ∈ s.queue.items, ∃ t, s.place t = .pushed x

section Steps

variable {ι : Type} {s s' : TxPort ι} {t : ι} {x : DataItem}

/-- A step that does not start the DMA leaves the others that are about to. -/
theorem starting_of_update [DecidableEq ι] {place : ι → Writing} {p : Writing} {t' : ι}
    {y : DataItem} (hp : ∀ z, p ≠ .starting z) (h : Function.update place t p t' = .starting y) :
    t' ≠ t ∧ place t' = .starting y := by
  by_cases heq : t' = t
  · subst heq
    rw [Function.update_self] at h
    exact absurd h (hp y)
  · rw [Function.update_of_ne heq] at h
    exact ⟨heq, h⟩

theorem dmaTransmit_eq (hidle : s.inFlight = none)
    (hx : 0 < x.dataSize ∧ x.dataSize < 2 ^ 16) :
    s.dmaTransmit x = { s with inFlight := some x } := by
  have hmod : x.dataSize % 2 ^ 16 = x.dataSize := Nat.mod_eq_of_lt hx.2
  unfold TxPort.dmaTransmit
  rw [hmod, if_pos ⟨hidle, by omega⟩]

/-- The first item of the queue is the oldest write that has not been transmitted. -/
theorem items_of_head (hN : Numbered s) (hF : Faithful s) (h : s.queue.items.head? = some x) :
    s.sent.length < s.writes.length ∧ s.queue.items = x :: s.writes.drop (s.sent.length + 1) ∧
      s.writes[s.sent.length]? = some x := by
  have hle := hN.counts.le
  rw [hF.queued, List.head?_drop] at h
  have hlt := (List.getElem?_eq_some_iff.mp h).1
  refine ⟨hlt, ?_, h⟩
  rw [hF.queued, List.drop_eq_getElem_cons hlt]
  rw [List.getElem?_eq_getElem hlt, Option.some.injEq] at h
  rw [h]

theorem sized_of_head (hN : Numbered s) (hF : Faithful s) (h : s.queue.items.head? = some x) :
    0 < x.dataSize ∧ x.dataSize < 2 ^ 16 :=
  hN.sized x (List.mem_of_getElem? (items_of_head hN hF h).2.2)

variable [DecidableEq ι]

/-- A write for which there is a place. -/
theorem push_kept (hN : Numbered s) (hA : Attended s) (hF : Faithful s) {dataPtr dataSize : Nat}
    (hsz : 0 < dataSize ∧ dataSize < 2 ^ 16) (hidle : s.place t = .idle)
    (hroom : s.queue.count < queueSize) (hx : x = ⟨dataPtr, dataSize, s.writes.length⟩) :
    let s' := { s with
      queue := s.queue.push x, place := Function.update s.place t (.pushed x)
      writes := s.writes ++ [x] }
    Numbered s' ∧ Attended s' ∧ Faithful s' := by
  have hle := hN.counts.le
  rw [hN.counts.count_eq] at hroom
  have hitems := hN.counts.items_push (by omega) x
  have hother : ∀ z, Writing.pushed x ≠ .starting z := fun z => by simp
  refine ⟨⟨fun j hj => ?_, fun y hy => ?_, ?_, ?_⟩, ⟨?_, hA.busy, fun ha => ?_, fun ha y hy => ?_⟩,
    ⟨?_, ?_, fun y hy => ?_, hF.completed, fun _ hrest => ?_⟩⟩
  · -- The last write has the next number.
    simp only [List.length_append, List.length_singleton] at hj
    by_cases hlast : j < s.writes.length
    · simp only [List.getElem_append_left hlast]
      exact hN.ticket j hlast
    · have heq : j = s.writes.length := by omega
      subst heq
      simp [hx]
  · rcases List.mem_append.mp hy with hy | hy
    · exact hN.sized y hy
    · rw [List.mem_singleton.mp hy, hx]
      exact hsz
  · simp only [List.length_append, List.length_singleton]
    omega
  · simp only [List.length_append, List.length_singleton]
    exact hN.counts.push (by omega) x
  · -- Whoever is about to start the DMA still is, and alone.
    intro t₁ y hy
    rcases starting_of_update hother hy with ⟨-, hy'⟩
    rcases hA.single t₁ y hy' with ⟨hnone, hact, hall⟩
    exact ⟨hnone, hact, fun t₂ z hz => hall t₂ z (starting_of_update hother hz).2⟩
  · rcases hA.working ha with hsome | ⟨t₁, y, hy⟩
    · exact .inl hsome
    · have hne : t₁ ≠ t := fun heq => by
        rw [heq, hidle] at hy
        exact absurd hy (by simp)
      exact .inr ⟨t₁, y, by simp only [Function.update_of_ne hne, hy]⟩
  · simp only [hitems, List.mem_append, List.mem_singleton] at hy
    rcases hy with hy | rfl
    · rcases hA.waiting ha y hy with ⟨t₁, ht₁⟩
      have hne : t₁ ≠ t := fun heq => by
        rw [heq, hidle] at ht₁
        exact absurd ht₁ (by simp)
      exact ⟨t₁, by simp only [Function.update_of_ne hne, ht₁]⟩
    · -- The new buffer has the thread that has just pushed it.
      exact ⟨t, by simp only [Function.update_self]⟩
  · simp only
    rw [List.take_append_of_le_length hle]
    exact hF.sent
  · simp only [hitems]
    rw [hF.queued, List.drop_append_of_le_length hle]
  · -- A buffer behind the others does not become the first.
    have hold : s.queue.items.head? = some y := by
      rcases hy with hy | ⟨t₁, ht₁⟩
      · exact hF.first y (.inl hy)
      · exact hF.first y (.inr ⟨t₁, (starting_of_update hother ht₁).2⟩)
    simp only [hitems, List.head?_append, hold, Option.some_or]
  · have hthis := hrest t
    simp only [Function.update_self] at hthis
    exact absurd hthis (by simp)

/-- A thread that finds the DMA active, or has the first buffer of the queue. -/
theorem check_kept (hN : Numbered s) (hA : Attended s) (hF : Faithful s)
    (hplace : s.place t = .pushed x) :
    (s.activated = true →
      let s' := { s with place := Function.update s.place t .idle }
      Numbered s' ∧ Attended s' ∧ Faithful s') ∧
    (s.activated = false → s.queue.peak = some x →
      let s' := { s with activated := true, place := Function.update s.place t (.starting x) }
      Numbered s' ∧ Attended s' ∧ Faithful s') := by
  constructor
  · intro hact
    have hother : ∀ z, Writing.idle ≠ .starting z := fun z => by simp
    -- The thread was not the one that is about to start the DMA.
    have hkeep : ∀ t₁ y, s.place t₁ = .starting y →
        Function.update s.place t .idle t₁ = .starting y := fun t₁ y hy => by
      have hne : t₁ ≠ t := fun heq => by
        rw [heq, hplace] at hy
        exact absurd hy (by simp)
      rw [Function.update_of_ne hne, hy]
    refine ⟨⟨hN.ticket, hN.sized, hN.room, hN.counts⟩,
      ⟨fun t₁ y hy => ?_, hA.busy, fun _ => ?_, fun ha => ?_⟩,
      ⟨hF.sent, hF.queued, fun y hy => ?_, hF.completed, fun hnone hrest => ?_⟩⟩
    · rcases hA.single t₁ y (starting_of_update hother hy).2 with ⟨hnone, -, hall⟩
      exact ⟨hnone, hact, fun t₂ z hz => hall t₂ z (starting_of_update hother hz).2⟩
    · rcases hA.working hact with hsome | ⟨t₁, y, hy⟩
      · exact .inl hsome
      · exact .inr ⟨t₁, y, hkeep t₁ y hy⟩
    · simp only [hact] at ha
      exact absurd ha (by simp)
    · rcases hy with hy | ⟨t₁, ht₁⟩
      · exact hF.first y (.inl hy)
      · exact hF.first y (.inr ⟨t₁, (starting_of_update hother ht₁).2⟩)
    · rcases hA.working hact with hsome | ⟨t₁, y, hy⟩
      · exact absurd hnone hsome
      · have hidle := hrest t₁
        simp only [hkeep t₁ y hy] at hidle
        exact absurd hidle (by simp)
  · intro hact hpeak
    rw [hN.counts.peak_eq] at hpeak
    -- The DMA is not active, so it is not at work either.
    have hnone : s.inFlight = none := by
      by_contra hsome
      rw [hA.busy hsome] at hact
      exact absurd hact (by simp)
    -- Nobody else is about to start the DMA.
    have honly : ∀ t₁ y, Function.update s.place t (.starting x) t₁ = .starting y →
        t₁ = t ∧ y = x := by
      intro t₁ y hy
      by_cases heq : t₁ = t
      · subst heq
        rw [Function.update_self, Writing.starting.injEq] at hy
        exact ⟨rfl, hy.symm⟩
      · rw [Function.update_of_ne heq] at hy
        rw [(hA.single t₁ y hy).2.1] at hact
        exact absurd hact (by simp)
    refine ⟨⟨hN.ticket, hN.sized, hN.room, hN.counts⟩,
      ⟨fun t₁ y hy => ?_, fun _ => rfl, fun _ => .inr ⟨t, x, ?_⟩, fun ha => ?_⟩,
      ⟨hF.sent, hF.queued, fun y hy => ?_, hF.completed, fun _ hrest => ?_⟩⟩
    · rcases honly t₁ y hy with ⟨rfl, -⟩
      exact ⟨hnone, rfl, fun t₂ z hz => (honly t₂ z hz).1⟩
    · simp only [Function.update_self]
    · exact absurd ha (by simp)
    · rcases hy with hy | ⟨t₁, ht₁⟩
      · simp only [hnone] at hy
        exact absurd hy (by simp)
      · rw [(honly t₁ y ht₁).2]
        exact hpeak
    · have hthis := hrest t
      simp only [Function.update_self] at hthis
      exact absurd hthis (by simp)

/-- The thread that starts the DMA. -/
theorem transmit_kept (hN : Numbered s) (hA : Attended s) (hF : Faithful s)
    (hplace : s.place t = .starting x) :
    let s' := TxPort.dmaTransmit { s with place := Function.update s.place t .idle } x
    Numbered s' ∧ Attended s' ∧ Faithful s' := by
  rcases hA.single t x hplace with ⟨hnone, hact, hall⟩
  have hhead := hF.first x (.inr ⟨t, hplace⟩)
  have hother : ∀ z, Writing.idle ≠ .starting z := fun z => by simp
  have hgone : ∀ t₁ y, Function.update s.place t .idle t₁ ≠ .starting y := by
    intro t₁ y hy
    rcases starting_of_update hother hy with ⟨hne, hy'⟩
    exact hne (hall t₁ y hy')
  have hstart := dmaTransmit_eq (s := { s with place := Function.update s.place t .idle }) hnone
    (sized_of_head hN hF hhead)
  simp only [hstart]
  refine ⟨⟨hN.ticket, hN.sized, hN.room, hN.counts⟩,
    ⟨fun t₁ y hy => absurd hy (hgone t₁ y), fun _ => hact, fun _ => .inl (by simp),
      fun ha => ?_⟩,
    ⟨hF.sent, hF.queued, fun y hy => ?_, hF.completed, fun hidle => ?_⟩⟩
  · simp only [hact] at ha
    exact absurd ha (by simp)
  · rcases hy with hy | ⟨t₁, ht₁⟩
    · rw [← hy]
      exact hhead
    · exact absurd ht₁ (hgone t₁ y)
  · exact absurd hidle (by simp)

omit [DecidableEq ι] in
/-- The DMA is done with a buffer and goes on with the next one. -/
theorem done_kept (hN : Numbered s) (hA : Attended s) (hF : Faithful s)
    (hflight : s.inFlight = some x) :
    Numbered (s.dmaDone x) ∧ Attended (s.dmaDone x) ∧ Faithful (s.dmaDone x) := by
  have hhead := hF.first x (.inl hflight)
  rcases items_of_head hN hF hhead with ⟨hlt, hitems, hget⟩
  rcases hN.counts.pop hlt with ⟨hlast, hcounts, htail⟩
  rw [hhead] at hlast
  rw [hitems, List.tail_cons] at htail
  have hnobody : ∀ t₁ y, s.place t₁ ≠ .starting y := by
    intro t₁ y hy
    rw [(hA.single t₁ y hy).1] at hflight
    exact absurd hflight (by simp)
  have hsent : s.sent ++ [x] = s.writes.take (s.sent.length + 1) := by
    rw [List.take_add_one, hget, Option.toList_some, ← hF.sent]
  -- What the port is, but for the DMA.
  have hN' : ∀ a f, Numbered { s with
      queue := s.queue.pop.2, activated := a, inFlight := f, sent := s.sent ++ [x]
      completed := s.completed ++ [some x.dataPtr] } := by
    intro a f
    have hroom := hN.room
    refine ⟨hN.ticket, hN.sized, ?_, ?_⟩
    · simp only [List.length_append, List.length_singleton]
      omega
    · simp only [List.length_append, List.length_singleton]
      exact hcounts
  unfold TxPort.dmaDone
  simp only [hlast, Option.map_some]
  rcases hnext : s.queue.pop.2.peak with _ | y
  · -- The queue is empty, and everything has been transmitted.
    rw [hcounts.peak_eq, htail, List.head?_eq_none_iff] at hnext
    refine ⟨hN' false none, ⟨fun t₁ y hy => absurd hy (hnobody t₁ y), fun hsome => ?_, fun ha => ?_,
      fun _ y hy => ?_⟩, ⟨?_, ?_, fun y hy => ?_, ?_, fun _ _ => ?_⟩⟩
    · exact absurd rfl hsome
    · exact absurd ha (by simp)
    · simp only [htail, hnext] at hy
      exact absurd hy (by simp)
    · simp only [List.length_append, List.length_singleton]
      exact hsent
    · simp only [List.length_append, List.length_singleton, htail]
    · rcases hy with hy | ⟨t₁, ht₁⟩
      · exact absurd hy (by simp)
      · exact absurd ht₁ (hnobody t₁ y)
    · simp only [hF.completed, List.map_append, List.map_singleton]
    · simp only [hsent]
      exact List.take_of_length_le (List.drop_eq_nil_iff.mp hnext)
  · -- The handler starts the DMA with the next buffer itself.
    rw [hcounts.peak_eq] at hnext
    have hsized : 0 < y.dataSize ∧ y.dataSize < 2 ^ 16 := by
      refine hN.sized y (List.mem_of_mem_drop (i := s.sent.length + 1) ?_)
      rw [← htail]
      exact List.mem_of_head? hnext
    have hstart := dmaTransmit_eq (s := { s with
      queue := s.queue.pop.2, activated := true, inFlight := none, sent := s.sent ++ [x]
      completed := s.completed ++ [some x.dataPtr] }) rfl hsized
    simp only [hstart]
    refine ⟨hN' true (some y), ⟨fun t₁ z hz => absurd hz (hnobody t₁ z), fun _ => rfl,
      fun _ => .inl (by simp), fun ha => absurd ha (by simp)⟩,
      ⟨?_, ?_, fun z hz => ?_, ?_, fun hnone => absurd hnone (by simp)⟩⟩
    · simp only [List.length_append, List.length_singleton]
      exact hsent
    · simp only [List.length_append, List.length_singleton, htail]
    · rcases hz with hz | ⟨t₁, ht₁⟩
      · simp only [Option.some.injEq] at hz
        rw [← hz]
        exact hnext
      · exact absurd ht₁ (hnobody t₁ z)
    · simp only [hF.completed, List.map_append, List.map_singleton]

/-- A step in turn keeps what the port promises. -/
theorem txStep_faithful {e : TxEvent ι} (hN : Numbered s) (hA : Attended s) (hF : Faithful s)
    (hsz : Sized e) (hG : InTurn s e) (hs : txStep s e = some s') :
    Numbered s' ∧ Attended s' ∧ Faithful s' := by
  cases e with
  | push t dataPtr dataSize =>
      by_cases hfree : s.place t = .idle ∧ s.queue.isFull = false
      · simp only [txStep, if_pos hfree, Option.some.injEq] at hs
        subst hs
        exact push_kept hN hA hF hsz hfree.1 hG rfl
      · simp only [txStep, if_neg hfree] at hs
        exact absurd hs (by simp)
  | check t =>
      rcases hplace : s.place t with _ | x | x
      · exact absurd hs (by simp [txStep, hplace])
      · rcases check_kept hN hA hF hplace with ⟨hactive, hidle⟩
        rcases hact : s.activated with _ | _
        · simp only [txStep, hplace, hact, Bool.false_eq_true, if_false, Option.some.injEq] at hs
          subst hs
          exact hidle hact (hG hact x hplace)
        · simp only [txStep, hplace, hact, if_true, Option.some.injEq] at hs
          subst hs
          have hkept := hactive hact
          simp only [hact] at hkept
          exact hkept
      · exact absurd hs (by simp [txStep, hplace])
  | transmit t =>
      rcases hplace : s.place t with _ | x | x
      · exact absurd hs (by simp [txStep, hplace])
      · exact absurd hs (by simp [txStep, hplace])
      · simp only [txStep, hplace, Option.some.injEq] at hs
        subst hs
        exact transmit_kept hN hA hF hplace
  | done =>
      rcases hflight : s.inFlight with _ | x
      · exact absurd hs (by simp [txStep, hflight])
      · simp only [txStep, hflight, Option.some.injEq] at hs
        subst hs
        exact done_kept hN hA hF hflight

/-- A step out of turn breaks it at once. -/
theorem txStep_not_faithful {e : TxEvent ι} (hN : Numbered s)
    (hG : ¬ InTurn s e) (hs : txStep s e = some s') : ¬ Faithful s' := by
  intro hF'
  cases e with
  | push t dataPtr dataSize =>
      by_cases hfree : s.place t = .idle ∧ s.queue.isFull = false
      · simp only [txStep, if_pos hfree, Option.some.injEq] at hs
        subst hs
        simp only [InTurn, hN.counts.count_eq] at hG
        have hroom := hN.room
        have hle := hN.counts.le
        have hfull : s.writes.length = s.sent.length + queueSize := by omega
        have hlt : s.sent.length < s.writes.length := by rw [hfull, queueSize]; omega
        -- The new buffer is where the first one was.
        have hfirst := hN.counts.items_push_full hfull ⟨dataPtr, dataSize, s.writes.length⟩
        have hqueued := hF'.queued
        simp only at hqueued
        rw [hqueued, List.head?_drop, List.getElem?_append_left hlt,
          List.getElem?_eq_getElem hlt, Option.some.injEq] at hfirst
        have hticket := hN.ticket s.sent.length hlt
        rw [hfirst] at hticket
        simp only at hticket
        omega
      · simp only [txStep, if_neg hfree] at hs
        exact absurd hs (by simp)
  | check t =>
      simp only [InTurn, not_forall] at hG
      rcases hG with ⟨hact, x, hplace, hpeak⟩
      simp only [txStep, hplace, hact, Bool.false_eq_true, if_false, Option.some.injEq] at hs
      subst hs
      -- The thread is about to start the DMA, and not with the first buffer.
      have hfirst := hF'.first x (.inr ⟨t, by simp only [Function.update_self]⟩)
      simp only at hfirst
      rw [hN.counts.peak_eq] at hpeak
      exact hpeak hfirst
  | transmit t => exact hG trivial
  | done => exact hG trivial

end Steps

/-- Two threads write, one after the other, while the DMA is at work. -/
def takingTurns : List (TxEvent Bool) :=
  [.push false 100 3, .check false, .push true 200 5, .transmit false, .check true, .done, .done]

/-- The same two, the second of which gets between the push and the check of the first. -/
def overtaking : List (TxEvent Bool) :=
  [.push false 100 3, .push true 200 5, .check true, .transmit true, .done, .check false, .done]

-- Its buffer is transmitted twice, and that of the first one never.
example : ∃ u, run txStep (.opened Bool) overtaking = some u ∧
    u.sent.map DataItem.dataPtr = [200, 200] ∧ u.queue.items = [] :=
  ⟨_, rfl, rfl, rfl⟩

end Uart

end Firmware
