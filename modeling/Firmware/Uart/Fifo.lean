import Firmware.Lib.Runs
import Firmware.Lib.Window

/-!
# The Receive FIFO

The software FIFO of `drivers/serial/serial.c` for a port that receives by interrupt:
`rt_hw_serial_isr` puts the bytes of the port into it, and `_serial_int_rx`, in a thread,
takes them out.

The thread masks interrupts for one byte at a time, so that the handler can run between
any two bytes of a read and put in as many bytes as the port has. A FIFO that is full
forgets its oldest byte. Whether it is full cannot be read off its two indices, which is
what `is_full` is for; but the handler moves the read index on when the two meet, and what
the flag then says is wrong from the next byte read on. `port_refines` says that all this
is nothing but a queue of the last bytes: for every sequence of interrupts and reads, and
wherever the interrupts fall, the port returns what a port with a list returns. The list
keeps one byte less than the buffer has, save for a buffer of a single byte, which does
hold one, though no thread is ever told of it.

## Main definitions

* `RxFifo`: The software FIFO.
* `RxFifo.put`, `RxFifo.take`, `RxFifo.rxLength`: What the two sides do to it.
* `Queue`: What a port needs of its FIFO.
* `SerialPort`, `portStep`: The port and its thread.
* `lastBytes`: The queue that the FIFO is.

## Theorems

* `Holds.put_byte`, `Holds.take_byte`: The FIFO against the list.
* `port_refines`: The port returns what a port with a list returns.
* `handed_in_order`: Bytes come out in the order they went in, and all of them if there was
  room for them.
-/

namespace Firmware

namespace Uart

/-- `struct rt_serial_rx_fifo`. The buffer is the memory behind its address. -/
structure RxFifo where
  buffer : Nat → UInt8
  putIndex : Nat
  getIndex : Nat
  isFull : Bool

namespace RxFifo

/-- The FIFO that `rt_serial_open` sets up. -/
def opened : RxFifo := ⟨fun _ => 0, 0, 0, false⟩

section

variable (bufsz : Nat) (f : RxFifo)

/-- An index of 16 bits is moved on, and back to zero at the end of the buffer. -/
def nextIndex (i : Nat) : Nat :=
  let i := (i + 1) % 2 ^ 16
  if bufsz ≤ i then 0 else i

/-- What `rt_hw_serial_isr` does with a byte. -/
def put (ch : UInt8) : RxFifo :=
  let putIndex := nextIndex bufsz f.putIndex
  let buffer := Function.update f.buffer f.putIndex ch
  -- If the next position is the read index, the oldest byte is discarded.
  if putIndex = f.getIndex then ⟨buffer, putIndex, nextIndex bufsz f.getIndex, true⟩
  else ⟨buffer, putIndex, f.getIndex, f.isFull⟩

/-- One turn of the loop of `_serial_int_rx`, which ends if there is no data. -/
def take : Option (UInt8 × RxFifo) :=
  if f.getIndex = f.putIndex ∧ f.isFull = false then none
  else some (f.buffer f.getIndex, ⟨f.buffer, f.putIndex, nextIndex bufsz f.getIndex, false⟩)

/-- `rx_length` of `rt_hw_serial_isr` -/
def rxLength : Nat :=
  if f.getIndex ≤ f.putIndex then f.putIndex - f.getIndex
  else bufsz - (f.getIndex - f.putIndex)

/-- `_serial_fifo_calc_recved_len` -/
def calcRecvedLen : Nat :=
  if f.putIndex = f.getIndex then (if f.isFull = false then 0 else bufsz)
  else if f.getIndex < f.putIndex then f.putIndex - f.getIndex
  else bufsz - (f.getIndex - f.putIndex)

end

end RxFifo

/-- What a port needs of its queue: to append a byte, to take the first one, and the
    length that it passes on to `rx_indicate`. -/
structure Queue (σ : Type) where
  put : σ → UInt8 → σ
  take : σ → Option (UInt8 × σ)
  rxLength : σ → Nat

/-- The software FIFO. -/
def softFifo (bufsz : Nat) : Queue RxFifo :=
  ⟨RxFifo.put bufsz, RxFifo.take bufsz, RxFifo.rxLength bufsz⟩

/-- How many bytes a FIFO holds. -/
def room (bufsz : Nat) : Nat := max 1 (bufsz - 1)

/-- A queue of the last bytes. Of a single byte in a buffer of one nobody is told. -/
def lastBytes (bufsz : Nat) : Queue (List UInt8) where
  put := recent (room bufsz)
  take := fun q =>
    match q with
    | [] => none
    | ch :: q => some (ch, q)
  rxLength := fun q => if bufsz = 1 then 0 else q.length

/-- A port that is open for reception by interrupt. Within a call of `_serial_int_rx`,
    there are the bytes that are still wanted and those it has. -/
structure SerialPort (σ : Type) where
  fifo : σ
  call : Option (Nat × List UInt8) := none

/-- A receive interrupt with the bytes that `getc` returns in it, a call of
    `rt_serial_read`, or a turn of its loop. -/
inductive PortEvent where
  | rxInd (chars : List UInt8)
  | read (size : Nat)
  | turn

/-- What comes of it: a call of `rx_indicate`, or the bytes that a read returns. -/
inductive PortOutcome where
  | silent
  | indicated (length : Nat)
  | returned (data : List UInt8)
  deriving DecidableEq

section Port

variable {σ : Type} (Q : Queue σ)

/-- `rt_hw_serial_isr` for `RT_SERIAL_EVENT_RX_IND` -/
def rxInd (f : σ) (chars : List UInt8) : σ × PortOutcome :=
  let f := chars.foldl Q.put f
  (f, if Q.rxLength f = 0 then .silent else .indicated (Q.rxLength f))

/-- `rt_serial_read`, and `_serial_int_rx` turn by turn. -/
def portServe (s : SerialPort σ) : PortEvent → Option (SerialPort σ × PortOutcome)
  | .rxInd chars =>
      let (fifo, outcome) := rxInd Q s.fifo chars
      some ({ s with fifo }, outcome)
  | .read size =>
      match s.call with
      | some _ => none
      | none =>
          if size = 0 then some (s, .returned [])
          else some ({ s with call := some (size, []) }, .silent)
  | .turn =>
      match s.call with
      | none => none
      | some (0, data) => some ({ s with call := none }, .returned data)
      | some (length + 1, data) =>
          match Q.take s.fifo with
          | none => some ({ s with call := none }, .returned data)
          | some (ch, fifo) => some ({ fifo, call := some (length, data ++ [ch]) }, .silent)

def portStep (s : SerialPort σ) (e : PortEvent) : Option (SerialPort σ) :=
  (portServe Q s e).map Prod.fst

def portOutcome (s : SerialPort σ) (e : PortEvent) : PortOutcome :=
  match portServe Q s e with
  | some (_, outcome) => outcome
  | none => .silent

/-- The bytes of the interrupts. -/
def received (events : List PortEvent) : List UInt8 :=
  events.flatMap fun
    | .rxInd chars => chars
    | _ => []

/-- The bytes that the reads have returned. -/
def returned (outcomes : List PortOutcome) : List UInt8 :=
  outcomes.flatMap fun
    | .returned data => data
    | _ => []

/-- The bytes of the read that is under way. -/
def SerialPort.got (s : SerialPort σ) : List UInt8 :=
  match s.call with
  | none => []
  | some (_, data) => data

end Port

/-- The FIFO holds the bytes of a list. -/
structure Holds (bufsz : Nat) (f : RxFifo) (q : List UInt8) : Prop where
  get_lt : f.getIndex < bufsz
  length : q.length ≤ room bufsz
  put : f.putIndex = (f.getIndex + q.length) % bufsz
  bytes : window f.buffer bufsz f.getIndex q.length = q
  empty : q = [] → f.isFull = false
  -- The indices of a buffer of one byte are always equal.
  single : q ≠ [] → bufsz = 1 → f.isFull = true

section Refinement

variable {bufsz : Nat} {f : RxFifo} {q : List UInt8}

theorem holds_opened (h : 0 < bufsz) : Holds bufsz .opened [] :=
  ⟨h, Nat.zero_le _, (Nat.zero_mod _).symm, rfl, fun _ => rfl, fun h => absurd rfl h⟩

theorem nextIndex_eq {i : Nat} (hsz : bufsz < 2 ^ 16) (h : i < bufsz) :
    RxFifo.nextIndex bufsz i = (i + 1) % bufsz := by
  rw [RxFifo.nextIndex, Nat.mod_eq_of_lt (by omega)]
  exact wrap_succ h

theorem room_le (h : 0 < bufsz) : room bufsz ≤ bufsz := by
  unfold room
  omega

namespace Holds

theorem put_lt (h : Holds bufsz f q) : f.putIndex < bufsz := by
  rw [h.put]
  exact Nat.mod_lt _ (Nat.zero_lt_of_lt h.get_lt)

/-- The indices are equal if the FIFO is empty, or of one byte. -/
theorem meet_iff (h : Holds bufsz f q) : f.getIndex = f.putIndex ↔ q = [] ∨ bufsz = 1 := by
  have hget := h.get_lt
  have hput := h.put_lt
  have hlen := h.length
  have hmeet := mod_eq_self_iff hget (le_trans hlen (room_le (Nat.zero_lt_of_lt hget)))
  rw [← h.put, eq_comm, List.length_eq_zero_iff] at hmeet
  constructor
  · intro heq
    rcases hmeet.mp heq with hnil | hall
    · exact .inl hnil
    · -- All cells in use: this the code prevents in every buffer but that of one byte.
      unfold room at hlen
      exact .inr (by omega)
  · rintro (hnil | hone)
    · exact hmeet.mpr (.inl hnil)
    · omega

/-- A turn of the read loop finds no data exactly if there is none. -/
theorem no_data_iff (h : Holds bufsz f q) :
    (f.getIndex = f.putIndex ∧ f.isFull = false) ↔ q = [] := by
  rw [h.meet_iff]
  constructor
  · rintro ⟨hnil | hone, hfull⟩
    · exact hnil
    · by_contra hne
      have hset := h.single hne hone
      rw [hfull] at hset
      exact absurd hset (by decide)
  · exact fun hnil => ⟨.inl hnil, h.empty hnil⟩

/-- The byte of an interrupt. -/
theorem put_byte (hsz : bufsz < 2 ^ 16) (h : Holds bufsz f q) (ch : UInt8) :
    Holds bufsz (f.put bufsz ch) (recent (room bufsz) q ch) := by
  have hget := h.get_lt
  have hpos := Nat.zero_lt_of_lt hget
  have hlen := h.length
  have hnext : RxFifo.nextIndex bufsz f.putIndex = (f.getIndex + (q.length + 1)) % bufsz := by
    rw [nextIndex_eq hsz h.put_lt, h.put, Nat.mod_add_mod, Nat.add_assoc]
  -- There is room while the index behind the new byte is not that of the oldest one.
  by_cases hroom : q.length + 1 < bufsz
  · have hne : RxFifo.nextIndex bufsz f.putIndex ≠ f.getIndex := by
      rw [hnext, Ne, mod_eq_self_iff hget (by omega)]
      omega
    have hlast : q.length < room bufsz := by
      unfold room
      omega
    simp only [RxFifo.put, if_neg hne]
    rw [recent_room ch hlast]
    refine ⟨hget, ?_, ?_, ?_, fun hnil => ?_, fun _ hone => ?_⟩
    · rw [List.length_append, List.length_singleton]
      omega
    · rw [List.length_append, List.length_singleton]
      exact hnext
    · rw [List.length_append, List.length_singleton]
      simp only [h.put]
      rw [window_store ch (by omega), h.bytes]
    · exact absurd hnil (by simp)
    · omega
  · by_cases hone : bufsz = 1
    · -- A single byte replaces the one there is.
      subst hone
      have hzero : f.putIndex = 0 := Nat.lt_one_iff.mp h.put_lt
      have hzero' : f.getIndex = 0 := Nat.lt_one_iff.mp hget
      have hq : recent (room 1) q ch = [ch] := by
        rcases q with _ | ⟨x, q⟩
        · rfl
        · have htail : q = [] := List.length_eq_zero_iff.mp (by
            rw [List.length_cons] at hlen
            exact Nat.le_zero.mp (Nat.le_of_succ_le_succ hlen))
          subst htail
          rfl
      have hwrap : RxFifo.nextIndex 1 0 = 0 := rfl
      rw [hq]
      simp only [RxFifo.put, hzero, hzero', hwrap, if_true]
      refine ⟨Nat.one_pos, le_refl _, (Nat.mod_one _).symm, ?_, fun hnil => ?_, fun _ _ => rfl⟩
      · simp [window]
      · exact absurd hnil (by simp)
    · -- The last free cell is filled, and the oldest byte given up.
      have hlast : q.length + 1 = bufsz := by
        unfold room at hlen
        omega
      have hfull : q.length = room bufsz := by
        unfold room
        omega
      have hmeet : RxFifo.nextIndex bufsz f.putIndex = f.getIndex := by
        rw [hnext, hlast, Nat.add_mod_right, Nat.mod_eq_of_lt hget]
      have hlen' : (q.tail ++ [ch]).length = q.length := by
        rw [List.length_append, List.length_singleton, List.length_tail]
        omega
      simp only [RxFifo.put, if_pos hmeet, nextIndex_eq hsz hget]
      rw [recent_full ch (by unfold room; omega) hfull]
      refine ⟨Nat.mod_lt _ hpos, by rw [hlen']; exact hlen, ?_, ?_, fun hnil => ?_,
        fun _ hone' => absurd hone' hone⟩
      · rw [hlen', hmeet]
        simp only [Nat.mod_add_mod]
        rw [Nat.add_assoc, Nat.add_comm 1, hlast, Nat.add_mod_right, Nat.mod_eq_of_lt hget]
      · -- With the new byte the window is one too long, and loses its first byte with
        -- `get_index`.
        have hstore : window (Function.update f.buffer f.putIndex ch) bufsz f.getIndex
            (q.length + 1) = window f.buffer bufsz f.getIndex q.length ++ [ch] := by
          rw [h.put]
          exact window_store ch (by omega)
        rw [h.bytes, window_cons] at hstore
        rw [hlen', window_mod, ← List.tail_append_of_ne_nil, ← hstore, List.tail_cons]
        exact List.ne_nil_of_length_pos (by omega)
      · exact absurd hnil (by simp)

/-- A turn of the read loop. -/
theorem take_byte (hsz : bufsz < 2 ^ 16) (h : Holds bufsz f q) :
    (q = [] ∧ f.take bufsz = none) ∨
      ∃ ch q' f', q = ch :: q' ∧ f.take bufsz = some (ch, f') ∧ Holds bufsz f' q' := by
  have hget := h.get_lt
  have hlen := h.length
  have hbytes := h.bytes
  rcases q with _ | ⟨ch, q⟩
  · exact .inl ⟨rfl, if_pos (h.no_data_iff.mpr rfl)⟩
  · -- The window begins with the byte at `get_index`, which is the oldest one.
    have hdata := mt h.no_data_iff.mp (List.cons_ne_nil ch q)
    rw [List.length_cons, window_cons, Nat.mod_eq_of_lt hget, List.cons.injEq] at hbytes
    rw [List.length_cons] at hlen
    refine .inr ⟨ch, q, _, rfl, by rw [RxFifo.take, if_neg hdata, hbytes.1], ?_⟩
    simp only [nextIndex_eq hsz hget]
    refine ⟨Nat.mod_lt _ (Nat.zero_lt_of_lt hget), by omega, ?_, ?_, fun _ => rfl,
      fun hne hone => ?_⟩
    · have hput := h.put
      rw [List.length_cons] at hput
      simp only [hput, Nat.mod_add_mod]
      congr 1
      omega
    · rw [window_mod]
      exact hbytes.2
    · -- A buffer of one byte is empty now.
      have hpos := List.length_pos_of_ne_nil hne
      unfold room at hlen
      omega

/-- The length that the handler tells the thread's side. -/
theorem rxLength_eq (h : Holds bufsz f q) :
    f.rxLength bufsz = if bufsz = 1 then 0 else q.length := by
  have hget := h.get_lt
  have hlen := h.length
  by_cases hone : bufsz = 1
  · -- Both indices are zero, so the handler counts nothing although a byte has come in.
    have hput := h.put_lt
    rw [if_pos hone, RxFifo.rxLength, if_pos (by omega)]
    omega
  · rw [if_neg hone, RxFifo.rxLength, h.put]
    exact length_of_mod hget (by unfold room at hlen; omega)

/-- The number of bytes. -/
theorem calcRecvedLen_eq (h : Holds bufsz f q) : f.calcRecvedLen bufsz = q.length := by
  have hlen := h.length
  have hget := h.get_lt
  by_cases hmeet : f.getIndex = f.putIndex
  · rw [RxFifo.calcRecvedLen, if_pos hmeet.symm]
    by_cases hnil : q = []
    · rw [if_pos (h.empty hnil), hnil, List.length_nil]
    · -- Only a buffer of one byte that is in use.
      have hone := (h.meet_iff.mp hmeet).resolve_left hnil
      have hpos := List.length_pos_of_ne_nil hnil
      rw [if_neg (by rw [h.single hnil hone]; decide)]
      unfold room at hlen
      omega
  · have hne := mt h.meet_iff.mpr hmeet
    rw [RxFifo.calcRecvedLen, if_neg (fun h => hmeet h.symm)]
    have hlength := length_of_mod hget (by unfold room at hlen; omega : q.length < bufsz)
    rw [← h.put] at hlength
    rw [← hlength]
    -- The two cases are the bytes lying in one piece and those lying around the end.
    by_cases hlt : f.getIndex < f.putIndex
    · rw [if_pos hlt, if_pos (by omega)]
    · rw [if_neg hlt, if_neg (by omega)]

end Holds

end Refinement

section Simulation

variable {σ τ : Type} {Q : Queue σ} {P : Queue τ} {R : σ → τ → Prop}

/-- A port cannot tell the one queue from the other. -/
structure Simulates (Q : Queue σ) (P : Queue τ) (R : σ → τ → Prop) : Prop where
  put : ∀ f q ch, R f q → R (Q.put f ch) (P.put q ch)
  take : ∀ f q, R f q → (Q.take f = none ∧ P.take q = none) ∨
    ∃ ch f' q', Q.take f = some (ch, f') ∧ P.take q = some (ch, q') ∧ R f' q'
  rxLength : ∀ f q, R f q → Q.rxLength f = P.rxLength q

/-- Ports at the same place of the same call, with such queues. -/
structure Alike (R : σ → τ → Prop) (s : SerialPort σ) (t : SerialPort τ) : Prop where
  fifo : R s.fifo t.fifo
  call : s.call = t.call

theorem Simulates.puts (h : Simulates Q P R) {f : σ} {q : τ} (hr : R f q) (chars : List UInt8) :
    R (chars.foldl Q.put f) (chars.foldl P.put q) := by
  induction chars generalizing f q with
  | nil => exact hr
  | cons ch chars ih => exact ih (h.put f q ch hr)

/-- An event happens to both, or to none. -/
theorem Simulates.serve (h : Simulates Q P R) {s : SerialPort σ} {t : SerialPort τ}
    (ha : Alike R s t) (e : PortEvent) :
    (portServe Q s e = none ∧ portServe P t e = none) ∨
      ∃ s' t' o, portServe Q s e = some (s', o) ∧ portServe P t e = some (t', o) ∧
        Alike R s' t' := by
  rcases s with ⟨f, call⟩
  rcases t with ⟨q, call'⟩
  rcases ha with ⟨hr, hcall⟩
  simp only at hr hcall
  subst hcall
  -- A read that is under way is the same in both, so they take the same branch.
  cases e with
  | rxInd chars =>
      have hr' := h.puts hr chars
      refine .inr ⟨⟨_, call⟩, ⟨_, call⟩, _, rfl, ?_, hr', rfl⟩
      simp only [portServe, rxInd, h.rxLength _ _ hr']
  | read size =>
      rcases call with _ | call
      · by_cases hzero : size = 0
        · exact .inr ⟨_, _, _, if_pos hzero, if_pos hzero, hr, rfl⟩
        · exact .inr ⟨_, _, _, if_neg hzero, if_neg hzero, hr, rfl⟩
      · exact .inl ⟨rfl, rfl⟩
  | turn =>
      rcases call with _ | ⟨_ | length, data⟩
      · exact .inl ⟨rfl, rfl⟩
      · exact .inr ⟨_, _, _, rfl, rfl, hr, rfl⟩
      · rcases h.take f q hr with ⟨hf, hq⟩ | ⟨ch, f', q', hf, hq, hr'⟩
        · exact .inr ⟨⟨f, none⟩, ⟨q, none⟩, .returned data, by simp only [portServe, hf],
            by simp only [portServe, hq], hr, rfl⟩
        · exact .inr ⟨⟨f', some (length, data ++ [ch])⟩, ⟨q', some (length, data ++ [ch])⟩, .silent,
            by simp only [portServe, hf], by simp only [portServe, hq], hr', rfl⟩

/-- A run of the one is a run of the other, with the same outcomes. -/
theorem Simulates.run (h : Simulates Q P R) {s u : SerialPort σ} {t : SerialPort τ}
    (ha : Alike R s t) {events : List PortEvent} (hrun : run (portStep Q) s events = some u) :
    ∃ v, Firmware.run (portStep P) t events = some v ∧ Alike R u v ∧
      trace (portStep P) (portOutcome P) t events =
        trace (portStep Q) (portOutcome Q) s events := by
  induction events generalizing s t with
  | nil =>
      rw [run_nil, Option.some.injEq] at hrun
      subst hrun
      exact ⟨t, rfl, ha, rfl⟩
  | cons e events ih =>
      rcases run_cons_some _ hrun with ⟨s', hs, hrest⟩
      -- The event has happened in the run, so it happens to the other port too.
      rcases h.serve ha e with ⟨hnone, -⟩ | ⟨s'', t', o, hs', ht', ha'⟩
      · rw [portStep, hnone] at hs
        exact absurd hs (by simp)
      · rw [portStep, hs', Option.map_some, Option.some.injEq] at hs
        subst hs
        rcases ih ha' hrest with ⟨v, hv, hav, htrace⟩
        have hstep : portStep Q s e = some s'' := by rw [portStep, hs', Option.map_some]
        have hstep' : portStep P t e = some t' := by rw [portStep, ht', Option.map_some]
        refine ⟨v, by rw [run_cons _ hstep', hv], hav, ?_⟩
        rw [trace_cons _ _ hstep, trace_cons _ _ hstep', htrace, portOutcome, portOutcome, hs', ht']

end Simulation

section Fifo

variable {bufsz : Nat}

/-- The FIFO is a queue of the last bytes. -/
theorem softFifo_simulates (hsz : bufsz < 2 ^ 16) :
    Simulates (softFifo bufsz) (lastBytes bufsz) (Holds bufsz) where
  put := fun f q ch h => h.put_byte hsz ch
  take := fun f q h => by
    rcases h.take_byte hsz with ⟨rfl, hf⟩ | ⟨ch, q', f', rfl, hf, h'⟩
    · exact .inl ⟨hf, rfl⟩
    · exact .inr ⟨ch, f', q', hf, rfl, h'⟩
  rxLength := fun f q h => h.rxLength_eq

/-- For every size of the buffer that the configuration can hold, for every sequence of
    interrupts and reads and wherever the interrupts fall between the turns of a read: the
    port returns and indicates what a port with a list of the last bytes does, and its
    FIFO holds the bytes of that list. -/
theorem port_refines (hpos : 0 < bufsz) (hsz : bufsz < 2 ^ 16) {u : SerialPort RxFifo}
    {events : List PortEvent}
    (h : run (portStep (softFifo bufsz)) ⟨.opened, none⟩ events = some u) :
    ∃ v, run (portStep (lastBytes bufsz)) ⟨[], none⟩ events = some v ∧
      trace (portStep (softFifo bufsz)) (portOutcome (softFifo bufsz)) ⟨.opened, none⟩ events =
        trace (portStep (lastBytes bufsz)) (portOutcome (lastBytes bufsz)) ⟨[], none⟩ events ∧
      u.call = v.call ∧ Holds bufsz u.fifo v.fifo := by
  have hstart : Alike (Holds bufsz) ⟨.opened, none⟩ (⟨[], none⟩ : SerialPort (List UInt8)) :=
    ⟨holds_opened hpos, rfl⟩
  rcases (softFifo_simulates hsz).run hstart h with ⟨v, hv, ha, htrace⟩
  exact ⟨v, hv, htrace.symm, ha.call, ha.fifo⟩

/-- Five bytes for a buffer of four, and another one in the middle of a read. -/
def burst : List PortEvent :=
  [.rxInd [1, 2, 3, 4, 5], .read 2, .turn, .rxInd [6], .turn, .turn]

theorem port_refines_burst :
    trace (portStep (softFifo 4)) (portOutcome (softFifo 4)) ⟨.opened, none⟩ burst =
      [.indicated 3, .silent, .silent, .indicated 3, .silent, .returned [3, 4]] := by
  have hrun : run (portStep (softFifo 4)) ⟨.opened, none⟩ burst = some _ := rfl
  rcases port_refines (by decide) (by decide) hrun with ⟨v, -, htrace, -⟩
  rw [htrace]
  rfl

/-- The bytes of an interrupt fit into the FIFO. -/
def HasRoom (bufsz : Nat) (s : SerialPort RxFifo) : PortEvent → Prop
  | .rxInd chars => s.fifo.calcRecvedLen bufsz + chars.length ≤ room bufsz
  | _ => True

/-- The bytes that have come in and not been returned. -/
def SerialPort.unread (bufsz : Nat) (s : SerialPort RxFifo) : List UInt8 :=
  s.got ++ window s.fifo.buffer bufsz s.fifo.getIndex (s.fifo.calcRecvedLen bufsz)

theorem unread_of_alike {s : SerialPort RxFifo} {t : SerialPort (List UInt8)}
    (h : Alike (Holds bufsz) s t) : s.unread bufsz = t.got ++ t.fifo := by
  unfold SerialPort.unread SerialPort.got
  rw [h.fifo.calcRecvedLen_eq, h.fifo.bytes, h.call]

/-- What an event returns and what stays, of a port with a list. -/
theorem lastBytes_serve {s s' : SerialPort (List UInt8)} {e : PortEvent} {o : PortOutcome}
    (h : portServe (lastBytes bufsz) s e = some (s', o)) :
    (returned [o] ++ (s'.got ++ s'.fifo)).Sublist ((s.got ++ s.fifo) ++ received [e]) ∧
      (s.fifo.length + (received [e]).length ≤ room bufsz →
        returned [o] ++ (s'.got ++ s'.fifo) = (s.got ++ s.fifo) ++ received [e]) := by
  rcases s with ⟨q, call⟩
  cases e with
  | rxInd chars =>
      simp only [portServe, rxInd, Option.some.injEq, Prod.mk.injEq] at h
      rcases h with ⟨rfl, rfl⟩
      -- An interrupt returns nothing, whatever it indicates.
      have hout : ∀ n, returned [if n = 0 then PortOutcome.silent else .indicated n] = [] := by
        intro n
        by_cases hn : n = 0
        · rw [if_pos hn]
          rfl
        · rw [if_neg hn]
          rfl
      have hin : received [.rxInd chars] = chars := by simp [received]
      rw [hout, hin, List.nil_append, List.append_assoc]
      refine ⟨(recents_sublist _ q chars).append_left _, fun hroom => ?_⟩
      exact congrArg _ (recents_room hroom)
  | read size =>
      rcases call with _ | call
      · by_cases hzero : size = 0
        · simp only [portServe, if_pos hzero, Option.some.injEq, Prod.mk.injEq] at h
          rcases h with ⟨rfl, rfl⟩
          simp [returned, received]
        · simp only [portServe, if_neg hzero, Option.some.injEq, Prod.mk.injEq] at h
          rcases h with ⟨rfl, rfl⟩
          simp [returned, received, SerialPort.got]
      · exact absurd h (by simp [portServe])
  | turn =>
      rcases call with _ | ⟨_ | length, data⟩
      · exact absurd h (by simp [portServe])
      · simp only [portServe, Option.some.injEq, Prod.mk.injEq] at h
        rcases h with ⟨rfl, rfl⟩
        simp [returned, received, SerialPort.got]
      · -- The byte of a turn moves from the queue to the read.
        rcases q with _ | ⟨ch, q⟩
        · simp only [portServe, lastBytes, Option.some.injEq, Prod.mk.injEq] at h
          rcases h with ⟨rfl, rfl⟩
          simp [returned, received, SerialPort.got]
        · simp only [portServe, lastBytes, Option.some.injEq, Prod.mk.injEq] at h
          rcases h with ⟨rfl, rfl⟩
          simp [returned, received, SerialPort.got]

theorem received_cons (e : PortEvent) (events : List PortEvent) :
    received (e :: events) = received [e] ++ received events := by
  simp [received]

theorem returned_cons (o : PortOutcome) (outcomes : List PortOutcome) :
    returned (o :: outcomes) = returned [o] ++ returned outcomes := by
  simp [returned]

/-- What a run returns and what stays, from any port whose FIFO is a list. -/
theorem run_handed (hsz : bufsz < 2 ^ 16) {s u : SerialPort RxFifo} {t : SerialPort (List UInt8)}
    {events : List PortEvent} (ha : Alike (Holds bufsz) s t)
    (h : run (portStep (softFifo bufsz)) s events = some u) :
    (returned (trace (portStep (softFifo bufsz)) (portOutcome (softFifo bufsz)) s events) ++
        u.unread bufsz).Sublist (s.unread bufsz ++ received events) ∧
      (Along (portStep (softFifo bufsz)) (HasRoom bufsz) s events →
        returned (trace (portStep (softFifo bufsz)) (portOutcome (softFifo bufsz)) s events) ++
          u.unread bufsz = s.unread bufsz ++ received events) := by
  induction events generalizing s t with
  | nil =>
      rw [run_nil, Option.some.injEq] at h
      subst h
      simp [returned, received]
  | cons e events ih =>
      rcases run_cons_some _ h with ⟨s₁, hs, hrest⟩
      rcases (softFifo_simulates hsz).serve ha e with ⟨hnone, -⟩ | ⟨s', t', o, hs', ht', ha'⟩
      · rw [portStep, hnone] at hs
        exact absurd hs (by simp)
      · rw [portStep, hs', Option.map_some, Option.some.injEq] at hs
        subst hs
        have hstep : portStep (softFifo bufsz) s e = some s' := by
          rw [portStep, hs', Option.map_some]
        have hout : portOutcome (softFifo bufsz) s e = o := by rw [portOutcome, hs']
        rcases ih ha' hrest with ⟨hsub, heq⟩
        rcases lastBytes_serve ht' with ⟨hone, hroom⟩
        rw [← unread_of_alike ha', ← unread_of_alike ha] at hone hroom
        rw [trace_cons _ _ hstep, hout, returned_cons, received_cons, List.append_assoc]
        constructor
        · -- The bytes of this event come before those of the others.
          calc (returned [o] ++ _).Sublist (returned [o] ++ (s'.unread bufsz ++ received events)) :=
                hsub.append_left _
            _ = (returned [o] ++ s'.unread bufsz) ++ received events :=
                (List.append_assoc _ _ _).symm
            List.Sublist _ (s.unread bufsz ++ received [e] ++ received events) :=
                hone.append_right _
            _ = s.unread bufsz ++ (received [e] ++ received events) := List.append_assoc _ _ _
        · rintro ⟨hthis, hothers⟩
          -- Room is counted by the code, with the list behind its count.
          have hfits : t.fifo.length + (received [e]).length ≤ room bufsz := by
            cases e with
            | rxInd chars =>
                rw [HasRoom, ha.fifo.calcRecvedLen_eq] at hthis
                simpa [received] using hthis
            | read size => simpa [received] using ha.fifo.length
            | turn => simpa [received] using ha.fifo.length
          rw [heq (hothers s' hstep), ← List.append_assoc, hroom hfits, List.append_assoc]

/-- The bytes that reads have returned and those still there are bytes of the interrupts
    in their order, none of them twice; and all of them, if there was room at every
    interrupt. -/
theorem handed_in_order (hpos : 0 < bufsz) (hsz : bufsz < 2 ^ 16) {u : SerialPort RxFifo}
    {events : List PortEvent}
    (h : run (portStep (softFifo bufsz)) ⟨.opened, none⟩ events = some u) :
    (returned (trace (portStep (softFifo bufsz)) (portOutcome (softFifo bufsz)) ⟨.opened, none⟩
        events) ++ u.unread bufsz).Sublist (received events) ∧
      (Along (portStep (softFifo bufsz)) (HasRoom bufsz) ⟨.opened, none⟩ events →
        returned (trace (portStep (softFifo bufsz)) (portOutcome (softFifo bufsz)) ⟨.opened, none⟩
          events) ++ u.unread bufsz = received events) := by
  have hstart : Alike (Holds bufsz) ⟨.opened, none⟩ (⟨[], none⟩ : SerialPort (List UInt8)) :=
    ⟨holds_opened hpos, rfl⟩
  -- A port that has just been opened has nothing to hand over.
  have hnil : SerialPort.unread bufsz ⟨.opened, none⟩ = [] := unread_of_alike hstart
  have hrun := run_handed hsz hstart h
  rwa [hnil, List.nil_append] at hrun

/-- A read of three bytes that ends with the two there are. -/
def shortRead : List PortEvent := [.rxInd [1, 2], .read 3, .turn, .turn, .turn, .rxInd [3]]

theorem handed_in_order_shortRead : ∃ u,
    run (portStep (softFifo 4)) ⟨.opened, none⟩ shortRead = some u ∧
      returned (trace (portStep (softFifo 4)) (portOutcome (softFifo 4)) ⟨.opened, none⟩
        shortRead) ++ u.unread 4 = [1, 2, 3] := by
  refine ⟨_, rfl, ?_⟩
  have hrun : run (portStep (softFifo 4)) ⟨.opened, none⟩ shortRead = some _ := rfl
  refine (handed_in_order (by decide) (by decide) hrun).2 ?_
  refine along_cons _ rfl (by decide : 0 + 2 ≤ 3) ?_
  refine along_cons _ rfl trivial (along_cons _ rfl trivial (along_cons _ rfl trivial ?_))
  exact along_cons _ rfl trivial (along_cons _ rfl (by decide : 0 + 1 ≤ 3) trivial)

end Fifo

end Uart

end Firmware
