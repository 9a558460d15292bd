import Firmware.I2c.Lines

/-!
# Clock Pulses

What a transfer of `i2c-bit-ops.c` is for the device: START and STOP, and between them
clock pulses, each with the level of SDA.

On a pulse the driver leaves SDA high or pulls it, the device does the same, and both of
them see the level that comes of it. `exchange` is a number of pulses. A byte to the device
is nine of them, the bits of the byte from the first to the last and one that is left to
the device; a byte from the device is eight and an answer of the driver.

`wire_refines` says that the lines do nothing else. For every device that does not hold SCL
for longer than the time limit, a transfer over the lines returns what it returns over
pulses, brings the device into the same state, and leaves the lines released.

## Main definitions

* `exchange`: Pulses, with the levels that come of them.
* `pulseOps`: The operations of the bus on pulses.
* `BusSim`: The operations of one bus are those of another one.
* `Low`, `Released`: The lines between two pulses, and between two transfers.

## Theorems

* `BusSim.xfer`: A transfer over the one is a transfer over the other.
* `writeBits_low`, `readBits_low`: The loops of the driver are pulses.
* `wire_refines`: The lines make pulses.
-/

namespace Firmware

namespace I2c

section Pulses

variable {σ : Type} (T : Target σ)

/-- Clock pulses, for each of which the driver leaves SDA high or pulls it. -/
def exchange : σ → List Bool → List Bool × σ
  | s, [] => ([], s)
  | s, b :: bs =>
      let v := b && T.sends s
      let (vs, s') := exchange (T.clock s v) bs
      (v :: vs, s')

/-- The bits of a byte in their order on the bus. -/
def toBits (data : UInt8) : List Bool := [7, 6, 5, 4, 3, 2, 1, 0].map (bitOf data)

/-- Shifting in one bit more. -/
def shiftIn (data : UInt8) (v : Bool) : UInt8 := (data <<< 1) ||| (if v then 1 else 0)

/-- The byte that some bits make. -/
def ofBits (vs : List Bool) : UInt8 := vs.foldl shiftIn 0

/-- A START condition, which is none if the device pulls SDA: then it is a pulse. -/
def startPulse (s : σ) : σ := if T.sends s then T.start s else T.clock s false

/-- The operations of the bus on pulses. -/
def pulseOps : BusOps σ where
  start := startPulse T
  restart := startPulse T
  stop := fun s => if T.sends s then T.stop s else s
  writeb := fun s data =>
    let (vs, s') := exchange T s (toBits data ++ [true])
    (if vs.getLast? = some false then 1 else 0, s')
  readb := fun s =>
    let (vs, s') := exchange T s (List.replicate 8 true)
    ((ofBits vs).toNat, s')
  sendAckOrNack := fun s ack => (0, (exchange T s [!ack]).2)

end Pulses

section Simulation

variable {β γ : Type}

/-- The operations of one bus are those of another one: from and to a bus at rest, one in
    a transfer, and one that waits for the answer to a byte it has sent. -/
structure BusSim (B : BusOps β) (C : BusOps γ) (Rest Busy Answer : β → γ → Prop) : Prop where
  start : ∀ b c, Rest b c → Busy (B.start b) (C.start c)
  restart : ∀ b c, Busy b c → Busy (B.restart b) (C.restart c)
  stop : ∀ b c, Busy b c → Rest (B.stop b) (C.stop c)
  writeb : ∀ b c data, Busy b c →
    (B.writeb b data).1 = (C.writeb c data).1 ∧ Busy (B.writeb b data).2 (C.writeb c data).2
  readb : ∀ b c, Busy b c → (B.readb b).1 = (C.readb c).1 ∧ 0 ≤ (C.readb c).1 ∧
    Answer (B.readb b).2 (C.readb c).2
  sendAckOrNack : ∀ b c ack, Answer b c →
    (B.sendAckOrNack b ack).1 = (C.sendAckOrNack c ack).1 ∧
      Busy (B.sendAckOrNack b ack).2 (C.sendAckOrNack c ack).2

namespace BusSim

variable {B : BusOps β} {C : BusOps γ} {Rest Busy Answer : β → γ → Prop}

/-- The same result, and buses in a transfer. -/
def Same (Busy : β → γ → Prop) {ρ : Type} (x : ρ × β) (y : ρ × γ) : Prop :=
  x.1 = y.1 ∧ Busy x.2 y.2

theorem sendBytes (h : BusSim B C Rest Busy Answer) (ignoreNack : Bool) {b : β} {c : γ}
    (hb : Busy b c) (xs : List UInt8) (bytes : Nat) :
    Same Busy (i2cSendBytes B ignoreNack xs bytes b) (i2cSendBytes C ignoreNack xs bytes c) := by
  induction xs generalizing b c bytes with
  | nil => exact ⟨rfl, hb⟩
  | cons x xs ih =>
      rcases h.writeb b c x hb with ⟨hret, hb'⟩
      unfold i2cSendBytes
      simp only [hret]
      by_cases hmore : 0 < (C.writeb c x).1 ∨ (ignoreNack = true ∧ (C.writeb c x).1 = 0)
      · rw [if_pos hmore, if_pos hmore]
        exact ih hb' (bytes + 1)
      · rw [if_neg hmore, if_neg hmore]
        exact ⟨rfl, hb'⟩

theorem sendAddress (h : BusSim B C Rest Busy Answer) (addr : UInt8) {b : β} {c : γ}
    (hb : Busy b c) (retries : Nat) :
    Same Busy (i2cSendAddress B addr retries b) (i2cSendAddress C addr retries c) := by
  induction retries generalizing b c with
  | zero => exact h.writeb b c addr hb
  | succ retries ih =>
      rcases h.writeb b c addr hb with ⟨hret, hb'⟩
      unfold i2cSendAddress
      simp only [hret]
      by_cases hack : (C.writeb c addr).1 = 1
      · rw [if_pos hack, if_pos hack]
        exact ⟨rfl, hb'⟩
      · rw [if_neg hack, if_neg hack]
        -- A STOP and a START come between two tries.
        exact ih (h.start _ _ (h.stop _ _ hb'))

/-- A message that does without answers needs buses that do. -/
theorem recvBytes (h : BusSim B C Rest Busy Answer) {noReadAck : Bool}
    (hno : noReadAck = true → ∀ b c, Answer b c → Busy b c) {b : β} {c : γ} (hb : Busy b c)
    (count : Nat) (bytes : List UInt8) :
    (i2cRecvBytes B noReadAck count bytes b).1 = (i2cRecvBytes C noReadAck count bytes c).1 ∧
      (i2cRecvBytes B noReadAck count bytes b).2.1 =
        (i2cRecvBytes C noReadAck count bytes c).2.1 ∧
      Busy (i2cRecvBytes B noReadAck count bytes b).2.2
        (i2cRecvBytes C noReadAck count bytes c).2.2 := by
  induction count generalizing b c bytes with
  | zero => exact ⟨rfl, rfl, hb⟩
  | succ count ih =>
      rcases h.readb b c hb with ⟨hval, hpos, hanswer⟩
      unfold i2cRecvBytes
      simp only [hval, if_neg (not_lt.mpr hpos)]
      by_cases hskip : noReadAck = true
      · simp only [if_pos hskip]
        -- The bus is still waiting for an answer that it does not get.
        exact ih (hno hskip _ _ hanswer) _
      · simp only [if_neg hskip]
        rcases h.sendAckOrNack _ _ (decide (count ≠ 0)) hanswer with ⟨hret, hb'⟩
        simp only [hret]
        by_cases hfail : (C.sendAckOrNack (C.readb c).2 (decide (count ≠ 0))).1 < 0
        · simp only [if_pos hfail]
          exact ⟨trivial, trivial, hb'⟩
        · simp only [if_neg hfail]
          exact ih hb' _

theorem bitSendAddress (h : BusSim B C Rest Busy Answer) (busRetries : Nat) (msg : Msg) {b : β}
    {c : γ} (hb : Busy b c) :
    Same Busy (i2cBitSendAddress B busRetries msg b) (i2cBitSendAddress C busRetries msg c) := by
  unfold i2cBitSendAddress
  generalize (if msg.ignoreNack = true then 0 else busRetries) = retries
  by_cases hten : msg.addr10Bit = true
  · simp only [if_pos hten]
    -- Which byte is sent does not matter, only that both buses send it.
    generalize (0xf0 : UInt8) ||| ((msg.addr >>> 7) &&& 0x06).toUInt8 = addr1
    rcases h.sendAddress addr1 hb retries with ⟨hret₁, hb₁⟩
    simp only [hret₁]
    by_cases hfail₁ : (i2cSendAddress C addr1 retries c).1 ≠ 1 ∧ (!msg.ignoreNack) = true
    · simp only [if_pos hfail₁]
      exact ⟨rfl, hb₁⟩
    simp only [if_neg hfail₁]
    rcases h.writeb _ _ (msg.addr &&& 0xff).toUInt8 hb₁ with ⟨hret₂, hb₂⟩
    simp only [hret₂]
    by_cases hfail₂ : (C.writeb (i2cSendAddress C addr1 retries c).2
        (msg.addr &&& 0xff).toUInt8).1 ≠ 1 ∧ (!msg.ignoreNack) = true
    · simp only [if_pos hfail₂]
      exact ⟨rfl, hb₂⟩
    simp only [if_neg hfail₂]
    by_cases hrd : msg.rd = true
    · -- A read sends the first half of the address again.
      simp only [if_pos hrd]
      rcases h.sendAddress (addr1 ||| 1) (h.restart _ _ hb₂) retries with ⟨hret₃, hb₃⟩
      simp only [hret₃]
      split_ifs with hfail₃
      · exact ⟨rfl, hb₃⟩
      · exact ⟨rfl, hb₃⟩
    · simp only [if_neg hrd]
      exact ⟨rfl, hb₂⟩
  · simp only [if_neg hten]
    generalize (msg.addr <<< 1).toUInt8 ||| (if msg.rd = true then 1 else 0) = addr1
    rcases h.sendAddress addr1 hb retries with ⟨hret, hb'⟩
    simp only [hret]
    split_ifs with hfail
    · exact ⟨rfl, hb'⟩
    · exact ⟨rfl, hb'⟩

/-- The same value, the same buffers, and buses in a transfer. -/
def Alike (Busy : β → γ → Prop) {ρ ρ' : Type} (x : ρ × ρ' × β) (y : ρ × ρ' × γ) : Prop :=
  x.1 = y.1 ∧ x.2.1 = y.2.1 ∧ Busy x.2.2 y.2.2

theorem xferMsg (h : BusSim B C Rest Busy Answer) (busRetries : Nat) (first : Bool) {msg : Msg}
    (hno : msg.noReadAck = true → ∀ b c, Answer b c → Busy b c) {b : β} {c : γ} (hb : Busy b c) :
    Alike Busy (i2cXferMsg B busRetries first msg b) (i2cXferMsg C busRetries first msg c) := by
  have hstart : Same Busy
      (if msg.noStart then (0, b)
        else i2cBitSendAddress B busRetries msg (if first then b else B.restart b))
      (if msg.noStart then (0, c)
        else i2cBitSendAddress C busRetries msg (if first then c else C.restart c)) := by
    -- No address, the first one behind the START there was, or one behind a new START.
    split_ifs with hcont hfirst
    · exact ⟨rfl, hb⟩
    · exact h.bitSendAddress busRetries msg hb
    · exact h.bitSendAddress busRetries msg (h.restart b c hb)
  rcases hstart with ⟨hret, hb'⟩
  unfold i2cXferMsg
  simp only [hret]
  by_cases hfail : (if msg.noStart then ((0 : Int), c)
      else i2cBitSendAddress C busRetries msg (if first then c else C.restart c)).1 ≠ 0 ∧
      (!msg.ignoreNack) = true
  · simp only [if_pos hfail]
    exact ⟨rfl, rfl, hb'⟩
  · simp only [if_neg hfail]
    by_cases hrd : msg.rd = true
    · simp only [if_pos hrd]
      rcases h.recvBytes hno hb' msg.buf.length [] with ⟨hret', hbytes, hb''⟩
      rw [hret', hbytes]
      exact ⟨rfl, rfl, hb''⟩
    · simp only [if_neg hrd]
      rcases h.sendBytes msg.ignoreNack hb' msg.buf 0 with ⟨hret', hb''⟩
      rw [hret']
      exact ⟨rfl, rfl, hb''⟩

theorem xferLoop (h : BusSim B C Rest Busy Answer) (busRetries : Nat) {msgs : List Msg}
    (hno : ∀ msg ∈ msgs, msg.noReadAck = true → ∀ b c, Answer b c → Busy b c) (i : Nat) {b : β}
    {c : γ} (hb : Busy b c) :
    Alike Busy (i2cXferLoop B busRetries i msgs b) (i2cXferLoop C busRetries i msgs c) := by
  induction msgs generalizing i b c with
  | nil => exact ⟨rfl, rfl, hb⟩
  | cons msg msgs ih =>
      rcases h.xferMsg busRetries (decide (i = 0)) (hno msg List.mem_cons_self) hb with
        ⟨hret, hbuf, hb'⟩
      unfold i2cXferLoop
      rcases hx : i2cXferMsg B busRetries (decide (i = 0)) msg b with ⟨_ | r, buf, b'⟩
      · rcases hy : i2cXferMsg C busRetries (decide (i = 0)) msg c with ⟨_ | r', buf', c'⟩
        · rw [hx, hy] at hbuf hb'
          simp only at hbuf hb'
          rcases ih (fun m hm => hno m (List.mem_cons_of_mem msg hm)) (i + 1) hb' with
            ⟨hret', hbufs, hb''⟩
          exact ⟨hret', by simp only [hbuf, hbufs], hb''⟩
        · -- One of them would go on where the other one leaves the loop.
          rw [hx, hy] at hret
          exact absurd hret (by simp)
      · rcases hy : i2cXferMsg C busRetries (decide (i = 0)) msg c with ⟨_ | r', buf', c'⟩
        · rw [hx, hy] at hret
          exact absurd hret (by simp)
        · rw [hx, hy] at hret hbuf hb'
          simp only [Option.some.injEq] at hret hbuf hb'
          exact ⟨hret, by simp only [hbuf], hb'⟩

/-- A transfer over the one bus is a transfer over the other. -/
theorem xfer (h : BusSim B C Rest Busy Answer) (busRetries : Nat) {msgs : List Msg}
    (hno : ∀ msg ∈ msgs, msg.noReadAck = true → ∀ b c, Answer b c → Busy b c) {b : β} {c : γ}
    (hb : Rest b c) :
    Alike Rest (i2cBitXfer B busRetries msgs b) (i2cBitXfer C busRetries msgs c) := by
  rcases h.xferLoop busRetries hno 0 (h.start b c hb) with ⟨hret, hbufs, hb'⟩
  exact ⟨hret, hbufs, h.stop _ _ hb'⟩

end BusSim

end Simulation

section Wires

variable {σ : Type} {T : Target σ} {timeout : Nat} {w : Wire σ} {s : σ}

/-- The device lets go of SCL within the time limit. -/
def Target.Patient (T : Target σ) (timeout : Nat) : Prop := ∀ s, T.stretch s ≤ timeout

/-- The lines between two pulses: SCL is low. -/
structure Low (T : Target σ) (w : Wire σ) (s : σ) : Prop where
  scl : w.scl = false
  hold : w.hold = T.stretch s
  pulse : w.pulse = false
  dev : w.dev = s

/-- The lines in a pulse, with SDA at a level. -/
structure High (T : Target σ) (w : Wire σ) (s : σ) (v : Bool) : Prop where
  scl : w.scl = true
  hold : w.hold = 0
  pulse : w.pulse = true
  dev : w.dev = s
  level : w.sdaHigh T = v

/-- The lines between two transfers: released, and if the device pulls SDA all the same,
    it does so in a pulse. -/
structure Released (T : Target σ) (w : Wire σ) (s : σ) : Prop where
  scl : w.scl = true
  sda : w.sda = true
  hold : w.hold = 0
  dev : w.dev = s
  pulse : T.sends s = false → w.pulse = true

/-- Behind a byte from the device the driver leaves SDA to it. -/
structure Listening (T : Target σ) (w : Wire σ) (s : σ) : Prop extends Low T w s where
  sda : w.sda = true

theorem Low.setSda (h : Low T w s) (v : Bool) :
    Low T (w.setSda T v) s ∧ (w.setSda T v).sda = v := by
  have hscl : w.sclHigh = false := by simp [Wire.sclHigh, h.scl]
  unfold Wire.setSda
  simp only [hscl, Bool.false_eq_true, false_and, if_false]
  exact ⟨⟨h.scl, h.hold, h.pulse, h.dev⟩, trivial⟩

/-- The device lets go of SCL while the driver waits. -/
theorem delay_high {d : Nat} (hscl : w.scl = true) (hpos : 0 < w.hold) (hle : w.hold ≤ d) :
    w.delay d = { w with hold := 0, pulse := true } := by
  have hzero : w.hold - d = 0 := by omega
  unfold Wire.delay
  rw [if_pos ⟨hscl, by omega, hle⟩, hzero]

/-- It does not yet. -/
theorem delay_low {d : Nat} (hlt : d < w.hold) :
    w.delay d = { w with hold := w.hold - d } := by
  unfold Wire.delay
  rw [if_neg (by omega)]

/-- SCL rises within the time limit. -/
theorem Low.sclH (h : Low T w s) (hp : T.Patient timeout) :
    ∃ w', w.sclH T timeout = (true, w') ∧ High T w' s (w.sda && T.sends s) ∧ w'.sda = w.sda := by
  have hlimit := hp s
  rw [← h.hold] at hlimit
  -- However long the device holds SCL, the lines end like this.
  refine ⟨{ w with scl := true, hold := 0, pulse := true }, ?_,
    ⟨rfl, rfl, rfl, h.dev, by simp only [Wire.sdaHigh, h.dev]⟩, rfl⟩
  unfold Wire.sclH Wire.setScl
  by_cases hnow : w.hold = 0
  · -- It is not held.
    simp [h.scl, hnow, Wire.sclLoop, Wire.sclHigh]
  · simp only [if_true, h.scl, Bool.not_false, true_and, if_neg hnow, h.pulse]
    by_cases hsoon : w.hold ≤ (timeout + 1) / 2
    · -- It is released before the second look.
      have hdelay := delay_high (w := { w with scl := true, pulse := false }) rfl
        (Nat.pos_of_ne_zero hnow) hsoon
      simp only [Wire.sclLoop, Wire.sclHigh, hdelay]
      simp [hnow]
    · -- It is released before the third look: two waits are the whole time limit.
      have hlow := delay_low (w := { w with scl := true, pulse := false })
        (by omega : (timeout + 1) / 2 < w.hold)
      have hdelay := delay_high
        (w := { w with scl := true, pulse := false, hold := w.hold - (timeout + 1) / 2 }) rfl
        (by simp only; omega) (by omega : w.hold - (timeout + 1) / 2 ≤ (timeout + 1) / 2)
      have hfirst : ¬ timeout < (timeout + 1) / 2 := by omega
      have hheld : w.hold - (timeout + 1) / 2 ≠ 0 := by omega
      simp only [Wire.sclLoop, Wire.sclHigh, hlow, hdelay]
      simp [hnow, hheld, hfirst]

/-- A pulse ends. -/
theorem High.fall {v : Bool} (h : High T w s v) :
    Low T (w.setScl T false) (T.clock s v) ∧ (w.setScl T false).sda = w.sda := by
  have hscl : w.sclHigh = true := by simp [Wire.sclHigh, h.scl, h.hold]
  unfold Wire.setScl
  simp only [Bool.false_eq_true, if_false, hscl, if_true, h.pulse, h.dev, h.level]
  exact ⟨⟨rfl, rfl, rfl, rfl⟩, trivial⟩

/-- `SCL_L` on a low line. -/
theorem Low.fall (h : Low T w s) : Low T (w.setScl T false) s := by
  have hscl : w.sclHigh = false := by simp [Wire.sclHigh, h.scl]
  unfold Wire.setScl
  simp only [Bool.false_eq_true, if_false, hscl]
  exact ⟨rfl, h.hold, h.pulse, h.dev⟩

/-- One pulse: SDA is set, SCL rises and falls. -/
theorem Low.pulse_end (h : Low T w s) (hp : T.Patient timeout) :
    ∃ w', w.sclH T timeout = (true, w') ∧ w'.sdaHigh T = (w.sda && T.sends s) ∧
      Low T (w'.setScl T false) (T.clock s (w.sda && T.sends s)) ∧
      (w'.setScl T false).sda = w.sda := by
  rcases h.sclH hp with ⟨w', hw', hhigh, hsda⟩
  rcases hhigh.fall with ⟨hlow, hsda'⟩
  exact ⟨w', hw', hhigh.level, hlow, by rw [hsda', hsda]⟩

/-- The loop of `i2c_writeb` is a pulse for each bit, the last of which it leaves open. -/
theorem writeBits_low (hp : T.Patient timeout) (data : UInt8)
    (is : List UInt8) (h : Low T (w.setScl T false) s) :
    ∃ w', writeBits T timeout data is w = (true, w') ∧
      Low T (w'.setScl T false) (exchange T s (is.map (bitOf data))).2 := by
  induction is generalizing w s with
  | nil => exact ⟨w, rfl, h⟩
  | cons i is ih =>
      -- SDA is set while SCL is low, and the pulse takes its level.
      rcases h.setSda (bitOf data i) with ⟨hset, hsda⟩
      rcases hset.pulse_end hp with ⟨w₁, hw₁, -, hlow, -⟩
      rw [hsda] at hlow
      rcases ih hlow with ⟨w', hw', hlow'⟩
      refine ⟨w', ?_, hlow'⟩
      unfold writeBits
      rw [hw₁]
      exact hw'

/-- The loop of `i2c_readb` is a pulse for each bit. -/
theorem readBits_low (hp : T.Patient timeout) (n : Nat) (data : UInt8)
    (h : Listening T w s) :
    ∃ w', readBits T timeout n data w =
        ((((exchange T s (List.replicate n true)).1.foldl shiftIn data).toNat : Int), w') ∧
      Listening T w' (exchange T s (List.replicate n true)).2 := by
  induction n generalizing data w s with
  | zero => exact ⟨w, rfl, h⟩
  | succ n ih =>
      rcases h.toLow.pulse_end hp with ⟨w₁, hw₁, hlevel, hlow, hsda⟩
      -- The line is left to the device, so its level is the bit.
      rw [h.sda, Bool.true_and] at hlevel hlow
      rw [h.sda] at hsda
      rcases ih (shiftIn data (T.sends s)) ⟨hlow, hsda⟩ with ⟨w', hw', hlisten⟩
      refine ⟨w', ?_, ?_⟩
      · unfold readBits
        rw [hw₁]
        simp only [hlevel]
        exact hw'
      · exact hlisten

theorem exchange_append (s : σ) (bs cs : List Bool) :
    exchange T s (bs ++ cs) =
      ((exchange T s bs).1 ++ (exchange T (exchange T s bs).2 cs).1,
        (exchange T (exchange T s bs).2 cs).2) := by
  induction bs generalizing s with
  | nil => rfl
  | cons b bs ih =>
      simp only [List.cons_append, exchange, ih]

/-- SDA under a high SCL: it falls, it rises, or it stays as it is. -/
theorem setSda_start (hscl : w.sclHigh = true) (hsda : w.sdaHigh T = true) :
    w.setSda T false = { w with sda := false, dev := T.start w.dev, pulse := false } := by
  have hlow : ({ w with sda := false } : Wire σ).sdaHigh T = false := rfl
  unfold Wire.setSda
  simp [hscl, hsda, hlow]

theorem setSda_stop (hscl : w.sclHigh = true) (hsda : w.sda = false)
    (hs : T.sends w.dev = true) :
    w.setSda T true = { w with sda := true, dev := T.stop w.dev, pulse := false } := by
  unfold Wire.setSda
  simp [hscl, hsda, hs, Wire.sdaHigh]

theorem setSda_same {v : Bool} (h : (v && T.sends w.dev) = w.sdaHigh T) :
    w.setSda T v = { w with sda := v } := by
  unfold Wire.setSda
  have hsame : ({ w with sda := v } : Wire σ).sdaHigh T = w.sdaHigh T := h
  simp [hsame]

/-- A START condition, or the pulse that it is if the device pulls SDA. -/
theorem startPulse_low (hscl : w.scl = true) (hhold : w.hold = 0) (hsda : w.sda = true)
    (hdev : w.dev = s) (hpulse : T.sends s = false → w.pulse = true) :
    Low T ((w.setSda T false).setScl T false) (startPulse T s) := by
  have hhigh : w.sclHigh = true := by simp [Wire.sclHigh, hscl, hhold]
  have hlevel : w.sdaHigh T = T.sends s := by simp [Wire.sdaHigh, hsda, hdev]
  unfold startPulse
  by_cases hs : T.sends s = true
  · rw [if_pos hs, setSda_start hhigh (by rw [hlevel, hs]), hdev]
    unfold Wire.setScl
    simp only [Wire.sclHigh, hscl, hhold]
    exact ⟨rfl, rfl, rfl, rfl⟩
  · -- SDA is low already, and the device counts a pulse.
    rw [Bool.not_eq_true] at hs
    have hopen : High T { w with sda := false } s false :=
      ⟨hscl, hhold, hpulse hs, hdev, rfl⟩
    rw [if_neg (by rw [hs]; decide), setSda_same (by rw [hlevel, hs, Bool.false_and])]
    exact hopen.fall.1

theorem Released.start (h : Released T w s) : Low T (i2cStartOn T w) (startPulse T s) :=
  startPulse_low h.scl h.hold h.sda h.dev h.pulse

theorem Low.restart (h : Low T w s) (hp : T.Patient timeout) :
    Low T (i2cRestart T w timeout) (startPulse T s) := by
  rcases h.setSda true with ⟨hset, hsda⟩
  rcases hset.sclH hp with ⟨w', hw', hhigh, hsda'⟩
  unfold i2cRestart
  rw [hw']
  exact startPulse_low hhigh.scl hhigh.hold (by rw [hsda', hsda]) hhigh.dev fun _ => hhigh.pulse

theorem Low.stop (h : Low T w s) (hp : T.Patient timeout) :
    Released T (i2cStop T w timeout) ((pulseOps T).stop s) := by
  rcases h.setSda false with ⟨hset, hsda⟩
  -- SCL rises with SDA low, so that SDA can rise behind it.
  rcases hset.sclH hp with ⟨w', hw', hhigh, hsda'⟩
  have hscl : w'.sclHigh = true := by simp [Wire.sclHigh, hhigh.scl, hhigh.hold]
  rw [hsda, Bool.false_and] at hhigh
  unfold i2cStop
  rw [hw']
  simp only [pulseOps]
  by_cases hs : T.sends s = true
  · rw [if_pos hs, setSda_stop hscl (by rw [hsda', hsda]) (by rw [hhigh.dev, hs]), hhigh.dev]
    refine ⟨hhigh.scl, rfl, hhigh.hold, rfl, fun hlow => ?_⟩
    rw [T.stop_sends] at hlow
    exact absurd hlow (by simp)
  · -- The device does not let SDA rise.
    rw [Bool.not_eq_true] at hs
    rw [if_neg (by rw [hs]; decide), setSda_same (by rw [hhigh.level, hhigh.dev, hs]; rfl)]
    exact ⟨hhigh.scl, rfl, hhigh.hold, hhigh.dev, fun _ => hhigh.pulse⟩

theorem Low.writeb (h : Low T w s) (hp : T.Patient timeout) (data : UInt8) :
    (i2cWriteb T w timeout data).1 = ((pulseOps T).writeb s data).1 ∧
      Low T (i2cWriteb T w timeout data).2 ((pulseOps T).writeb s data).2 := by
  rcases writeBits_low hp data [7, 6, 5, 4, 3, 2, 1, 0] h.fall with ⟨w₁, hw₁, hlow⟩
  rcases hlow.setSda true with ⟨hset, hsda⟩
  rcases hset.pulse_end hp with ⟨w₂, hw₂, hlevel, hlow₂, -⟩
  rw [hsda, Bool.true_and] at hlevel hlow₂
  unfold i2cWriteb i2cWaitack
  rw [hw₁]
  simp only [hw₂, pulseOps, exchange_append, toBits]
  -- What the first eight pulses came to is of no interest for the ninth.
  generalize exchange T s (List.map (bitOf data) [7, 6, 5, 4, 3, 2, 1, 0]) = x at hlevel hlow₂ ⊢
  refine ⟨?_, ?_⟩
  · rw [hlevel]
    simp only [exchange, List.getLast?_append, List.getLast?_singleton, Option.some_or,
      Option.some.injEq, Bool.true_and]
    by_cases hs : T.sends x.2 = true
    · simp [hs]
    · simp [hs]
  · exact hlow₂

theorem Low.readb (h : Low T w s) (hp : T.Patient timeout) :
    (i2cReadb T w timeout).1 = ((pulseOps T).readb s).1 ∧
      Listening T (i2cReadb T w timeout).2 ((pulseOps T).readb s).2 := by
  rcases h.setSda true with ⟨hset, hsda⟩
  rcases readBits_low hp 8 0 ⟨hset, hsda⟩ with ⟨w', hw', hlisten⟩
  unfold i2cReadb
  rw [hw']
  exact ⟨rfl, hlisten⟩

theorem Listening.sendAckOrNack (h : Listening T w s) (hp : T.Patient timeout) (ack : Bool) :
    (i2cSendAckOrNack T w timeout ack).1 = ((pulseOps T).sendAckOrNack s ack).1 ∧
      Low T (i2cSendAckOrNack T w timeout ack).2 ((pulseOps T).sendAckOrNack s ack).2 := by
  -- SDA is left alone for a NACK, and has been left to the device before.
  have hanswer : Low T (if ack then w.setSda T false else w) s ∧
      (if ack then w.setSda T false else w).sda = !ack := by
    rcases ack with _ | _
    · exact ⟨h.toLow, h.sda⟩
    · exact h.toLow.setSda false
  rcases hanswer.1.pulse_end hp with ⟨w', hw', -, hlow, -⟩
  rw [hanswer.2] at hlow
  unfold i2cSendAckOrNack
  rw [hw']
  exact ⟨rfl, hlow⟩

/-- The operations on the lines are those on pulses. -/
theorem wire_sim (hp : T.Patient timeout) :
    BusSim (wireOps T timeout) (pulseOps T) (Released T) (Low T) (Listening T) where
  start := fun _ _ h => h.start
  restart := fun _ _ h => h.restart hp
  stop := fun _ _ h => h.stop hp
  writeb := fun _ _ data h => h.writeb hp data
  readb := fun _ _ h => ⟨(h.readb hp).1, Int.natCast_nonneg _, (h.readb hp).2⟩
  sendAckOrNack := fun _ _ ack h => h.sendAckOrNack hp ack

end Wires

/-- A device that answers to everything: it counts the bits of a byte and the bytes it has
    answered to, and holds SCL for as long as it may. -/
def listener : Target (Nat × Nat) where
  sends := fun s => s.1 != 8
  stretch := fun _ => 100
  clock := fun s _ => if s.1 = 8 then (0, s.2 + 1) else (s.1 + 1, s.2)
  start := fun s => (0, s.2)
  stop := fun s => (0, s.2)
  stop_sends := fun _ => rfl

end I2c

end Firmware
