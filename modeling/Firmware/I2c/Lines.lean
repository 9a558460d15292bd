import Mathlib

/-!
# The Lines of an I2C Bus

`i2c-bit-ops.c` from `components/drivers/i2c`, which speaks I2C with two lines that it can
pull low, release and look at.

On the other side of the lines is a device that does what the protocol has for a device:
it counts clock pulses, each with the level of SDA while SCL was high, and it takes notice
when SDA falls or rises under a high SCL. It pulls SDA, or leaves it, from one pulse to the
next, and it may hold SCL low for a while behind every pulse. What it makes of this is its
own affair; there may as well be several devices.

The functions that move the lines are below those that do not: an address with its
retries, the bytes of a message and a list of messages go through five operations of the
bus. They are given for any operations, so that they can be read as they are on the lines,
on clock pulses and on bytes.

## Main definitions

* `Target`: A device.
* `Wire`: The lines, as the driver has set them, and the device.
* `Wire.setSda`, `Wire.setScl`, `Wire.sclH`: What the driver does to the lines.
* `BusOps`, `wireOps`: The operations, and what they are on the lines.
* `i2cBitXfer`: A transfer.
-/

namespace Firmware

namespace I2c

/-- A device: the level at which it leaves SDA, the ticks for which it holds SCL behind a
    pulse, and how a pulse, a START and a STOP move it. A device that has seen a STOP does
    not pull SDA. -/
structure Target (σ : Type) where
  sends : σ → Bool
  stretch : σ → Nat
  clock : σ → Bool → σ
  start : σ → σ
  stop : σ → σ
  stop_sends : ∀ s, sends (stop s) = true

/-- The lines: whether the driver releases them, for how many ticks the device will hold
    SCL, whether SDA has kept its level since SCL is high, and the device. -/
structure Wire (σ : Type) where
  scl : Bool := true
  sda : Bool := true
  hold : Nat := 0
  pulse : Bool := false
  dev : σ

section Lines

variable {σ : Type} (T : Target σ) (w : Wire σ)

/-- `GET_SCL` -/
def Wire.sclHigh : Bool := w.scl && w.hold == 0

/-- `GET_SDA` -/
def Wire.sdaHigh : Bool := w.sda && T.sends w.dev

/-- `SET_SDA`. Under a high SCL a change of the line is a START or a STOP. -/
def Wire.setSda (high : Bool) : Wire σ :=
  let w' := { w with sda := high }
  -- The line is low as long as either side pulls it, so the device may hide the change.
  if w.sclHigh ∧ w'.sdaHigh T ≠ w.sdaHigh T then
    { w' with
      dev := if w'.sdaHigh T then T.stop w.dev else T.start w.dev
      pulse := false }
  else w'

/-- `SET_SCL`. A pulse is over when SCL falls, if there was no START or STOP in it. -/
def Wire.setScl (high : Bool) : Wire σ :=
  if high then
    { w with scl := true, pulse := if !w.scl ∧ w.hold = 0 then true else w.pulse }
  else if w.sclHigh then
    -- The device looks at SDA here, and may hold SCL from now on.
    let dev := if w.pulse then T.clock w.dev (w.sdaHigh T) else w.dev
    { w with scl := false, pulse := false, dev, hold := T.stretch dev }
  else { w with scl := false }

/-- `rt_thread_delay`. The device may let go of SCL, which rises then. -/
def Wire.delay (ticks : Nat) : Wire σ :=
  { w with
    hold := w.hold - ticks
    -- SCL rises in the middle of the wait if the driver has let go of it.
    pulse := if w.scl ∧ w.hold ≠ 0 ∧ w.hold ≤ ticks then true else w.pulse }

/-- The loop of `SCL_H`, which looks at the line `n` times at most, and whether it finds
    it high. -/
def Wire.sclLoop (timeout : Nat) : Nat → Nat → Wire σ → Bool × Wire σ
  | 0, _, w => (false, w)
  | n + 1, elapsed, w =>
      if w.sclHigh then (true, w)
      -- The time is looked at behind the line, so a wait may go beyond the limit.
      else if timeout < elapsed then (false, w)
      else sclLoop timeout n (elapsed + (timeout + 1) / 2) (w.delay ((timeout + 1) / 2))

/-- `SCL_H`. Three waits of half a time limit are more than all of it, so the fourth look is
    the last one. -/
def Wire.sclH (timeout : Nat) : Bool × Wire σ := (w.setScl T true).sclLoop timeout 4 0

/-- `-RT_ETIMEOUT` -/
abbrev etimeout : Int := -2

/-- `i2c_start` -/
def i2cStartOn : Wire σ := (w.setSda T false).setScl T false

/-- `i2c_restart` -/
def i2cRestart (timeout : Nat) : Wire σ :=
  (((w.setSda T true).sclH T timeout).2.setSda T false).setScl T false

/-- `i2c_stop` -/
def i2cStop (timeout : Nat) : Wire σ := ((w.setSda T false).sclH T timeout).2.setSda T true

/-- `i2c_waitack` -/
def i2cWaitack (timeout : Nat) : Int × Wire σ :=
  match (w.setSda T true).sclH T timeout with
  | (false, w) => (etimeout, w)
  | (true, w) => (if w.sdaHigh T then 0 else 1, w.setScl T false)

/-- The bit of a byte that `i2c_writeb` sends. -/
def bitOf (data i : UInt8) : Bool := (data >>> i) &&& 1 != 0

/-- The loop of `i2c_writeb`. -/
def writeBits (timeout : Nat) (data : UInt8) : List UInt8 → Wire σ → Bool × Wire σ
  | [], w => (true, w)
  | i :: is, w =>
      -- SDA changes while SCL is low, which is neither START nor STOP.
      match ((w.setScl T false).setSda T (bitOf data i)).sclH T timeout with
      | (false, w) => (false, w)
      | (true, w) => writeBits timeout data is w

/-- `i2c_writeb` -/
def i2cWriteb (timeout : Nat) (data : UInt8) : Int × Wire σ :=
  match writeBits T timeout data [7, 6, 5, 4, 3, 2, 1, 0] w with
  | (false, w) => (etimeout, w)
  | (true, w) => i2cWaitack T (w.setScl T false) timeout

/-- The loop of `i2c_readb`. -/
def readBits (timeout : Nat) : Nat → UInt8 → Wire σ → Int × Wire σ
  | 0, data, w => (data.toNat, w)
  | n + 1, data, w =>
      match w.sclH T timeout with
      | (false, w) => (etimeout, w)
      | (true, w) =>
          let data := (data <<< 1) ||| (if w.sdaHigh T then 1 else 0)
          readBits timeout n data (w.setScl T false)

/-- `i2c_readb` -/
def i2cReadb (timeout : Nat) : Int × Wire σ := readBits T timeout 8 0 (w.setSda T true)

/-- `i2c_send_ack_or_nack` -/
def i2cSendAckOrNack (timeout : Nat) (ack : Bool) : Int × Wire σ :=
  match (if ack then w.setSda T false else w).sclH T timeout with
  | (false, w) => (etimeout, w)
  | (true, w) => (0, w.setScl T false)

end Lines

/-- What a transfer needs of a bus. -/
structure BusOps (β : Type) where
  start : β → β
  restart : β → β
  stop : β → β
  writeb : β → UInt8 → Int × β
  readb : β → Int × β
  sendAckOrNack : β → Bool → Int × β

/-- The operations on the lines. -/
def wireOps {σ : Type} (T : Target σ) (timeout : Nat) : BusOps (Wire σ) where
  start := i2cStartOn T
  restart := fun w => i2cRestart T w timeout
  stop := fun w => i2cStop T w timeout
  writeb := fun w data => i2cWriteb T w timeout data
  readb := fun w => i2cReadb T w timeout
  sendAckOrNack := fun w ack => i2cSendAckOrNack T w timeout ack

/-- `struct rt_i2c_msg`, with a buffer of the length of the message. -/
structure Msg where
  addr : UInt16
  flags : UInt16
  buf : List UInt8
  deriving DecidableEq, Repr

namespace Msg

variable (msg : Msg)

/-- `RT_I2C_RD` -/
def rd : Bool := msg.flags &&& 1 != 0

/-- `RT_I2C_ADDR_10BIT` -/
def addr10Bit : Bool := msg.flags &&& 4 != 0

/-- `RT_I2C_NO_START` -/
def noStart : Bool := msg.flags &&& 16 != 0

/-- `RT_I2C_IGNORE_NACK` -/
def ignoreNack : Bool := msg.flags &&& 32 != 0

/-- `RT_I2C_NO_READ_ACK` -/
def noReadAck : Bool := msg.flags &&& 64 != 0

end Msg

section Transfer

variable {β : Type} (B : BusOps β)

/-- The loop of `i2c_send_bytes`, with the number of bytes that have been sent. -/
def i2cSendBytes (ignoreNack : Bool) : List UInt8 → Nat → β → Int × β
  | [], bytes, b => (bytes, b)
  | x :: xs, bytes, b =>
      -- A missing acknowledgement is 0, which only counts as sent with the flag.
      let (ret, b) := B.writeb b x
      if 0 < ret ∨ (ignoreNack ∧ ret = 0) then i2cSendBytes ignoreNack xs (bytes + 1) b
      else (ret, b)

/-- The loop of `i2c_recv_bytes` for `count` more bytes, with those that have been
    received. -/
def i2cRecvBytes (noReadAck : Bool) : Nat → List UInt8 → β → Int × List UInt8 × β
  | 0, bytes, b => (bytes.length, bytes, b)
  | count + 1, bytes, b =>
      let (val, b) := B.readb b
      -- A time-out ends the loop with the count and not with an error.
      if val < 0 then (bytes.length, bytes, b)
      else
        let bytes := bytes ++ [UInt8.ofNat val.toNat]
        if noReadAck then i2cRecvBytes noReadAck count bytes b
        else
          let (ret, b) := B.sendAckOrNack b (count ≠ 0)
          if ret < 0 then (ret, bytes, b) else i2cRecvBytes noReadAck count bytes b

/-- `i2c_send_address`, which tries once more for each retry. -/
def i2cSendAddress (addr : UInt8) : Nat → β → Int × β
  | 0, b => B.writeb b addr
  | retries + 1, b =>
      let (ret, b) := B.writeb b addr
      if ret = 1 then (ret, b) else i2cSendAddress addr retries (B.start (B.stop b))

/-- `-RT_EIO` -/
abbrev eio : Int := -8

/-- `-RT_ERROR` -/
abbrev error : Int := -1

/-- `i2c_bit_send_address` -/
def i2cBitSendAddress (busRetries : Nat) (msg : Msg) (b : β) : Int × β :=
  let retries := if msg.ignoreNack then 0 else busRetries
  if msg.addr10Bit then
    let addr1 := (0xf0 : UInt8) ||| ((msg.addr >>> 7) &&& 0x06).toUInt8
    let (ret, b) := i2cSendAddress B addr1 retries b
    -- The first byte has the two upper bits of the address, and is retried alone.
    if ret ≠ 1 ∧ !msg.ignoreNack then (eio, b)
    else
      let (ret, b) := B.writeb b (msg.addr &&& 0xff).toUInt8
      if ret ≠ 1 ∧ !msg.ignoreNack then (eio, b)
      -- A read repeats the first byte behind a restart, now with the direction.
      else if msg.rd then
        let (ret, b) := i2cSendAddress B (addr1 ||| 1) retries (B.restart b)
        if ret ≠ 1 ∧ !msg.ignoreNack then (eio, b) else (0, b)
      else (0, b)
  else
    let addr1 : UInt8 := (msg.addr <<< 1).toUInt8 ||| (if msg.rd then 1 else 0)
    let (ret, b) := i2cSendAddress B addr1 retries b
    if ret ≠ 1 ∧ !msg.ignoreNack then (eio, b) else (0, b)

/-- What a transfer does about a message, which may be its first one: the value with which
    it goes to `out`, if it does, and the buffer. -/
def i2cXferMsg (busRetries : Nat) (first : Bool) (msg : Msg) (b : β) :
    Option Int × List UInt8 × β :=
  let (ret, b) :=
    if msg.noStart then (0, b)
    else i2cBitSendAddress B busRetries msg (if first then b else B.restart b)
  if ret ≠ 0 ∧ !msg.ignoreNack then (some ret, msg.buf, b)
  else if msg.rd then
    let (ret, bytes, b) := i2cRecvBytes B msg.noReadAck msg.buf.length [] b
    -- A short count is an error too.
    (if ret < msg.buf.length then some (if 0 ≤ ret then eio else ret) else none,
      bytes ++ msg.buf.drop bytes.length, b)
  else
    let (ret, b) := i2cSendBytes B msg.ignoreNack msg.buf 0 b
    (if ret < msg.buf.length then some (if 0 ≤ ret then error else ret) else none, msg.buf, b)

/-- The loop of `i2c_bit_xfer`, behind `i` messages: what it returns, and the buffers. -/
def i2cXferLoop (busRetries : Nat) : Nat → List Msg → β → Int × List (List UInt8) × β
  | i, [], b => (i, [], b)
  | i, msg :: msgs, b =>
      match i2cXferMsg B busRetries (i = 0) msg b with
      | (some ret, buf, b) => (ret, buf :: msgs.map Msg.buf, b)
      | (none, buf, b) =>
          let (ret, bufs, b) := i2cXferLoop busRetries (i + 1) msgs b
          (ret, buf :: bufs, b)

/-- `i2c_bit_xfer` -/
def i2cBitXfer (busRetries : Nat) (msgs : List Msg) (b : β) : Int × List (List UInt8) × β :=
  let (ret, bufs, b) := i2cXferLoop B busRetries 0 msgs (B.start b)
  (ret, bufs, B.stop b)

end Transfer

end I2c

end Firmware
