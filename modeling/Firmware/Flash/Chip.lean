import Firmware.Lib.Nor

/-!
# The Flash Chip

The serial flash behind `flash0`, as the commands of `sfud_def.h` and the data sheets
they come from describe it, and the SPI link to it.

A transfer is a command byte with its arguments, and possibly bytes that are clocked
out behind it. The chip is a state machine on transfers. It takes a program or an
erase only with the write-enable latch set, clears the latch with it, and is then busy
for a while, in which it ignores everything but a look at its status. A page program
wraps around inside its 256-byte page. In the auto-increment mode, a program command
without an address goes on where the last one ended, until the latch is cleared.

The link can fail, and it can fail on either side of the chip: a transfer that is
reported as failed may or may not have been taken. What becomes of each transfer, and
how long the chip is busy behind it, is a `Fate`, and the fates of all transfers to
come are part of the state, so that "whatever the link does" is a quantifier over them.

## Main definitions

* `Part`: What the data sheet of a chip says.
* `Chip`: The state of a chip.
* `Chip.accept`: What a transfer does to it.
* `Chip.answer`: What it sends back.
* `Fate`, `Link`: The link to the chip.
* `Ready`: A chip that takes the next command.

## Theorems

* `accept_readStatus`, `accept_readData`, `accept_writeEnable`, `accept_writeDisable`: The
  commands that leave the contents alone.
* `accept_pageProgram`, `accept_erase`, `accept_eraseChip`, `accept_aaiFirst`,
  `accept_aaiNext`: The commands that change them.
-/

namespace Firmware

namespace Flash

/-- `SFUD_CMD_WRITE_ENABLE` -/
def cmdWriteEnable : UInt8 := 0x06

/-- `SFUD_CMD_WRITE_DISABLE` -/
def cmdWriteDisable : UInt8 := 0x04

/-- `SFUD_CMD_READ_STATUS_REGISTER` -/
def cmdReadStatusRegister : UInt8 := 0x05

/-- `SFUD_CMD_PAGE_PROGRAM` -/
def cmdPageProgram : UInt8 := 0x02

/-- `SFUD_CMD_AAI_WORD_PROGRAM` -/
def cmdAaiWordProgram : UInt8 := 0xAD

/-- `SFUD_CMD_ERASE_CHIP` -/
def cmdEraseChip : UInt8 := 0xC7

/-- `SFUD_CMD_READ_DATA` -/
def cmdReadData : UInt8 := 0x03

/-- `SFUD_STATUS_REGISTER_BUSY` -/
def statusBusy : UInt8 := 1

/-- `SFUD_STATUS_REGISTER_WEL` -/
def statusWel : UInt8 := 2

/-- The commands with a meaning of their own, which no erase command can be. -/
def reserved : List UInt8 := [cmdWriteEnable, cmdWriteDisable, cmdReadStatusRegister,
  cmdReadData, cmdPageProgram, cmdAaiWordProgram, cmdEraseChip]

/-- What the data sheet of a chip says: its size in bytes, the block size of each erase
    command, and whether an address has four bytes. -/
structure Part where
  capacity : Nat
  eraseSize : UInt8 → Option Nat
  fourByte : Bool

/-- The number of bytes of an address. -/
def Part.addressLen (p : Part) : Nat := if p.fourByte then 4 else 3

/-- The state of a chip: its contents, the write-enable latch, how many looks at the
    status will still find it busy, and in the auto-increment mode the next address. -/
structure Chip where
  mem : Nor.Cells
  wel : Bool := false
  busy : Nat := 0
  aai : Option Nat := none

/-- An address as it is sent, the most significant byte first. -/
def addressOf (bytes : List UInt8) : Nat := bytes.foldl (fun a b => a * 256 + b.toNat) 0

namespace Chip

/-- The chip at a time when `busy` more looks will find it busy. -/
def later (c : Chip) (busy : Nat) : Chip := { c with busy := busy }

/-- The status register. The latch is shown until the operation that clears it is over. -/
def status (c : Chip) : UInt8 :=
  (if c.busy ≠ 0 then statusBusy else 0) ||| (if c.wel ∨ c.busy ≠ 0 then statusWel else 0)

/-- A command that changes the contents, with the latch set. `duration` is how long the
    chip is busy behind it. -/
def change (p : Part) (c : Chip) (duration : Nat) (cmd : UInt8) (args : List UInt8) : Chip :=
  let addr := addressOf (args.take p.addressLen)
  let data := args.drop p.addressLen
  match c.aai with
  | some a =>
      -- In this mode the words behind the first one come without an address.
      if cmd = cmdAaiWordProgram then
        { c with mem := Nor.program c.mem a args, busy := duration, aai := some (a + 2) }
      else c
  | none =>
      if cmd = cmdPageProgram then
        { c with mem := Nor.wrapped 256 c.mem addr data, wel := false, busy := duration }
      else if cmd = cmdAaiWordProgram then
        -- The first word goes to an even address, whatever the last bit says.
        { c with
          mem := Nor.program c.mem (Nor.down 2 addr) data
          busy := duration
          aai := some (Nor.down 2 addr + 2) }
      else if cmd = cmdEraseChip then
        { c with mem := Nor.erase c.mem 0 p.capacity, wel := false, busy := duration }
      else match p.eraseSize cmd with
        | some size =>
            { c with
              mem := Nor.erase c.mem (Nor.down size addr) (Nor.down size addr + size)
              wel := false
              busy := duration }
        | none => c

/-- What a transfer does to the chip. While it is busy, only a look at the status does
    anything: time passes. -/
def accept (p : Part) (c : Chip) (duration : Nat) : List UInt8 → Chip
  | [] => c
  | cmd :: args =>
      -- A busy chip ignores every other command.
      if c.busy ≠ 0 then
        if cmd = cmdReadStatusRegister then c.later (c.busy - 1) else c
      else if cmd = cmdReadStatusRegister ∨ cmd = cmdReadData then c
      else if cmd = cmdWriteEnable then { c with wel := true }
      else if cmd = cmdWriteDisable then { c with wel := false, aai := none }
      -- Without the latch nothing is changed.
      else if c.wel then c.change p duration cmd args
      else c

/-- The `n` bytes that are clocked out behind a command. -/
def answer (p : Part) (c : Chip) (n : Nat) : List UInt8 → List UInt8
  | [] => List.replicate n 0xff
  | cmd :: args =>
      if cmd = cmdReadStatusRegister then List.replicate n c.status
      else if cmd = cmdReadData ∧ c.busy = 0 then
        (List.range n).map fun i => c.mem (addressOf (args.take p.addressLen) + i)
      else List.replicate n 0xff

end Chip

/-- What becomes of a transfer: it is done, or it is reported as failed and the chip has
    not taken it, or it is reported as failed and the chip has. -/
inductive Fate
  | done (duration : Nat)
  | lost
  | late (duration : Nat)
  deriving DecidableEq, Repr

/-- The chip, the fates of the transfers to come and the number of those there have been. -/
structure Link where
  chip : Chip
  fates : Nat → Fate
  sent : Nat := 0

/-- The link behind a transfer. -/
def Link.next (l : Link) (c : Chip) : Link := ⟨c, fun n => l.fates (n + 1), l.sent + 1⟩

/-- A link on which every transfer gets through and no operation takes longer than
    `limit` looks at the status. -/
def Link.Clean (limit : Nat) (l : Link) : Prop := ∀ n, ∃ d, d ≤ limit ∧ l.fates n = .done d

/-- A chip with the given contents that takes the next command. -/
structure Ready (m : Nor.Cells) (c : Chip) : Prop where
  mem : c.mem = m
  busy : c.busy = 0
  aai : c.aai = none

theorem Ready.later {m : Nor.Cells} {c : Chip} (h : Ready m c) (b : Nat) (hb : b ≤ c.busy) :
    Ready m (c.later b) :=
  ⟨h.mem, Nat.le_zero.mp (h.busy ▸ hb), h.aai⟩

section Accept

variable {p : Part} {c : Chip} {d : Nat}

theorem accept_readStatus (args : List UInt8) :
    c.accept p d (cmdReadStatusRegister :: args) = c.later (c.busy - 1) := by
  rcases c with ⟨mem, wel, busy, aai⟩
  by_cases h : busy = 0
  · simp [Chip.accept, Chip.later, h]
  · simp [Chip.accept, h]

theorem accept_readData (h : c.busy = 0) (args : List UInt8) :
    c.accept p d (cmdReadData :: args) = c := by
  simp [Chip.accept, h]

theorem accept_writeEnable (h : c.busy = 0) (args : List UInt8) :
    c.accept p d (cmdWriteEnable :: args) = { c with wel := true } := by
  simp [Chip.accept, h, cmdWriteEnable, cmdReadStatusRegister, cmdReadData]

theorem accept_writeDisable (h : c.busy = 0) (args : List UInt8) :
    c.accept p d (cmdWriteDisable :: args) = { c with wel := false, aai := none } := by
  simp [Chip.accept, h, cmdWriteDisable, cmdWriteEnable, cmdReadStatusRegister, cmdReadData]

/-- Clearing the latch leaves the contents alone, busy or not. -/
theorem accept_writeDisable_mem (args : List UInt8) :
    (c.accept p d (cmdWriteDisable :: args)).mem = c.mem := by
  by_cases h : c.busy = 0
  · rw [accept_writeDisable h]
  · simp [Chip.accept, h, cmdWriteDisable, cmdReadStatusRegister]

variable {m : Nor.Cells} {addr : Nat} {bytes data : List UInt8}

/-- A page program that stays within its page. -/
theorem accept_pageProgram (hr : Ready m c) (hw : c.wel = true)
    (hlen : bytes.length = p.addressLen) (haddr : addressOf bytes = addr)
    (hfits : addr % 256 + data.length ≤ 256) :
    c.accept p d (cmdPageProgram :: (bytes ++ data)) =
      { c with mem := Nor.program m addr data, wel := false, busy := d } := by
  simp [Chip.accept, Chip.change, hr.busy, hr.aai, hr.mem, hw, cmdPageProgram, cmdWriteEnable,
    cmdWriteDisable, cmdReadStatusRegister, cmdReadData, ← hlen, haddr,
    Nor.wrapped_eq_program m addr data hfits]

theorem accept_erase {cmd : UInt8} {size : Nat} (hr : Ready m c) (hw : c.wel = true)
    (hcmd : cmd ∉ reserved) (hsize : p.eraseSize cmd = some size)
    (hlen : bytes.length = p.addressLen) (haddr : addressOf bytes = addr) :
    c.accept p d (cmd :: bytes) =
      { c with
        mem := Nor.erase m (Nor.down size addr) (Nor.down size addr + size)
        wel := false
        busy := d } := by
  simp only [reserved, List.mem_cons, not_or] at hcmd
  simp [Chip.accept, Chip.change, hr.busy, hr.aai, hr.mem, hw, hcmd, hsize, ← hlen, haddr]

theorem accept_eraseChip (hr : Ready m c) (hw : c.wel = true) :
    c.accept p d [cmdEraseChip] =
      { c with mem := Nor.erase m 0 p.capacity, wel := false, busy := d } := by
  simp [Chip.accept, Chip.change, hr.busy, hr.aai, hr.mem, hw, cmdPageProgram, cmdWriteEnable,
    cmdWriteDisable, cmdReadStatusRegister, cmdReadData, cmdEraseChip, cmdAaiWordProgram]

/-- The first word of an auto-increment program. -/
theorem accept_aaiFirst (hr : Ready m c) (hw : c.wel = true)
    (hlen : bytes.length = p.addressLen) (haddr : addressOf bytes = addr) (heven : 2 ∣ addr) :
    c.accept p d (cmdAaiWordProgram :: (bytes ++ data)) =
      { c with mem := Nor.program m addr data, busy := d, aai := some (addr + 2) } := by
  simp [Chip.accept, Chip.change, hr.busy, hr.aai, hr.mem, hw, cmdPageProgram, cmdWriteEnable,
    cmdWriteDisable, cmdReadStatusRegister, cmdReadData, cmdAaiWordProgram, ← hlen, haddr,
    Nor.down_of_dvd heven]

/-- The words behind it. -/
theorem accept_aaiNext (hb : c.busy = 0) (ha : c.aai = some addr) (hw : c.wel = true) :
    c.accept p d (cmdAaiWordProgram :: data) =
      { c with mem := Nor.program c.mem addr data, busy := d, aai := some (addr + 2) } := by
  simp [Chip.accept, Chip.change, hb, ha, hw, cmdWriteEnable, cmdWriteDisable,
    cmdReadStatusRegister, cmdReadData, cmdAaiWordProgram]

end Accept

end Flash

end Firmware
