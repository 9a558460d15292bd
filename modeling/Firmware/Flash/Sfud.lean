import Firmware.Flash.Chip
import Firmware.Lib.Program

/-!
# The Flash Driver

The driver of the serial flash: erasing, writing and reading from
`sfud/src/sfud.c`, with the choice of an erase command from `sfud/src/sfud_sfdp.c`.

Every function talks to the chip through `spi->wr` and gives up at the first transfer
that fails, so a function is a computation over the link that can throw, and
`goto __exit` is a computation with an exit that runs either way. The bounds checks
are in 32-bit arithmetic, as in the source.

The SPI bus lock and the messages are left out.

## Main definitions

* `SfudErr`: What the functions return.
* `SfudFlash`: What the driver knows of its chip.
* `wr`, `sfudReadStatus`, `setWriteEnabled`, `waitBusy`, `operation`: Transfers.
* `makeAdressByteArray`: An address as it is sent.
* `sfudSfdpGetSuitableEraser`: The choice of an erase command.
* `sfudChipErase`, `eraseLoop`, `sfudErase`: Erasing.
* `page256Loop`, `page256Or1ByteWrite`, `aaiLoop`, `aaiWrite`, `sfudWrite`: Programming.
* `sfudEraseWrite`, `sfudRead`: The two operations of a block device.

## Theorems

* `ends_setWriteEnabled`, `ends_setWriteDisabled`, `ends_waitBusy`: What the transfers do to
  the chip, whatever the link does.
* `ends_withExit`: A function with an exit that clears the latch.
* `ends_operation`: An erase or a program, given what its command does to a chip.
* `addressOf_makeAdressByteArray`: An address is read back as it was sent.
-/

namespace Firmware

namespace Flash

/-- `sfud_err` without `SFUD_SUCCESS` -/
inductive SfudErr
  | notFound
  | write
  | read
  | timeout
  | addrOutOfBound
  deriving DecidableEq, Repr

/-- A function of the driver: it talks to the chip over the link, and returns
    `SFUD_SUCCESS` with a value or an error. -/
abbrev Sfud := Program SfudErr Link

/-- An entry of `sfdp.eraser` -/
structure Eraser where
  size : Nat := 0
  cmd : UInt8 := 0
  deriving DecidableEq, Repr

/-- The number of the bit of `SFUD_WM_PAGE_256B` -/
def wmPage256b : Nat := 0

/-- The number of the bit of `SFUD_WM_AAI` -/
def wmAai : Nat := 2

/-- The number of the bit of `SFUD_WM_DUAL_BUFFER` -/
def wmDualBuffer : Nat := 3

/-- `SMALLEST_ERASER_INDEX` -/
def smallestEraserIndex : Fin 4 := ⟨0, Nat.succ_pos 3⟩

/-- `sfud_flash`: the chip information, the parameters read by SFDP, the width of an
    address and the number of retries. -/
structure SfudFlash where
  capacity : Nat
  writeMode : Nat
  eraseGran : Nat
  eraseGranCmd : UInt8
  sfdpAvailable : Bool := false
  eraser : Fin 4 → Eraser := fun _ => {}
  addrIn4Byte : Bool := false
  retryTimes : Nat := 60 * 10000

/-- Arithmetic of `uint32_t` and `size_t`. -/
def wrap32 (n : Nat) : Nat := n % 2 ^ 32

/-- `spi->wr`: the bytes of `write_buf` are sent and `n` bytes are read behind them. -/
def wr (p : Part) (bytes : List UInt8) (n : Nat) : Sfud (List UInt8) := fun l =>
  match l.fates 0 with
  | .done d => (.ok (l.chip.answer p n bytes), l.next (l.chip.accept p d bytes))
  | .lost => (.error .timeout, l.next l.chip)
  | .late d => (.error .timeout, l.next (l.chip.accept p d bytes))

/-- `sfud_read_status` -/
def sfudReadStatus (p : Part) : Sfud UInt8 := do
  let bytes ← wr p [cmdReadStatusRegister] 1
  return bytes.headD 0xff

/-- `set_write_enabled`. The second test compares a bit of weight 2 with 1. -/
def setWriteEnabled (p : Part) (enabled : Bool) : Sfud Unit := do
  let _ ← wr p [if enabled then cmdWriteEnable else cmdWriteDisable] 0
  let registerStatus ← sfudReadStatus p
  if enabled && registerStatus &&& statusWel == 0 then
    throw .write
  else if !enabled && registerStatus &&& statusWel == 1 then
    throw .write

/-- `wait_busy`, with the retries that are left. -/
def waitBusy (p : Part) : Nat → Sfud Unit
  | 0 => do
      match ← outcome (sfudReadStatus p) with
      | .ok status => if status &&& statusBusy = 0 then pure () else throw .timeout
      | .error _ => throw .timeout
  | retryTimes + 1 => do
      match ← outcome (sfudReadStatus p) with
      | .ok status => if status &&& statusBusy = 0 then pure () else waitBusy p retryTimes
      -- A look that fails counts as one that finds the chip busy.
      | .error _ => waitBusy p retryTimes

/-- The three calls that every erase and every page program of the source is made of: set
    the latch, send the command, wait for the chip. -/
def operation (p : Part) (retryTimes : Nat) (bytes : List UInt8) : Sfud Unit := do
  setWriteEnabled p true
  let _ ← wr p bytes 0
  waitBusy p retryTimes

namespace SfudFlash

variable (f : SfudFlash)

/-- `make_adress_byte_array` -/
def makeAdressByteArray (addr : Nat) : List UInt8 :=
  let len := if f.addrIn4Byte then 4 else 3
  (List.range len).map fun i => UInt8.ofNat (addr >>> ((len - (i + 1)) * 8))

/-- The loop of `sfud_sfdp_get_suitable_eraser` from entry `i` down to the first one. -/
def searchEraser (addr size : Nat) : Fin 4 → Fin 4
  | ⟨0, _⟩ => smallestEraserIndex
  | ⟨i + 1, h⟩ =>
      if (f.eraser ⟨i + 1, h⟩).size ≠ 0 ∧ (f.eraser ⟨i + 1, h⟩).size ≤ size ∧
          addr % (f.eraser ⟨i + 1, h⟩).size = 0 then ⟨i + 1, h⟩
      else searchEraser addr size ⟨i, by omega⟩

/-- `sfud_sfdp_get_suitable_eraser` -/
def sfudSfdpGetSuitableEraser (addr size : Nat) : Fin 4 :=
  if addr % (f.eraser smallestEraserIndex).size ≠ 0 then smallestEraserIndex
  else f.searchEraser addr size (Fin.last 3)

/-- The erase command of the next turn of the loop in `sfud_erase`. -/
def currentEraser (addr size : Nat) : Eraser :=
  if f.sfdpAvailable then f.eraser (f.sfudSfdpGetSuitableEraser addr size)
  else ⟨f.eraseGran, f.eraseGranCmd⟩

variable (p : Part)

/-- `sfud_chip_erase`. The dual-buffer chips have a command of their own. -/
def sfudChipErase : Sfud Unit :=
  atExit (operation p f.retryTimes
    (if f.writeMode.testBit wmDualBuffer then [cmdEraseChip, 0x94, 0x80, 0x9A]
      else [cmdEraseChip])) (setWriteEnabled p false)

/-- The loop of `sfud_erase`. With `fuel` for every byte there is some to spare, since
    no turn erases less than one. -/
def eraseLoop : Nat → Nat → Nat → Sfud Unit
  | 0, _, _ => pure ()
  | fuel + 1, addr, size => do
      if size = 0 then pure ()
      else
        let e := f.currentEraser addr size
        operation p f.retryTimes (e.cmd :: f.makeAdressByteArray addr)
        -- A first block that begins in front of the address is erased whole.
        let turn := if addr % e.size ≠ 0 then e.size - addr % e.size else e.size
        if turn < size then eraseLoop fuel (wrap32 (addr + turn)) (size - turn) else pure ()

/-- `sfud_erase` -/
def sfudErase (addr size : Nat) : Sfud Unit := do
  if wrap32 (addr + size) > f.capacity then
    throw .addrOutOfBound
  else if addr = 0 ∧ size = f.capacity then
    f.sfudChipErase p
  else
    atExit (f.eraseLoop p size addr size) (setWriteEnabled p false)

/-- The loop of `page256_or_1_byte_write`. -/
def page256Loop (writeGran : Nat) : Nat → Nat → List UInt8 → Sfud Unit
  | 0, _, _ => pure ()
  | fuel + 1, addr, data => do
      if data.length = 0 then pure ()
      else
        -- What is left of the page.
        let room := if addr % writeGran ≠ 0 then writeGran - addr % writeGran else writeGran
        let dataSize := if room < data.length then room else data.length
        operation p f.retryTimes
          (cmdPageProgram :: (f.makeAdressByteArray addr ++ data.take dataSize))
        page256Loop writeGran fuel (wrap32 (addr + dataSize)) (data.drop dataSize)

/-- `page256_or_1_byte_write` -/
def page256Or1ByteWrite (addr : Nat) (data : List UInt8) (writeGran : Nat) : Sfud Unit := do
  if wrap32 (addr + data.length) > f.capacity then
    throw .addrOutOfBound
  else
    atExit (f.page256Loop p writeGran data.length addr data) (setWriteEnabled p false)

/-- The loop of `aai_write`: the words, the first of them with an address. It returns
    where it stopped and what is left. -/
def aaiLoop : Bool → Nat → List UInt8 → Sfud (Nat × List UInt8)
  | firstWrite, addr, x :: y :: data => do
      let _ ← wr p (cmdAaiWordProgram ::
        ((if firstWrite then f.makeAdressByteArray addr else []) ++ [x, y])) 0
      waitBusy p f.retryTimes
      aaiLoop false (wrap32 (addr + 2)) data
  | _, addr, data => pure (addr, data)

variable (behind : Nat → UInt8)

/-- The part of `aai_write` from an even address on. -/
def aaiEven (addr : Nat) (data : List UInt8) : Sfud Unit := do
  setWriteEnabled p true
  -- The mode ends with the latch.
  let (addr, rest) ← f.aaiLoop p true addr data
  setWriteEnabled p false
  if rest.length = 1 then f.page256Or1ByteWrite p addr rest 1

/-- `aai_write`. An odd address has its first byte written alone; the exit clears the
    latch only behind an error. `behind` is what the memory holds behind `data`. -/
def aaiWrite (addr : Nat) (data : List UInt8) : Sfud Unit := do
  if wrap32 (addr + data.length) > f.capacity then
    throw .addrOutOfBound
  else
    let r ← outcome (do
      if addr % 2 ≠ 0 then
        -- Without data `size--` wraps, and the loop goes on for that many bytes.
        let data := if data.length = 0 then (List.range (2 ^ 32)).map behind else data
        f.page256Or1ByteWrite p addr (data.take 1) 1
        f.aaiEven p (wrap32 (addr + 1)) (data.drop 1)
      else
        f.aaiEven p addr data)
    match r with
    | .ok () => pure ()
    | .error e =>
        let _ ← outcome (setWriteEnabled p false)
        throw e

/-- `sfud_write`. In the other modes, which are those of a chip that takes single bytes or
    has two buffers, nothing is written, and it is no error. -/
def sfudWrite (addr : Nat) (data : List UInt8) : Sfud Unit :=
  if f.writeMode.testBit wmPage256b then f.page256Or1ByteWrite p addr data 256
  else if f.writeMode.testBit wmAai then f.aaiWrite p behind addr data
  else pure ()

/-- `sfud_erase_write` -/
def sfudEraseWrite (addr : Nat) (data : List UInt8) : Sfud Unit := do
  f.sfudErase p addr data.length
  f.sfudWrite p behind addr data

/-- `sfud_read` -/
def sfudRead (addr size : Nat) : Sfud (List UInt8) := do
  if wrap32 (addr + size) > f.capacity then
    throw .addrOutOfBound
  else
    waitBusy p f.retryTimes
    wr p (cmdReadData :: f.makeAdressByteArray addr) size

end SfudFlash

section Transfers

variable {p : Part} {l : Link} {limit : Nat} {G : Prop}

theorem Link.Clean.next (h : l.Clean limit) (c : Chip) : (l.next c).Clean limit :=
  fun n => h (n + 1)

/-- A transfer. `G` is what promises a clean link, so that an error says it is false. -/
theorem ends_wr (bytes : List UInt8) (n : Nat) (hG : G → l.Clean limit) :
    Ends (wr p bytes n) l
      (fun r l' => r = l.chip.answer p n bytes ∧ (G → l'.Clean limit) ∧
        ∃ d, (G → d ≤ limit) ∧ l'.chip = l.chip.accept p d bytes)
      (fun _ l' => ¬ G ∧ (l'.chip = l.chip ∨ ∃ d, l'.chip = l.chip.accept p d bytes)) := by
  -- On a clean link a transfer has no other fate than to be done.
  have hfate : ∀ {q}, l.fates 0 = q → (∀ d, q ≠ .done d) → ¬ G := by
    intro q hq hne hg
    rcases hG hg 0 with ⟨d, -, hd⟩
    exact hne d (hq.symm.trans hd)
  unfold Ends wr
  cases hf : l.fates 0 with
  | done d =>
      refine ⟨rfl, fun hg => (hG hg).next _, d, fun hg => ?_, rfl⟩
      rcases hG hg 0 with ⟨d', hle, hd'⟩
      rw [hf, Fate.done.injEq] at hd'
      omega
  | lost => exact ⟨hfate hf (by simp), .inl rfl⟩
  | late d => exact ⟨hfate hf (by simp), .inr ⟨d, rfl⟩⟩

theorem ends_sfudReadStatus (hG : G → l.Clean limit) :
    Ends (sfudReadStatus p) l
      (fun r l' => r = l.chip.status ∧ (G → l'.Clean limit) ∧
        l'.chip = l.chip.later (l.chip.busy - 1))
      (fun _ l' => ¬ G ∧ (l'.chip = l.chip ∨
        l'.chip = l.chip.later (l.chip.busy - 1))) := by
  unfold sfudReadStatus
  rw [ends_bind]
  refine (ends_wr _ 1 hG).mono ?_ ?_
  · rintro r l' ⟨hr, hclean, d, -, hc⟩
    rw [accept_readStatus] at hc
    refine ⟨?_, hclean, hc⟩
    rw [hr]
    simp [Chip.answer]
  · rintro e l' ⟨hg, hc | ⟨d, hc⟩⟩
    · exact ⟨hg, .inl hc⟩
    · rw [accept_readStatus] at hc
      exact ⟨hg, .inr hc⟩

theorem status_busy (c : Chip) : c.status &&& statusBusy = 0 ↔ c.busy = 0 := by
  unfold Chip.status
  by_cases hb : c.busy = 0
  · cases c.wel with
    | false => simp [hb]
    | true =>
        simp [hb]
        decide
  · simp [hb]
    decide

theorem status_wel {c : Chip} (h : c.wel = true) : (c.status &&& statusWel == 0) = false := by
  unfold Chip.status
  by_cases hb : c.busy = 0
  · simp [hb, h]
    decide
  · simp [hb, h]
    decide

/-- The latch is set on a chip that is ready, and nothing else changes. -/
theorem ends_setWriteEnabled {m : Nor.Cells} (hG : G → l.Clean limit) (hr : Ready m l.chip) :
    Ends (setWriteEnabled p true) l
      (fun _ l' => (G → l'.Clean limit) ∧ Ready m l'.chip ∧ l'.chip.wel = true)
      (fun _ l' => ¬ G ∧ Ready m l'.chip) := by
  -- Whether the command is reported as failed or not, a chip that takes it has the latch set.
  have hset : ∀ d, Ready m (l.chip.accept p d [cmdWriteEnable]) ∧
      (l.chip.accept p d [cmdWriteEnable]).wel = true := by
    intro d
    rw [accept_writeEnable hr.busy]
    exact ⟨⟨hr.mem, hr.busy, hr.aai⟩, rfl⟩
  unfold setWriteEnabled
  rw [if_pos rfl, ends_bind]
  refine (ends_wr _ 0 hG).mono ?_ ?_
  · rintro - l1 ⟨-, hclean, d, -, hc⟩
    rcases hc ▸ hset d with ⟨hr1, hw1⟩
    rw [ends_bind]
    refine (ends_sfudReadStatus hclean).mono ?_ ?_
    · rintro r l2 ⟨hst, hclean', hc'⟩
      rw [hst, status_wel hw1]
      exact ⟨hclean', hc' ▸ hr1.later _ (Nat.sub_le _ 1), hc' ▸ hw1⟩
    · rintro e l2 ⟨hg, hc' | hc'⟩
      · exact ⟨hg, hc' ▸ hr1⟩
      · exact ⟨hg, hc' ▸ hr1.later _ (Nat.sub_le _ 1)⟩
  · rintro e l1 ⟨hg, hc | ⟨d, hc⟩⟩
    · exact ⟨hg, hc ▸ hr⟩
    · exact ⟨hg, hc ▸ (hset d).1⟩

/-- The weight of the latch is 2, so its value is never 1. -/
theorem ne_one_of_wel (s : UInt8) : (s &&& statusWel == 1) = false := by
  rw [beq_eq_false_iff_ne]
  intro h
  -- The mask has no bit 0.
  have hbit := congrArg (fun x : UInt8 => x.toNat.testBit 0) h
  simp [statusWel] at hbit

/-- Whatever survives a look at the status and the clearing of the latch survives
    `set_write_enabled(flash, false)`, which can only fail if the link does. -/
theorem ends_setWriteDisabled {P : Chip → Prop} (hG : G → l.Clean limit)
    (hw : ∀ c d, P c → P (c.accept p d [cmdWriteDisable]))
    (hs : ∀ c, P c → P (c.later (c.busy - 1))) (h : P l.chip) :
    Ends (setWriteEnabled p false) l (fun _ l' => (G → l'.Clean limit) ∧ P l'.chip)
      (fun _ l' => ¬ G ∧ P l'.chip) := by
  unfold setWriteEnabled
  rw [ends_bind]
  refine (ends_wr _ 0 hG).mono ?_ ?_
  · rintro - l1 ⟨-, hclean, d, -, hc⟩
    have h1 : P l1.chip := hc ▸ hw l.chip d h
    rw [ends_bind]
    refine (ends_sfudReadStatus hclean).mono ?_ ?_
    · rintro r l2 ⟨-, hclean', hc'⟩
      simp only [Bool.false_and, Bool.false_eq_true, if_false, Bool.not_false, Bool.true_and,
        ne_one_of_wel]
      exact ⟨hclean', hc' ▸ hs l1.chip h1⟩
    · rintro e l2 ⟨hg, hc' | hc'⟩
      · exact ⟨hg, hc' ▸ h1⟩
      · exact ⟨hg, hc' ▸ hs l1.chip h1⟩
  · rintro e l1 ⟨hg, hc | ⟨d, hc⟩⟩
    · exact ⟨hg, hc ▸ h⟩
    · exact ⟨hg, hc ▸ hw l.chip d h⟩

/-- The exit of a function leaves a chip that is ready as it was. -/
theorem ends_exit_ready {m : Nor.Cells} (hG : G → l.Clean limit) (hr : Ready m l.chip) :
    Ends (setWriteEnabled p false) l (fun _ l' => (G → l'.Clean limit) ∧ Ready m l'.chip)
      (fun _ l' => ¬ G ∧ Ready m l'.chip) := by
  refine ends_setWriteDisabled hG (fun c d hc => ?_) (fun c hc => ?_) hr
  · rw [accept_writeDisable hc.busy]
    exact ⟨hc.mem, hc.busy, rfl⟩
  · exact hc.later _ (Nat.sub_le _ 1)

/-- And it leaves the contents alone in any case. -/
theorem ends_exit_mem {m : Nor.Cells} (hm : l.chip.mem = m) :
    Ends (setWriteEnabled p false) l (fun _ l' => l'.chip.mem = m)
      (fun _ l' => l'.chip.mem = m) := by
  have h := ends_setWriteDisabled (p := p) (P := fun c => c.mem = m)
    (False.elim : False → l.Clean 0) (fun c d hc => by rw [accept_writeDisable_mem, hc])
    (fun c hc => hc) hm
  exact h.mono (fun _ _ h => h.2) (fun _ _ h => h.2)

/-- So a function with that exit ends as its body does. -/
theorem ends_withExit {x : Sfud Unit} {m : Nor.Cells} {P : Nor.Cells → Prop}
    (h : Ends x l (fun _ l' => (G → l'.Clean limit) ∧ Ready m l'.chip)
      (fun _ l' => ¬ G ∧ P l'.chip.mem)) :
    Ends (atExit x (setWriteEnabled p false)) l
      (fun _ l' => (G → l'.Clean limit) ∧ Ready m l'.chip)
      (fun _ l' => ¬ G ∧ P l'.chip.mem) := by
  rw [ends_atExit]
  refine h.mono ?_ ?_
  · rintro - l1 ⟨hclean, hr⟩
    refine (ends_exit_ready hclean hr).mono (fun _ _ h => h) ?_
    rintro e l2 ⟨hg, hr2⟩
    exact ⟨(absurd · hg), hr2⟩
  · rintro e l1 ⟨hg, hP⟩
    exact (ends_exit_mem rfl).mono (fun _ _ h => ⟨hg, h ▸ hP⟩) (fun _ _ h => ⟨hg, h ▸ hP⟩)

/-- It ends the auto-increment mode. -/
theorem ends_exit_aai {m : Nor.Cells} (hG : G → l.Clean limit) (hm : l.chip.mem = m)
    (hb : l.chip.busy = 0) :
    Ends (setWriteEnabled p false) l (fun _ l' => (G → l'.Clean limit) ∧ Ready m l'.chip)
      (fun _ l' => ¬ G ∧ l'.chip.mem = m) := by
  unfold setWriteEnabled
  rw [ends_bind]
  refine (ends_wr _ 0 hG).mono ?_ ?_
  · rintro - l1 ⟨-, hclean, d, -, hc⟩
    -- The command is taken though the mode is on, since the chip is not busy.
    have hc1 : l1.chip = { l.chip with wel := false, aai := none } :=
      hc.trans (accept_writeDisable hb [])
    have hr : Ready m l1.chip := hc1 ▸ ⟨hm, hb, rfl⟩
    rw [ends_bind]
    refine (ends_sfudReadStatus hclean).mono ?_ ?_
    · rintro r l2 ⟨-, hclean', hc'⟩
      simp only [Bool.false_and, Bool.false_eq_true, if_false, Bool.not_false, Bool.true_and,
        ne_one_of_wel]
      exact ⟨hclean', hc' ▸ hr.later _ (Nat.sub_le _ 1)⟩
    · rintro e l2 ⟨hg, hc' | hc'⟩
      · exact ⟨hg, hc' ▸ hr.mem⟩
      · exact ⟨hg, hc' ▸ hr.mem⟩
  · rintro e l1 ⟨hg, hc | ⟨d, hc⟩⟩
    · exact ⟨hg, hc ▸ hm⟩
    · rw [hc]
      exact ⟨hg, (accept_writeDisable_mem []).trans hm⟩

/-- Waiting for the chip changes nothing but the time, and gives up only if the link
    fails or the chip takes longer than there are retries. -/
theorem ends_waitBusy (n : Nat) (hG : G → l.Clean limit) (hb : G → l.chip.busy ≤ n) :
    Ends (waitBusy p n) l
      (fun _ l' => (G → l'.Clean limit) ∧ l'.chip = l.chip.later 0)
      (fun _ l' => ¬ G ∧ ∃ b, l'.chip = l.chip.later b) := by
  induction n generalizing l with
  | zero =>
      unfold waitBusy
      rw [ends_bind, ends_outcome]
      refine (ends_sfudReadStatus hG).mono ?_ ?_
      · rintro r l1 ⟨rfl, hclean, hc⟩
        dsimp only
        by_cases h0 : l.chip.busy = 0
        · rw [if_pos ((status_busy _).mpr h0), ends_pure]
          exact ⟨hclean, by rw [hc, h0]⟩
        · rw [if_neg (mt (status_busy _).mp h0), ends_throw]
          exact ⟨fun hg => h0 (by have := hb hg; omega), _, hc⟩
      · rintro e l1 ⟨hg, hc | hc⟩
        · exact ⟨hg, l.chip.busy, hc⟩
        · exact ⟨hg, _, hc⟩
  | succ n ih =>
      unfold waitBusy
      rw [ends_bind, ends_outcome]
      -- What one more turn finds differs from what this one found in the time only.
      have hturn : ∀ {l1 : Link} (b : Nat), (G → l1.Clean limit) → (G → b ≤ n) →
          l1.chip = l.chip.later b → Ends (waitBusy p n) l1
            (fun _ l' => (G → l'.Clean limit) ∧ l'.chip = l.chip.later 0)
            (fun _ l' => ¬ G ∧ ∃ b, l'.chip = l.chip.later b) := by
        intro l1 b hclean hle hc
        refine (ih hclean (by rw [hc]; exact hle)).mono ?_ ?_
        · rintro - l2 ⟨hclean', hc'⟩
          exact ⟨hclean', by rw [hc', hc]; rfl⟩
        · rintro e l2 ⟨hg, b', hc'⟩
          exact ⟨hg, b', by rw [hc', hc]; rfl⟩
      refine (ends_sfudReadStatus hG).mono ?_ ?_
      · rintro r l1 ⟨rfl, hclean, hc⟩
        dsimp only
        by_cases h0 : l.chip.busy = 0
        · rw [if_pos ((status_busy _).mpr h0), ends_pure]
          exact ⟨hclean, by rw [hc, h0]⟩
        · rw [if_neg (mt (status_busy _).mp h0)]
          exact hturn _ hclean (fun hg => by have := hb hg; omega) hc
      · rintro e l1 ⟨hg, hc | hc⟩
        · exact hturn l.chip.busy (absurd · hg) (absurd · hg) hc
        · exact hturn _ (absurd · hg) (absurd · hg) hc

/-- An erase or a program. `m'` is what its command makes of `m` on a chip that has the
    latch set; the chip has either of them if the link fails. -/
theorem ends_operation {m m' : Nor.Cells} {bytes : List UInt8} {n : Nat}
    (hop : ∀ c d, Ready m c → c.wel = true →
      c.accept p d bytes = { c with mem := m', wel := false, busy := d })
    (hG : G → l.Clean n) (hr : Ready m l.chip) :
    Ends (operation p n bytes) l (fun _ l' => (G → l'.Clean n) ∧ Ready m' l'.chip)
      (fun _ l' => ¬ G ∧ (l'.chip.mem = m ∨ l'.chip.mem = m')) := by
  unfold operation
  rw [ends_bind]
  refine (ends_setWriteEnabled hG hr).mono ?_ ?_
  · rintro - l1 ⟨hclean, hr1, hw1⟩
    rw [ends_bind]
    refine (ends_wr _ 0 hclean).mono ?_ ?_
    · rintro - l2 ⟨-, hclean2, d, hd, hc⟩
      -- The command has done its work, and the wait only lets time pass.
      rw [hop _ d hr1 hw1] at hc
      refine (ends_waitBusy n hclean2 (by rw [hc]; exact hd)).mono ?_ ?_
      · rintro - l3 ⟨hclean3, hc3⟩
        rw [hc3, hc]
        exact ⟨hclean3, rfl, rfl, hr1.aai⟩
      · rintro e l3 ⟨hg, b, hc3⟩
        rw [hc3, hc]
        exact ⟨hg, .inr rfl⟩
    · rintro e l2 ⟨hg, hc | ⟨d, hc⟩⟩
      · exact ⟨hg, .inl (hc ▸ hr1.mem)⟩
      · rw [hc, hop _ d hr1 hw1]
        exact ⟨hg, .inr rfl⟩
  · rintro e l1 ⟨hg, hr1⟩
    exact ⟨hg, .inl hr1.mem⟩

end Transfers

section Addresses

variable {f : SfudFlash} {p : Part}

theorem makeAdressByteArray_length (h : f.addrIn4Byte = p.fourByte) (addr : Nat) :
    (f.makeAdressByteArray addr).length = p.addressLen := by
  simp [SfudFlash.makeAdressByteArray, Part.addressLen, h]

/-- The bytes of an address are read back as the address. -/
theorem addressOf_makeAdressByteArray (h : f.addrIn4Byte = p.fourByte) {addr : Nat}
    (hlt : addr < 256 ^ p.addressLen) : addressOf (f.makeAdressByteArray addr) = addr := by
  unfold Part.addressLen at hlt
  cases hf : p.fourByte with
  | false =>
      simp only [hf, Bool.false_eq_true, if_false] at hlt
      simp [SfudFlash.makeAdressByteArray, h, hf, addressOf, List.range_succ,
        Nat.shiftRight_eq_div_pow]
      omega
  | true =>
      simp only [hf, if_true] at hlt
      simp [SfudFlash.makeAdressByteArray, h, hf, addressOf, List.range_succ,
        Nat.shiftRight_eq_div_pow]
      omega

end Addresses

end Flash

end Firmware
