import Firmware.I2c.SoftBus

/-!
# Recovery of an I2C Bus

What `rt_hw_i2c_init` from `drivers/drv_soft_i2c.c` does to the two lines of a bus
with a device on it, and whether the first transfer behind it can start.

Both lines are open drain: a line is high unless somebody pulls it low, and the
driver pulls while its output register is low. A device that was interrupted in the
middle of a read holds SDA and waits for clock pulses, so `stm32_i2c_bus_unlock`
gives it nine of them if it reads SDA as low. Every pulse is a high and a low
write, in that order, and nothing raises SCL behind the last one. The recovery
leaves the clock low, `i2c_start` pulls SDA down under a low clock, and that is no
START condition. `recovers_iff` says that the bus is left idle exactly where the
recovery has nothing to do.

The device is an arbitrary state machine. It moves with the edges of SCL, sees the
level of SDA at each of them, and holds SDA low in some of its states. It can let
go before the recovery looks, because `stm32_i2c_gpio_init` may make edges of its
own: switched to output with a low register, the clock goes down and up again.

## Main definitions

* `Pin`, `Slave`, `Bus`: The pins of the driver, a device, and the two together.
* `Bus.access`: What an access to a pin does to the bus.
* `Bus.setUp`: The bus behind `stm32_i2c_gpio_init`.
* `Bus.beforeRecovery`: The device when SDA is first read.
* `initOn`: `rt_hw_i2c_init` on a bus.
* `i2cStart`: The accesses of `i2c_start`.
* `Bus.starts`: SDA falls while SCL is high.
* `Idle`: Both lines are high and the first transfer starts.
* `Slave.Releases`: A device that lets go of SDA after a number of pulses.

## Theorems

* `setUp_pins`, `setUp_slave`: The bus behind `stm32_i2c_gpio_init`.
* `perform_pulses`: The clock is low behind the pulses.
* `recovers_iff`: The bus is left idle exactly if the device has let go before.
* `not_recovers_eightPulses`: A device that needs eight pulses, and a low clock.
-/

namespace Firmware

namespace I2c

/-- A pin as the driver has set it: whether it is an output, and its output
    register. -/
structure Pin where
  output : Bool := false
  odr : Bool := false
  deriving DecidableEq, Repr

/-- An open-drain output pulls its line low while its register is low. -/
def Pin.pulls (p : Pin) : Bool := p.output && !p.odr

/-- A device: how an edge of SCL moves it, given the new level of SCL and the level of
    SDA, and whether it holds SDA low. -/
structure Slave (σ : Type) where
  edge : σ → Bool → Bool → σ
  holds : σ → Bool

/-- The two pins of a bus and the state of the device. -/
structure Bus (σ : Type) where
  scl : Pin
  sda : Pin
  slave : σ
  deriving DecidableEq, Repr

section Lines

variable {σ : Type} (dev : Slave σ)

/-- The level of SCL. -/
def Bus.sclHigh (b : Bus σ) : Bool := !b.scl.pulls

/-- The level of SDA. -/
def Bus.sdaHigh (b : Bus σ) : Bool := !b.sda.pulls && !dev.holds b.slave

/-- A change of the clock pin, which is an edge for the device if the level changes. -/
def Bus.setScl (b : Bus σ) (p : Pin) : Bus σ :=
  if p.pulls = b.scl.pulls then { b with scl := p }
  else { b with scl := p, slave := dev.edge b.slave (!p.pulls) (b.sdaHigh dev) }

/-- An access to a pin: `rt_pin_mode` with `PIN_MODE_OUTPUT_OD`, `rt_pin_write` or
    `rt_pin_read`. -/
def Bus.access (cfg : SoftI2cConfig) (b : Bus σ) : PinAccess → Bus σ
  | .mode pin =>
      if pin = cfg.scl then b.setScl dev { b.scl with output := true }
      else if pin = cfg.sda then { b with sda := { b.sda with output := true } }
      else b
  | .write pin high =>
      if pin = cfg.scl then b.setScl dev { b.scl with odr := high }
      else if pin = cfg.sda then { b with sda := { b.sda with odr := high } }
      else b
  | .read _ => b

/-- The bus behind a sequence of accesses. -/
def Bus.perform (cfg : SoftI2cConfig) (b : Bus σ) (as : List PinAccess) : Bus σ :=
  as.foldl (Bus.access dev cfg) b

/-- Some access of a sequence makes a START condition: SDA falls while SCL is high. -/
def Bus.starts (cfg : SoftI2cConfig) : Bus σ → List PinAccess → Bool
  | _, [] => false
  | b, a :: as =>
      (b.sclHigh && (b.access dev cfg a).sclHigh && b.sdaHigh dev &&
        !(b.access dev cfg a).sdaHigh dev) || (b.access dev cfg a).starts cfg as

/-- The bus behind `stm32_i2c_gpio_init`. -/
def Bus.setUp (cfg : SoftI2cConfig) (b : Bus σ) : Bus σ :=
  b.perform dev cfg (stm32I2cGpioInit cfg)

/-- The device when SDA is first read. A low register of SCL gives it a falling edge as
    the pin becomes an output, and a rising one as the register is set; a high register
    gives it none. -/
def Bus.beforeRecovery (b : Bus σ) : σ :=
  if b.scl.odr then b.slave
  else
    let s := if b.scl.output then b.slave else dev.edge b.slave false (b.sdaHigh dev)
    dev.edge s true (b.sda.odr && !dev.holds s)

/-- `rt_hw_i2c_init` on a bus. What it finds when it first reads SDA is the level of the
    line behind `stm32_i2c_gpio_init`. The new bus is the one at the old counter. -/
def initOn (d : Driver) (b : Bus σ) (name : String) (scl sda : UInt8) :
    Option (Driver × Bus σ) :=
  let cfg : SoftI2cConfig := ⟨name, scl, sda⟩
  match rtHwI2cInit d ⟨name, scl, sda, true, !(b.setUp dev cfg).sdaHigh dev⟩ with
  | some (d', accesses, 0) => some (d', b.perform dev cfg accesses)
  | _ => none

/-- The accesses of `i2c_start` through a bus: `SDA_L` and `SCL_L`. -/
def i2cStart (d : Driver) (k : Fin numMax) : List PinAccess :=
  (operate d k (.setSda 0)).toList ++ (operate d k (.setScl 0)).toList

/-- Both lines are high, and the first transfer begins with a START condition. -/
structure Idle (d : Driver) (k : Fin numMax) (cfg : SoftI2cConfig) (b : Bus σ) : Prop where
  scl : b.sclHigh = true
  sda : b.sdaHigh dev = true
  start : b.starts dev cfg (i2cStart d k) = true

/-- After `n` pulses the device lets go of SDA for good, whatever the level of SDA was
    at the edges. -/
def Slave.Releases (n : Nat) (s : σ) : Prop :=
  ∀ edges : List (Bool × Bool), edges.IsChain (fun e f => e.1 ≠ f.1) → 2 * n ≤ edges.length →
    dev.holds (edges.foldl (fun s e => dev.edge s e.1 e.2) s) = false

end Lines

section Proofs

variable {σ : Type} (dev : Slave σ) (cfg : SoftI2cConfig) (b : Bus σ)

@[simp] theorem setScl_scl (p : Pin) : (b.setScl dev p).scl = p := by
  unfold Bus.setScl
  split
  · rfl
  · rfl

@[simp] theorem setScl_sda (p : Pin) : (b.setScl dev p).sda = b.sda := by
  unfold Bus.setScl
  split
  · rfl
  · rfl

theorem setScl_slave (p : Pin) : (b.setScl dev p).slave =
    if p.pulls = b.scl.pulls then b.slave
    else dev.edge b.slave (!p.pulls) (b.sdaHigh dev) := by
  unfold Bus.setScl
  split
  · rfl
  · rfl

theorem perform_append (as bs : List PinAccess) :
    b.perform dev cfg (as ++ bs) = (b.perform dev cfg as).perform dev cfg bs :=
  List.foldl_append

variable {cfg}

/-- Behind the set-up of the pins the driver pulls neither line. -/
theorem setUp_pins (hne : cfg.scl ≠ cfg.sda) :
    (b.setUp dev cfg).scl = ⟨true, true⟩ ∧ (b.setUp dev cfg).sda = ⟨true, true⟩ := by
  simp [Bus.setUp, Bus.perform, stm32I2cGpioInit, Bus.access, hne.symm]

/-- The device behind the set-up, from the state of the bus before it. -/
theorem setUp_slave (hne : cfg.scl ≠ cfg.sda) :
    (b.setUp dev cfg).slave = b.beforeRecovery dev := by
  simp only [Bus.setUp, Bus.perform, stm32I2cGpioInit, List.foldl_cons, List.foldl_nil,
    Bus.access, if_true, hne.symm, if_false, setScl_slave, setScl_scl, setScl_sda,
    Bus.beforeRecovery, Bus.sdaHigh]
  -- Only the registers of SCL decide which edges there are.
  cases hodr : b.scl.odr with
  | true => simp [Pin.pulls, hodr]
  | false =>
      cases hout : b.scl.output with
      | true => simp [Pin.pulls, hodr, hout]
      | false => simp [Pin.pulls, hodr, hout]

theorem sclHigh_setUp (hne : cfg.scl ≠ cfg.sda) : (b.setUp dev cfg).sclHigh = true := by
  rw [Bus.sclHigh, (setUp_pins dev b hne).1]
  rfl

/-- So SDA is what the device makes of it. -/
theorem sdaHigh_setUp (hne : cfg.scl ≠ cfg.sda) :
    (b.setUp dev cfg).sdaHigh dev = !dev.holds (b.beforeRecovery dev) := by
  rw [Bus.sdaHigh, (setUp_pins dev b hne).2, setUp_slave dev b hne]
  rfl

/-- Behind any number of pulses the clock is low. -/
theorem perform_pulses {b : Bus σ} (hb : b.scl.output = true) (n : Nat) :
    (b.perform dev cfg (List.replicate (n + 1)
      [.write cfg.scl true, .write cfg.scl false]).flatten).scl = ⟨true, false⟩ := by
  have hpulse : (b.perform dev cfg [.write cfg.scl true, .write cfg.scl false]).scl =
      ⟨true, false⟩ := by
    simp [Bus.perform, Bus.access, hb]
  -- Every pulse ends low, so the last one does.
  induction n generalizing b with
  | zero => exact hpulse
  | succ n ih =>
      rw [List.replicate_succ, List.flatten_cons, perform_append]
      have hout : (b.perform dev cfg [.write cfg.scl true, .write cfg.scl false]).scl.output =
          true := by rw [hpulse]
      refine ih hout ?_
      simp [Bus.perform, Bus.access, hb]

variable {dev b}

/-- What a call that succeeds does to the bus, and where the operations of the new bus
    go. -/
theorem initOn_some {d d' : Driver} {b' : Bus σ} {name : String} {scl sda : UInt8}
    (h : initOn dev d b name scl sda = some (d', b')) :
    b' = (b.setUp dev ⟨name, scl, sda⟩).perform dev ⟨name, scl, sda⟩
      (stm32I2cBusUnlock ⟨name, scl, sda⟩ (!(b.setUp dev ⟨name, scl, sda⟩).sdaHigh dev)) ∧
    ∀ k : Fin numMax, k.val = d.i2cCnt.toNat → ∀ op : Op,
      operate d' k op = some (op.access ⟨name, scl, sda⟩) := by
  unfold initOn rtHwI2cInit at h
  -- A call behind the last bus of the table does not succeed.
  by_cases hlt : d.i2cCnt.toNat < numMax
  · simp only [hlt, dif_pos, if_true, InitCall.config, perform_append, Option.some.injEq,
      Prod.mk.injEq] at h
    rcases h with ⟨rfl, rfl⟩
    refine ⟨rfl, fun k hk op => ?_⟩
    have hentry : k = ⟨d.i2cCnt.toNat, hlt⟩ := Fin.ext hk
    rw [hentry]
    simp [operate, Driver.deref]
  · simp [hlt] at h

/-- Where the recovery runs, the clock is low behind it: a low write is its last one. -/
theorem sclHigh_unlocked (hne : cfg.scl ≠ cfg.sda) :
    ((b.setUp dev cfg).perform dev cfg (stm32I2cBusUnlock cfg true)).sclHigh = false := by
  have hout : (b.setUp dev cfg).scl.output = true := by rw [(setUp_pins dev b hne).1]
  have hlow : ((b.setUp dev cfg).perform dev cfg (stm32I2cBusUnlock cfg true)).scl =
      ⟨true, false⟩ := perform_pulses dev hout 8
  rw [Bus.sclHigh, hlow]
  rfl

/-- On a bus that nobody pulls, `i2c_start` makes a START condition. -/
theorem starts_setUp (hne : cfg.scl ≠ cfg.sda)
    (hholds : dev.holds (b.beforeRecovery dev) = false) :
    (b.setUp dev cfg).starts dev cfg [.write cfg.sda false, .write cfg.scl false] = true := by
  have hpins := setUp_pins dev b hne
  rw [Bus.starts, sclHigh_setUp dev b hne, sdaHigh_setUp dev b hne, hholds]
  simp [Bus.access, hne.symm, Bus.sclHigh, Bus.sdaHigh, hpins.1, hpins.2, Pin.pulls]

/-- For every device, every driver and every state of the pins: the bus is left idle
    exactly if the device has let go of SDA when the recovery first looks at it. -/
theorem recovers_iff {d d' : Driver} {b b' : Bus σ} {name : String} {scl sda : UInt8}
    (hne : scl ≠ sda) (h : initOn dev d b name scl sda = some (d', b')) {k : Fin numMax}
    (hk : k.val = d.i2cCnt.toNat) : Idle dev d' k ⟨name, scl, sda⟩ b' ↔
      dev.holds (b.beforeRecovery dev) = false := by
  rcases initOn_some h with ⟨hb', hop⟩
  have hne' : (⟨name, scl, sda⟩ : SoftI2cConfig).scl ≠ sda := hne
  rw [sdaHigh_setUp dev b hne', Bool.not_not] at hb'
  cases hholds : dev.holds (b.beforeRecovery dev) with
  | true =>
      rw [hholds] at hb'
      refine iff_of_false (fun hi => ?_) nofun
      -- The recovery has run, and an idle bus has SCL high.
      have hlow : b'.sclHigh = false := by
        rw [hb']
        exact sclHigh_unlocked hne'
      rw [hi.scl] at hlow
      cases hlow
  | false =>
      -- SDA is high when it is read, so that nothing happens to the bus any more.
      rw [hholds] at hb'
      have hsame : b' = b.setUp dev ⟨name, scl, sda⟩ := hb'
      have hstart : i2cStart d' k = [.write sda false, .write scl false] := by
        simp [i2cStart, hop k hk, Op.access]
      refine iff_of_true ⟨?_, ?_, ?_⟩ rfl
      · rw [hsame, sclHigh_setUp dev b hne']
      · rw [hsame, sdaHigh_setUp dev b hne', hholds]
        rfl
      · rw [hstart, hsame]
        exact starts_setUp hne' hholds

/-- A device that holds SDA until it has seen a number of edges of SCL. -/
def counting (n : Nat) : Slave Nat where
  edge s _ _ := s + 1
  holds s := decide (s < n)

/-- Whatever the edges are, such a device lets go at the last one it waits for. -/
theorem counting_releases {m n : Nat} (h : m ≤ 2 * n) : (counting m).Releases n 0 := by
  intro edges _ hlen
  have hcount : ∀ (es : List (Bool × Bool)) (s : Nat),
      es.foldl (fun s e => (counting m).edge s e.1 e.2) s = s + es.length := by
    intro es
    induction es with
    | nil => intro s; rfl
    | cons e es ih =>
        intro s
        rw [List.foldl_cons, ih, List.length_cons]
        change s + 1 + es.length = s + (es.length + 1)
        omega
  rw [hcount]
  change decide (0 + edges.length < m) = false
  simp only [decide_eq_false_iff_not]
  omega

/-- On the bus of `main.c`, with the registers of a reset, a device that waits for the
    end of one pulse has seen two edges before SDA is read, and the bus is idle. -/
theorem recovers_iff_onePulse : ∃ d' b',
    initOn (counting 2) {} ⟨{}, {}, 0⟩ "i2c3" 8 41 = some (d', b') ∧
      Idle (counting 2) d' 0 ⟨"i2c3", 8, 41⟩ b' :=
  ⟨_, _, rfl, (recovers_iff (d := {}) (b := ⟨{}, {}, 0⟩) (by decide) rfl rfl).mpr rfl⟩

/-- A device that waits for the end of the eighth pulse holds SDA low at the start and
    lets go in the recovery, which leaves SDA high and SCL low, so that the first
    transfer has no START condition. -/
theorem not_recovers_eightPulses : (counting 16).holds 0 = true ∧
    (counting 16).Releases 9 0 ∧ ∃ d' b',
      initOn (counting 16) {} ⟨{}, {}, 0⟩ "i2c3" 8 41 = some (d', b') ∧
        b'.sclHigh = false ∧ b'.sdaHigh (counting 16) = true ∧
        b'.starts (counting 16) ⟨"i2c3", 8, 41⟩ (i2cStart d' 0) = false ∧
        ¬ Idle (counting 16) d' 0 ⟨"i2c3", 8, 41⟩ b' :=
  ⟨rfl, counting_releases (by decide), _, _, rfl, rfl, rfl, rfl, fun hi => nomatch hi.scl⟩

end Proofs

end I2c

end Firmware
