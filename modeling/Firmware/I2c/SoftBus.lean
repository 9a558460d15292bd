import Firmware.Lib.Runs

/-!
# Software I2C Buses

`rt_hw_i2c_init` from `drivers/drv_soft_i2c.c`, which makes an I2C bus out of two
pins, and the four operations through which `i2c-bit-ops.c` moves the lines of a
bus.

A bus has its own entry in a table, with its own operations, but the operations
find their pins through a pointer, and every bus is given the same one: the
configuration is a single static variable that each call overwrites. A bus thus
moves the pins of the bus that was made last. `operates_iff` says exactly when
that goes unnoticed, and that a call which finds the table full spoils nothing.

## Main definitions

* `Driver`: The static variables of the driver.
* `rtHwI2cInit`: Making a bus.
* `operate`: An operation through a bus.
* `Operates`: A bus operates on the pins it was given.

## Theorems

* `init_created`: What one call adds.
* `run_created`: What the calls so far have left behind.
* `operates_iff`: A bus operates on its pins exactly if the last one has the same.
* `not_operates_first_of_two`: With two buses the first one moves the pins of the second.
-/

namespace Firmware

namespace I2c

/-- `I2C_NUM_MAX` -/
abbrev numMax : Nat := 5

/-- `struct stm32_soft_i2c_config` -/
structure SoftI2cConfig where
  busName : String := ""
  scl : UInt8 := 0
  sda : UInt8 := 0
  deriving DecidableEq, Repr

/-- The objects `ops.data` can point to. -/
inductive DataPtr where
  | null
  | softI2cConfig
  deriving DecidableEq, Repr

/-- `struct rt_i2c_bit_ops` with the values of `stm32_bit_ops_default`; the functions
    are the same for every bus. -/
structure BitOps where
  data : DataPtr := .null
  delayUs : Nat := 1
  timeout : Nat := 100
  deriving DecidableEq, Repr

/-- `struct stm32_i2c`; the bus finds its operations through `i2c2_bus.priv`, which
    points to the operations of an entry. -/
structure Stm32I2c where
  ops : BitOps := {}
  priv : Option (Fin numMax) := none
  deriving DecidableEq, Repr

/-- The static variables of the driver. -/
structure Driver where
  softI2cConfig : SoftI2cConfig := {}
  i2cObj : Fin numMax → Stm32I2c := fun _ => {}
  i2cCnt : UInt8 := 0

/-- What is done to a pin. -/
inductive PinAccess where
  | mode (pin : UInt8)
  | write (pin : UInt8) (high : Bool)
  | read (pin : UInt8)
  deriving DecidableEq, Repr

/-- What a pointer to a configuration points to. -/
def Driver.deref (d : Driver) : DataPtr → Option SoftI2cConfig
  | .null => none
  | .softI2cConfig => some d.softI2cConfig

/-- `stm32_i2c_gpio_init` -/
def stm32I2cGpioInit (cfg : SoftI2cConfig) : List PinAccess :=
  [.mode cfg.scl, .mode cfg.sda, .write cfg.scl true, .write cfg.sda true]

/-- `stm32_i2c_bus_unlock`, given whether SDA is low when it is first read. -/
def stm32I2cBusUnlock (cfg : SoftI2cConfig) (sdaLow : Bool) : List PinAccess :=
  .read cfg.sda ::
    (if sdaLow then (List.replicate 9 [.write cfg.scl true, .write cfg.scl false]).flatten
      else []) ++ [.read cfg.sda]

/-- A call of `rt_hw_i2c_init` and what it meets: whether `rt_i2c_bit_add_bus` returns
    `RT_EOK`, and whether SDA is low. -/
structure InitCall where
  name : String
  scl : UInt8
  sda : UInt8
  added : Bool := true
  sdaLow : Bool := false
  deriving DecidableEq, Repr

/-- The configuration a call asks for. -/
def InitCall.config (c : InitCall) : SoftI2cConfig := ⟨c.name, c.scl, c.sda⟩

/-- `rt_hw_i2c_init`: the driver behind it, the pins it touches and what it returns. It
    does not return from a failed `RT_ASSERT`. -/
def rtHwI2cInit (d : Driver) (c : InitCall) : Option (Driver × List PinAccess × Int) :=
  if h : d.i2cCnt.toNat < numMax then
    let i : Fin numMax := ⟨d.i2cCnt.toNat, h⟩
    if c.added then
      -- Every call overwrites the one configuration and points to it.
      some ({ softI2cConfig := c.config
              i2cObj := Function.update d.i2cObj i ⟨{ data := .softI2cConfig }, some i⟩
              i2cCnt := d.i2cCnt + 1 },
        stm32I2cGpioInit c.config ++ stm32I2cBusUnlock c.config c.sdaLow, 0)
    else none
  else some (d, [], -1)

/-- The operations of `struct rt_i2c_bit_ops` that reach a pin. -/
inductive Op where
  | setSda (state : Int)
  | setScl (state : Int)
  | getSda
  | getScl
  deriving DecidableEq, Repr

/-- `stm32_set_sda`, `stm32_set_scl`, `stm32_get_sda` and `stm32_get_scl` -/
def Op.access (cfg : SoftI2cConfig) : Op → PinAccess
  | .setSda state => .write cfg.sda (state ≠ 0)
  | .setScl state => .write cfg.scl (state ≠ 0)
  | .getSda => .read cfg.sda
  | .getScl => .read cfg.scl

/-- The pin of a bus that an operation is about. -/
def Op.pin (c : InitCall) : Op → UInt8
  | .setSda _ => c.sda
  | .setScl _ => c.scl
  | .getSda => c.sda
  | .getScl => c.scl

/-- An operation through a bus, as `SET_SDA` and the others do it: the operations are
    those `priv` points to, and they are given their own `data`. -/
def operate (d : Driver) (k : Fin numMax) (op : Op) : Option PinAccess :=
  (d.i2cObj k).priv.bind fun i => (d.deref (d.i2cObj i).ops.data).map op.access

/-- A call that returned `RT_EOK`. -/
def initStep (d : Driver) (c : InitCall) : Option Driver :=
  match rtHwI2cInit d c with
  | some (d', _, 0) => some d'
  | _ => none

/-- An operation through the `k`th bus does what it is for to the pin the bus was
    given, and a call that finds the table full fails and changes nothing. -/
structure Operates (d : Driver) (k : Fin numMax) (c : InitCall) (op : Op) : Prop where
  access : operate d k op = some (op.access c.config)
  full : d.i2cCnt.toNat = numMax → ∀ c', rtHwI2cInit d c' = some (d, [], -1)

/-- The buses made so far are in their entries and share one configuration. -/
structure Created (d : Driver) (n : Nat) : Prop where
  count : d.i2cCnt.toNat = n
  few : n ≤ numMax
  entry : ∀ k : Fin numMax, k.val < n → d.i2cObj k = ⟨{ data := .softI2cConfig }, some k⟩

theorem created_boot : Created {} 0 := ⟨rfl, Nat.zero_le _, nofun⟩

/-- A call that succeeds makes one more bus and takes the configuration over. -/
theorem init_created {d d' : Driver} {c : InitCall} {n : Nat} (h : Created d n)
    (hs : initStep d c = some d') : Created d' (n + 1) ∧ d'.softI2cConfig = c.config := by
  unfold initStep rtHwI2cInit at hs
  by_cases hlt : d.i2cCnt.toNat < numMax
  · by_cases ha : c.added = true
    · simp only [hlt, ha, dif_pos, if_true, Option.some.injEq] at hs
      subst hs
      have hn : n < 5 := by rw [← h.count]; exact hlt
      have hcount : (d.i2cCnt + 1).toNat = n + 1 := by
        have hone : (1 : UInt8).toNat = 1 := rfl
        rw [UInt8.toNat_add, h.count, hone]
        exact Nat.mod_eq_of_lt (by omega)
      -- The new entry is the one at the counter, and the others are left alone.
      refine ⟨⟨hcount, hn, fun k hk => ?_⟩, rfl⟩
      by_cases hkn : k = ⟨d.i2cCnt.toNat, hlt⟩
      · subst hkn
        exact Function.update_self _ _ _
      · have hne : k.val ≠ n := fun e => hkn (Fin.ext (e.trans h.count.symm))
        simp only [Function.update_of_ne hkn]
        exact h.entry k (by omega)
    · simp [hlt, ha] at hs
  · simp [hlt] at hs

/-- Behind any number of successful calls there are as many buses, and the
    configuration is that of the last one. -/
theorem run_created {d d' : Driver} {n : Nat} {calls : List InitCall} (h : Created d n)
    (hr : run initStep d calls = some d') : Created d' (n + calls.length) ∧
      ∀ c, calls.getLast? = some c → d'.softI2cConfig = c.config := by
  induction calls generalizing d n with
  | nil =>
      simp only [run, Option.some.injEq] at hr
      subst hr
      exact ⟨h, by simp⟩
  | cons c calls ih =>
      rcases run_cons_some initStep hr with ⟨e, hs, hr'⟩
      rcases init_created h hs with ⟨he, hconf⟩
      rcases ih he hr' with ⟨hd, hlast⟩
      refine ⟨by rw [List.length_cons]; convert hd using 1; omega, ?_⟩
      intro c' hc'
      -- The configuration of this call survives only if no other call follows.
      cases calls with
      | nil =>
          simp only [run, Option.some.injEq] at hr'
          simp only [List.getLast?_singleton, Option.some.injEq] at hc'
          rw [← hr', hconf, hc']
      | cons b bs => exact hlast c' (by simpa using hc')

/-- An operation tells the pins of two buses apart if they differ. -/
theorem access_eq_iff (op : Op) (c c' : InitCall) :
    op.access c.config = op.access c'.config ↔ op.pin c = op.pin c' := by
  cases op <;> simp [Op.access, Op.pin, InitCall.config]

/-- For every sequence of successful calls, every bus `k` of them and every operation:
    the operation goes to the pin the bus was given exactly if the bus that was made
    last has the same one. -/
theorem operates_iff {calls : List InitCall} {d : Driver} {k : Fin numMax} {c last : InitCall}
    (hr : run initStep {} calls = some d) (hk : calls[k.val]? = some c)
    (hlast : calls.getLast? = some last) (op : Op) :
    Operates d k c op ↔ op.pin c = op.pin last := by
  rcases run_created created_boot hr with ⟨hd, hconf⟩
  have hlt : k.val < calls.length := (List.getElem?_eq_some_iff.mp hk).1
  have hentry := hd.entry k (by omega)
  -- Whichever bus is used, its entry leads to the configuration of the last call.
  have hop : operate d k op = some (op.access last.config) := by
    simp only [operate, hentry, Option.bind_some, Driver.deref, hconf last hlast,
      Option.map_some]
  constructor
  · intro h
    have hacc := h.access
    rw [hop, Option.some.injEq, access_eq_iff] at hacc
    exact hacc.symm
  · intro hpin
    refine ⟨by rw [hop, (access_eq_iff op last c).mpr hpin.symm], ?_⟩
    intro hfull c'
    rw [rtHwI2cInit, dif_neg (by omega)]

/-- Two buses with one clock line between them. -/
def sharedClock : List InitCall :=
  [⟨"i2c1", 22, 23, true, false⟩, ⟨"i2c2", 22, 116, true, false⟩]

/-- The first of them moves its clock, which is that of the second as well, and not its
    data line. -/
theorem operates_sharedClock : ∃ d, run initStep {} sharedClock = some d ∧
    Operates d 0 ⟨"i2c1", 22, 23, true, false⟩ (.setScl 1) ∧
    ¬ Operates d 0 ⟨"i2c1", 22, 23, true, false⟩ (.setSda 0) := by
  refine ⟨_, rfl, ?_, ?_⟩
  · have hr : run initStep {} sharedClock = some _ := rfl
    exact (operates_iff (k := 0) hr rfl rfl (.setScl 1)).mpr rfl
  · have hr : run initStep {} sharedClock = some _ := rfl
    exact fun h => absurd ((operates_iff (k := 0) hr rfl rfl (.setSda 0)).mp h) (by decide)

/-- Two buses on pins of their own. -/
def twoBuses : List InitCall := [⟨"i2c1", 22, 23, true, false⟩, ⟨"i2c2", 117, 116, true, false⟩]

/-- The first of them pulls the data line of the second. -/
theorem not_operates_first_of_two : ∃ d, run initStep {} twoBuses = some d ∧
    operate d 0 (.setSda 0) = some (.write 116 false) ∧
    ¬ Operates d 0 ⟨"i2c1", 22, 23, true, false⟩ (.setSda 0) := by
  refine ⟨_, rfl, rfl, ?_⟩
  intro h
  have hacc := h.access
  exact absurd hacc (by decide)

end I2c

end Firmware
