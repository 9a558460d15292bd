import Firmware.Lib.Runs

/-!
# Pin Interrupts

The pin interrupt half of `drivers/drv_gpio.c`: attaching a handler to a pin,
detaching it, switching the interrupt on and off, and calling the handler.

The pins of the same number, one on each port, share one line of the
interrupt controller, so the handler table has sixteen entries for the 176 pins;
and the upper eleven lines share two interrupt vectors between them. Which lines
are switched on is remembered in a mask, because a shared vector may be switched
off only with the last of them.

The functions of the HAL that the driver calls are modelled as far as a line is
concerned: to which port it is routed, whether it interrupts and on which edges.
How the pin itself is configured is not.

## Main definitions

* `Gpio`: The handler table, the mask and the interrupt hardware.
* `stm32PinAttachIrq`, `stm32PinDettachIrq`, `stm32PinIrqEnable`: The three calls.
* `pinIrqHdr`: What an interrupt on a line calls.
* `call`: One of the three.

## Theorems

* `irqIndex_bit`: The line of a pin is its number on its port.
* `attach_eq`, `dettach_eq`, `irqEnable_on_eq`, `irqEnable_off_eq`: The calls on a pin that
  exists.
* `nvic_switchedOff`: A vector stays on while one of its lines is in the mask.
* `call_cases`: Everything a call can do.
* `vectorIdle_iff`: When a vector is switched off.
-/

namespace Firmware

namespace Gpio

/-- The interrupt vectors of the sixteen lines. -/
inductive Irqn where
  | exti0 | exti1 | exti2 | exti3 | exti4 | exti9_5 | exti15_10
  deriving DecidableEq, Repr

/-- `struct pin_index`, with the port as its number. -/
structure PinIndex where
  index : Nat
  gpio : Nat
  pin : BitVec 32
  deriving DecidableEq, Repr

/-- `struct pin_irq_map` -/
structure PinIrqMap where
  pinbit : BitVec 32
  irqno : Irqn
  deriving DecidableEq, Repr

/-- `struct rt_pin_irq_hdr`; an entry is free while its pin is `-1`. -/
structure PinIrqHdr (H A : Type) where
  pin : Int := -1
  mode : UInt16 := 0
  hdr : Option H := none
  args : Option A := none
  deriving DecidableEq, Repr

/-- One line of the interrupt controller: the port it is routed to, whether it
    interrupts or signals an event, and on which edges. -/
structure ExtiLine where
  port : Nat := 0
  imr : Bool := false
  emr : Bool := false
  rtsr : Bool := false
  ftsr : Bool := false
  deriving DecidableEq, Repr

end Gpio

/-- The state of the pin interrupts. -/
structure Gpio (H A : Type) where
  /-- `pin_irq_hdr_tab` -/
  tab : Fin 16 → Gpio.PinIrqHdr H A := fun _ => {}
  /-- `pin_irq_enable_mask` -/
  mask : BitVec 32 := 0
  exti : Fin 16 → Gpio.ExtiLine := fun _ => {}
  /-- The vectors that are enabled. -/
  nvic : Gpio.Irqn → Bool := fun _ => false

namespace Gpio

/-- `pins`, which lists the sixteen pins of each of the eleven ports in order. -/
def pins (i : Nat) : PinIndex := ⟨i, i / 16, 1#32 <<< (i % 16)⟩

/-- `get_pin`, whose argument has eight bits. -/
def getPin (pin : Int) : Option PinIndex :=
  if pin % 256 < 176 then some (pins (pin % 256).toNat) else none

/-- `bit2bitno` -/
def bit2bitno (bit : BitVec 32) : Int :=
  match (List.range 32).find? fun i => 1#32 <<< i = bit with
  | some i => i
  | none => -1

/-- `irqindex` behind its range check. -/
def irqIndex (bit : BitVec 32) : Option (Fin 16) :=
  if h : bit2bitno bit < 0 ∨ 16 ≤ bit2bitno bit then none
  else some ⟨(bit2bitno bit).toNat, by omega⟩

/-- `pin_irq_map` -/
def pinIrqMap : Fin 16 → PinIrqMap :=
  ![⟨0x0001, .exti0⟩, ⟨0x0002, .exti1⟩, ⟨0x0004, .exti2⟩, ⟨0x0008, .exti3⟩, ⟨0x0010, .exti4⟩,
    ⟨0x0020, .exti9_5⟩, ⟨0x0040, .exti9_5⟩, ⟨0x0080, .exti9_5⟩, ⟨0x0100, .exti9_5⟩,
    ⟨0x0200, .exti9_5⟩,
    ⟨0x0400, .exti15_10⟩, ⟨0x0800, .exti15_10⟩, ⟨0x1000, .exti15_10⟩, ⟨0x2000, .exti15_10⟩,
    ⟨0x4000, .exti15_10⟩, ⟨0x8000, .exti15_10⟩]

/-- `get_pin_irq_map` -/
def getPinIrqMap (pinbit : BitVec 32) : Option PinIrqMap := (irqIndex pinbit).map pinIrqMap

/-- `RT_EOK`, `RT_ENOSYS` and `RT_EBUSY` -/
def eok : Int := 0
def enosys : Int := 6
def ebusy : Int := 7

section Calls

variable {H A : Type} (g : Gpio H A)

/-- `HAL_GPIO_Init`, as far as the lines of `pin` are concerned. -/
def halGpioInit (gpio : Nat) (pin mode : BitVec 32) : Gpio H A :=
  { g with exti := fun l =>
      if pin.getLsbD l && (mode &&& 0x10000000#32 == 0x10000000#32) then
        { port := gpio
          imr := mode &&& 0x00010000#32 == 0x00010000#32
          emr := mode &&& 0x00020000#32 == 0x00020000#32
          rtsr := mode &&& 0x00100000#32 == 0x00100000#32
          ftsr := mode &&& 0x00200000#32 == 0x00200000#32 }
      else g.exti l }

/-- `HAL_GPIO_DeInit`, which touches a line only if it is routed to this port. -/
def halGpioDeInit (gpio : Nat) (pin : BitVec 32) : Gpio H A :=
  { g with exti := fun l =>
      if pin.getLsbD l && (g.exti l).port == gpio then {} else g.exti l }

/-- `HAL_NVIC_EnableIRQ` and `HAL_NVIC_DisableIRQ` -/
def setIrq (irqno : Irqn) (on : Bool) : Gpio H A :=
  { g with nvic := Function.update g.nvic irqno on }

/-- `stm32_pin_attach_irq` -/
def stm32PinAttachIrq [DecidableEq H] [DecidableEq A] (pin : Int) (mode : UInt32)
    (hdr : Option H) (args : Option A) : Gpio H A × Int :=
  match getPin pin with
  | none => (g, enosys)
  | some index => match irqIndex index.pin with
    | none => (g, enosys)
    | some l =>
        -- The same attachment a second time is no error.
        if (g.tab l).pin = pin ∧ (g.tab l).hdr = hdr ∧ (g.tab l).mode.toUInt32 = mode ∧
            (g.tab l).args = args then (g, eok)
        else if (g.tab l).pin ≠ -1 then (g, ebusy)
        else
          ({ g with
              tab := Function.update g.tab l ⟨pin.bmod (2 ^ 16), mode.toUInt16, hdr, args⟩ },
            eok)

/-- `stm32_pin_dettach_irq` -/
def stm32PinDettachIrq (pin : Int) : Gpio H A × Int :=
  match getPin pin with
  | none => (g, enosys)
  | some index => match irqIndex index.pin with
    | none => (g, enosys)
    | some l =>
        -- The entry of the line is cleared, whoever it belongs to.
        if (g.tab l).pin = -1 then (g, eok)
        else ({ g with tab := Function.update g.tab l {} }, eok)

/-- The mode of `GPIO_InitStruct` for an interrupt mode. The `switch` has no default,
    so for any other mode it is what the stack held. -/
def itMode (mode : UInt16) (stack : BitVec 32) : BitVec 32 :=
  if mode = 0 then 0x10110000
  else if mode = 1 then 0x10210000
  else if mode = 2 then 0x10310000
  else stack

/-- Whether the vector of a line may be switched off: it is not shared, or the mask
    has no other line of it. -/
def vectorIdle (pinbit mask : BitVec 32) : Bool :=
  if 0x0020#32 ≤ pinbit ∧ pinbit ≤ 0x0200#32 then mask &&& 0x03e0#32 == 0
  else if 0x0400#32 ≤ pinbit ∧ pinbit ≤ 0x8000#32 then mask &&& 0xfc00#32 == 0
  else true

/-- `stm32_pin_irq_enable` -/
def stm32PinIrqEnable (pin : Int) (enabled : UInt32) (stack : BitVec 32) : Gpio H A × Int :=
  match getPin pin with
  | none => (g, enosys)
  | some index =>
      if enabled = 1 then
        match irqIndex index.pin with
        | none => (g, enosys)
        | some l =>
            if (g.tab l).pin = -1 then (g, enosys)
            else
              let g' := (g.halGpioInit index.gpio index.pin (itMode (g.tab l).mode stack)).setIrq
                (pinIrqMap l).irqno true
              ({ g' with mask := g.mask ||| (pinIrqMap l).pinbit }, eok)
      else if enabled = 0 then
        match getPinIrqMap index.pin with
        | none => (g, enosys)
        | some irqmap =>
            -- Nothing is asked about the table here.
            let mask' := g.mask &&& ~~~irqmap.pinbit
            let g' := { g.halGpioDeInit index.gpio index.pin with mask := mask' }
            (if vectorIdle irqmap.pinbit mask' then g'.setIrq irqmap.irqno false else g', eok)
      else (g, -enosys)

/-- `pin_irq_hdr`: the handler an interrupt on the line calls, with its argument. -/
def pinIrqHdr (irqno : Fin 16) : Option (H × Option A) :=
  (g.tab irqno).hdr.map fun h => (h, (g.tab irqno).args)

/-- The calls of the driver. -/
inductive Call (H A : Type) where
  | attach (pin : Int) (mode : UInt32) (hdr : Option H) (args : Option A)
  | dettach (pin : Int)
  | irqEnable (pin : Int) (enabled : UInt32) (stack : BitVec 32)
  deriving DecidableEq, Repr

/-- The pin a call is made for. -/
def Call.pin : Call H A → Int
  | .attach pin _ _ _ => pin
  | .dettach pin => pin
  | .irqEnable pin _ _ => pin

variable [DecidableEq H] [DecidableEq A]

/-- What a call leaves behind and what it returns. -/
def call : Call H A → Gpio H A × Int
  | .attach pin mode hdr args => g.stm32PinAttachIrq pin mode hdr args
  | .dettach pin => g.stm32PinDettachIrq pin
  | .irqEnable pin enabled stack => g.stm32PinIrqEnable pin enabled stack

end Calls

/-- A pin of the package. -/
def Valid (pin : Int) : Prop := 0 ≤ pin ∧ pin < 176

/-- The line of a pin. -/
def line (pin : Int) : Fin 16 := ⟨(pin % 16).toNat, by omega⟩

/-- The port of a pin. -/
def port (pin : Int) : Nat := (pin / 16).toNat

theorem getPin_valid {pin : Int} (h : Valid pin) :
    getPin pin = some ⟨pin.toNat, port pin, 1#32 <<< (line pin).val⟩ := by
  -- The number fits into the byte that the driver puts it in.
  rcases h with ⟨h0, h1⟩
  have hmod : pin % 256 = pin := Int.emod_eq_of_lt h0 (by omega)
  have hport : pin.toNat / 16 = (pin / 16).toNat := by omega
  have hline : pin.toNat % 16 = (pin % 16).toNat := by omega
  rw [getPin, hmod, if_pos h1, pins, hport, hline]
  rfl

theorem irqIndex_bit (l : Fin 16) : irqIndex (1#32 <<< l.val) = some l := by
  revert l
  decide

theorem pinbit_eq (l : Fin 16) : (pinIrqMap l).pinbit = 1#32 <<< l.val := by
  revert l
  decide

theorem getLsbD_bit (l k : Fin 16) : (1#32 <<< l.val).getLsbD k = decide (k = l) := by
  revert l k
  decide

theorem getPinIrqMap_bit (l : Fin 16) : getPinIrqMap (1#32 <<< l.val) = some (pinIrqMap l) := by
  rw [getPinIrqMap, irqIndex_bit, Option.map_some]

/-- The lines of a vector, as the driver writes them; nothing is asked of a vector
    that is not shared. -/
def sharedLines : Irqn → BitVec 32
  | .exti9_5 => 0x03e0#32
  | .exti15_10 => 0xfc00#32
  | _ => 0

theorem vectorIdle_eq (l : Fin 16) (mask : BitVec 32) :
    vectorIdle (pinIrqMap l).pinbit mask = (mask &&& sharedLines (pinIrqMap l).irqno == 0) := by
  fin_cases l <;> first | rfl | exact (by simp [pinIrqMap, sharedLines, vectorIdle])

theorem getLsbD_sharedLines (l : Fin 16) (i : Fin 32)
    (h : (sharedLines (pinIrqMap l).irqno).getLsbD i = true) :
    ∃ k : Fin 16, k.val = i.val ∧ (pinIrqMap k).irqno = (pinIrqMap l).irqno := by
  revert l i
  decide

theorem getLsbD_sharedLines_of_irqno {k l : Fin 16} (hne : k ≠ l)
    (h : (pinIrqMap k).irqno = (pinIrqMap l).irqno) :
    (sharedLines (pinIrqMap l).irqno).getLsbD k = true := by
  revert k l
  decide

/-- A vector is switched off when the last of its lines is. -/
theorem vectorIdle_iff {l : Fin 16} {mask : BitVec 32} (hl : mask.getLsbD l = false) :
    vectorIdle (pinIrqMap l).pinbit mask = true ↔
      ∀ k, (pinIrqMap k).irqno = (pinIrqMap l).irqno → mask.getLsbD k = false := by
  rw [vectorIdle_eq, beq_iff_eq]
  constructor
  · -- The mask has none of the lines that the constant has, and another line of the vector is one
    -- of these.
    intro hz k hk
    by_cases hkl : k = l
    · rw [hkl, hl]
    · have hbit := congrArg (fun m : BitVec 32 => m.getLsbD k) hz
      simpa [getLsbD_sharedLines_of_irqno hkl hk] using hbit
  · intro hall
    apply BitVec.eq_of_getLsbD_eq
    intro i hi
    rw [BitVec.getLsbD_and]
    -- A bit of the constant is a line of the vector, which the mask has not.
    by_cases hs : (sharedLines (pinIrqMap l).irqno).getLsbD i = true
    · rcases getLsbD_sharedLines l ⟨i, hi⟩ hs with ⟨k, hki, hk⟩
      have hclear := hall k hk
      rw [hki] at hclear
      simp [hclear]
    · simp [hs]

section Equations

variable {H A : Type} (g : Gpio H A) {pin : Int}

/-- A valid pin is not changed by the table, whose pins have sixteen bits. -/
theorem bmod_valid (h : Valid pin) : pin.bmod (2 ^ 16) = pin := by
  rcases h with ⟨h0, h1⟩
  exact Int.bmod_eq_of_le (by omega) (by omega)

theorem attach_eq [DecidableEq H] [DecidableEq A] (h : Valid pin) (mode : UInt32)
    (hdr : Option H) (args : Option A) :
    g.stm32PinAttachIrq pin mode hdr args =
      if (g.tab (line pin)).pin = pin ∧ (g.tab (line pin)).hdr = hdr ∧
          (g.tab (line pin)).mode.toUInt32 = mode ∧ (g.tab (line pin)).args = args then (g, eok)
      else if (g.tab (line pin)).pin ≠ -1 then (g, ebusy)
      else ({ g with tab := Function.update g.tab (line pin) ⟨pin, mode.toUInt16, hdr, args⟩ },
        eok) := by
  simp only [stm32PinAttachIrq, getPin_valid h, irqIndex_bit, bmod_valid h]

theorem dettach_eq (h : Valid pin) :
    g.stm32PinDettachIrq pin =
      if (g.tab (line pin)).pin = -1 then (g, eok)
      else ({ g with tab := Function.update g.tab (line pin) {} }, eok) := by
  simp only [stm32PinDettachIrq, getPin_valid h, irqIndex_bit]

/-- The line of a pin behind `HAL_GPIO_Init`. -/
def initLine (pin : Int) (mode : BitVec 32) (old : ExtiLine) : ExtiLine :=
  if mode &&& 0x10000000#32 == 0x10000000#32 then
    { port := port pin
      imr := mode &&& 0x00010000#32 == 0x00010000#32
      emr := mode &&& 0x00020000#32 == 0x00020000#32
      rtsr := mode &&& 0x00100000#32 == 0x00100000#32
      ftsr := mode &&& 0x00200000#32 == 0x00200000#32 }
  else old

theorem halGpioInit_eq (pin : Int) (mode : BitVec 32) :
    g.halGpioInit (port pin) (1#32 <<< (line pin).val) mode =
      { g with
        exti := Function.update g.exti (line pin)
          (initLine pin mode (g.exti (line pin))) } := by
  simp only [halGpioInit]
  congr 1
  funext k
  rw [getLsbD_bit]
  -- The bit of the pin selects its own line and no other.
  by_cases hk : k = line pin
  · subst hk
    simp only [decide_true, Bool.true_and, Function.update_self, initLine]
  · simp only [hk, decide_false, Bool.false_and, Bool.false_eq_true, if_false,
      Function.update_of_ne (fun e => hk e)]

theorem halGpioDeInit_eq (pin : Int) :
    g.halGpioDeInit (port pin) (1#32 <<< (line pin).val) =
      { g with
        exti := Function.update g.exti (line pin)
          (if (g.exti (line pin)).port == port pin then {} else g.exti (line pin)) } := by
  simp only [halGpioDeInit]
  congr 1
  funext k
  rw [getLsbD_bit]
  by_cases hk : k = line pin
  · subst hk
    simp only [decide_true, Bool.true_and, Function.update_self]
  · simp only [hk, decide_false, Bool.false_and, Bool.false_eq_true, if_false,
      Function.update_of_ne (fun e => hk e)]

/-- The state behind an interrupt that was switched on. -/
def switchedOn (pin : Int) (stack : BitVec 32) : Gpio H A :=
  { g with
    mask := g.mask ||| 1#32 <<< (line pin).val
    exti := Function.update g.exti (line pin)
      (initLine pin (itMode (g.tab (line pin)).mode stack) (g.exti (line pin)))
    nvic := Function.update g.nvic (pinIrqMap (line pin)).irqno true }

/-- The state behind an interrupt that was switched off. -/
def switchedOff (pin : Int) : Gpio H A :=
  { g with
    mask := g.mask &&& ~~~(1#32 <<< (line pin).val)
    exti := Function.update g.exti (line pin)
      (if (g.exti (line pin)).port == port pin then {} else g.exti (line pin))
    nvic :=
      if vectorIdle (pinIrqMap (line pin)).pinbit (g.mask &&& ~~~(1#32 <<< (line pin).val)) then
        Function.update g.nvic (pinIrqMap (line pin)).irqno false
      else g.nvic }

theorem irqEnable_on_eq (h : Valid pin) (stack : BitVec 32) :
    g.stm32PinIrqEnable pin 1 stack =
      if (g.tab (line pin)).pin = -1 then (g, enosys) else (g.switchedOn pin stack, eok) := by
  simp only [stm32PinIrqEnable, getPin_valid h, if_true, irqIndex_bit, halGpioInit_eq, pinbit_eq,
    setIrq, switchedOn]

theorem irqEnable_off_eq (h : Valid pin) (stack : BitVec 32) :
    g.stm32PinIrqEnable pin 0 stack = (g.switchedOff pin, eok) := by
  simp only [stm32PinIrqEnable, getPin_valid h, getPinIrqMap_bit, halGpioDeInit_eq, switchedOff,
    show (0 : UInt32) ≠ 1 by decide, if_false, if_true, setIrq, pinbit_eq]
  split <;> rfl

theorem irqEnable_other (h : Valid pin) {enabled : UInt32} (h1 : enabled ≠ 1) (h0 : enabled ≠ 0)
    (stack : BitVec 32) : g.stm32PinIrqEnable pin enabled stack = (g, -enosys) := by
  simp only [stm32PinIrqEnable, getPin_valid h, h1, h0, if_false]

theorem getLsbD_switchedOn (pin : Int) (stack : BitVec 32) (l : Fin 16) :
    (g.switchedOn pin stack).mask.getLsbD l = (g.mask.getLsbD l || decide (l = line pin)) := by
  rw [switchedOn, BitVec.getLsbD_or, getLsbD_bit]

theorem getLsbD_switchedOff (pin : Int) (l : Fin 16) :
    (g.switchedOff pin).mask.getLsbD l = (g.mask.getLsbD l && !decide (l = line pin)) := by
  have hlt : (l : Nat) < 32 := by omega
  rw [switchedOff, BitVec.getLsbD_and, BitVec.getLsbD_not, getLsbD_bit, decide_eq_true hlt,
    Bool.true_and]

/-- A vector is switched off only when none of its lines is left in the mask. -/
theorem nvic_switchedOff (pin : Int) (l : Fin 16)
    (hl : (g.switchedOff pin).mask.getLsbD l = true) :
    (g.switchedOff pin).nvic (pinIrqMap l).irqno = g.nvic (pinIrqMap l).irqno := by
  have hself : (g.switchedOff pin).mask.getLsbD (line pin) = false := by
    rw [getLsbD_switchedOff]
    simp
  have hidle := vectorIdle_iff hself
  simp only [switchedOff] at hidle hl ⊢
  -- If the vector goes off, the line would be one of its lines that are still in the mask.
  split
  · rename_i hv
    by_cases hk : (pinIrqMap l).irqno = (pinIrqMap (line pin)).irqno
    · rw [hidle.mp hv l hk] at hl
      cases hl
    · rw [Function.update_of_ne hk]
  · rfl

/-- What a call for a pin that exists can do. -/
inductive CallCase (g : Gpio H A) : Call H A → Gpio H A → Int → Prop where
  | again (pin : Int) (mode : UInt32) (hdr : Option H) (args : Option A)
      (htab : g.tab (line pin) = ⟨pin, mode.toUInt16, hdr, args⟩) :
      CallCase g (.attach pin mode hdr args) g eok
  | busy (pin : Int) (mode : UInt32) (hdr : Option H) (args : Option A) :
      CallCase g (.attach pin mode hdr args) g ebusy
  | attached (pin : Int) (mode : UInt32) (hdr : Option H) (args : Option A)
      (hfree : (g.tab (line pin)).pin = -1) :
      CallCase g (.attach pin mode hdr args)
        { g with tab := Function.update g.tab (line pin) ⟨pin, mode.toUInt16, hdr, args⟩ } eok
  | absent (pin : Int) (hfree : (g.tab (line pin)).pin = -1) : CallCase g (.dettach pin) g eok
  | dettached (pin : Int) (htaken : (g.tab (line pin)).pin ≠ -1) :
      CallCase g (.dettach pin) { g with tab := Function.update g.tab (line pin) {} } eok
  | unattached (pin : Int) (stack : BitVec 32) (hfree : (g.tab (line pin)).pin = -1) :
      CallCase g (.irqEnable pin 1 stack) g enosys
  | on (pin : Int) (stack : BitVec 32) (htaken : (g.tab (line pin)).pin ≠ -1) :
      CallCase g (.irqEnable pin 1 stack) (g.switchedOn pin stack) eok
  | off (pin : Int) (stack : BitVec 32) :
      CallCase g (.irqEnable pin 0 stack) (g.switchedOff pin) eok
  | unknown (pin : Int) (enabled : UInt32) (stack : BitVec 32) (h1 : enabled ≠ 1)
      (h0 : enabled ≠ 0) : CallCase g (.irqEnable pin enabled stack) g (-enosys)

theorem call_cases [DecidableEq H] [DecidableEq A] {c : Call H A} (h : Valid c.pin) :
    CallCase g c (g.call c).1 (g.call c).2 := by
  cases c with
  | attach pin mode hdr args =>
      change Valid pin at h
      simp only [call, attach_eq g h]
      -- The table has the mode in sixteen bits, the call in thirty-two.
      split
      · rename_i hm
        rcases hm with ⟨hp, hh, hmode, ha⟩
        have hmode' : (g.tab (line pin)).mode = mode.toUInt16 := by
          rw [← hmode, UInt16.toUInt16_toUInt32]
        have htab : g.tab (line pin) = ⟨pin, mode.toUInt16, hdr, args⟩ := by
          cases htab : g.tab (line pin) with
          | mk p m h' a =>
              simp only [htab] at hp hh hmode' ha
              rw [hp, hh, hmode', ha]
        exact .again pin mode hdr args htab
      · split
        · exact .busy pin mode hdr args
        · rename_i hfree
          exact .attached pin mode hdr args (not_not.mp hfree)
  | dettach pin =>
      change Valid pin at h
      simp only [call, dettach_eq g h]
      split
      · rename_i hfree
        exact .absent pin hfree
      · rename_i htaken
        exact .dettached pin htaken
  | irqEnable pin enabled stack =>
      change Valid pin at h
      simp only [call]
      by_cases h1 : enabled = 1
      · subst h1
        rw [irqEnable_on_eq g h]
        split
        · rename_i hfree
          exact .unattached pin stack hfree
        · rename_i htaken
          exact .on pin stack htaken
      · by_cases h0 : enabled = 0
        · subst h0
          rw [irqEnable_off_eq g h]
          exact .off pin stack
        · rw [irqEnable_other g h h1 h0]
          exact .unknown pin enabled stack h1 h0

end Equations

end Gpio

end Firmware
