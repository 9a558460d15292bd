import Firmware.Gpio.Pin

/-!
# Shared Interrupt Vectors

Sixteen lines share seven interrupt vectors: the first five have one each, the
next five share another and the last six the seventh. `stm32_pin_irq_enable`
enables the vector of a line together with the bit of the line in
`pin_irq_enable_mask`, and disables it together with the last bit of its group.

Whatever calls are made, and for whatever numbers, the vectors and the mask agree
afterwards. The three calls reach them in two ways only, which `call_effect` says
once: a successful enable sets the bit of a line, and a disable clears it. A call
for a number that is no pin, for a line nobody attached to, or with an argument
that is neither of the two is refused before anything is touched. What an attach
or a detach does to the table stays there.

The bit of a line thus says how the line was switched last, and `run_vectors`
states it for the notes of an onlooker who sees the calls and their answers.

## Main definitions

* `lineOf`: The line of a number, if it is a pin.
* `switched`: What a call and its answer say about a line.
* `Agrees`: The vectors are those of the lines in the mask.

## Theorems

* `call_effect`: What a call does to the mask and the vectors.
* `Agrees.on`, `Agrees.off`: A switch keeps the two together.
* `run_vectors`: They agree after every sequence of calls.
-/

namespace Firmware

namespace Gpio

variable {H A : Type}

/-- The line of a pin number, if there is such a pin. -/
def lineOf (pin : Int) : Option (Fin 16) := (getPin pin).bind fun index => irqIndex index.pin

/-- Whether a call has switched a line on or off: an enable that succeeded, or a
    disable. -/
def switched (l : Fin 16) : Call H A × Int → Option Bool
  | (.irqEnable pin enabled _, ret) =>
      if lineOf pin = some l then
        if enabled = 1 ∧ ret = eok then some true
        else if enabled = 0 then some false
        else none
      else none
  | _ => none

/-- The notes about the last switch of each line, behind one more call. -/
def noteSwitch (last : Fin 16 → Option Bool) (e : Call H A × Int) : Fin 16 → Option Bool :=
  fun l => (switched l e).or (last l)

/-- A vector is enabled exactly if one of its lines is in the mask. -/
def Agrees (g : Gpio H A) : Prop :=
  ∀ v : Irqn, g.nvic v = true ↔ ∃ l, (pinIrqMap l).irqno = v ∧ g.mask.getLsbD l = true

section Numbers

variable {pin : Int}

/-- Only the low eight bits of a number are looked at. -/
theorem getPin_emod (pin : Int) : getPin (pin % 256) = getPin pin := by
  rw [getPin, getPin, Int.emod_emod_of_dvd pin (dvd_refl 256)]

theorem getPin_none (h : ¬ Valid (pin % 256)) : getPin pin = none := by
  rw [getPin, if_neg]
  intro hlt
  exact h ⟨Int.emod_nonneg pin (by decide), hlt⟩

theorem lineOf_eq (h : Valid (pin % 256)) : lineOf pin = some (line (pin % 256)) := by
  rw [lineOf, ← getPin_emod, getPin_valid h, Option.bind_some, irqIndex_bit]

theorem irqEnable_emod (g : Gpio H A) (pin : Int) (enabled : UInt32) (stack : BitVec 32) :
    g.stm32PinIrqEnable (pin % 256) enabled stack = g.stm32PinIrqEnable pin enabled stack := by
  simp only [stm32PinIrqEnable, getPin_emod]

end Numbers

section Effect

variable (g : Gpio H A)

/-- What a call leaves alone, or does, as far as the mask and the vectors are
    concerned, and what it says about the lines. -/
inductive Effect (g g' : Gpio H A) (e : Call H A × Int) : Prop where
  | rest (hmask : g'.mask = g.mask) (hnvic : g'.nvic = g.nvic) (hnote : ∀ l, switched l e = none)
  | on (pin : Int) (stack : BitVec 32) (hstate : g' = g.switchedOn pin stack)
      (hnote : ∀ l, switched l e = if l = line pin then some true else none)
  | off (pin : Int) (hstate : g' = g.switchedOff pin)
      (hnote : ∀ l, switched l e = if l = line pin then some false else none)

theorem irqEnable_effect (pin : Int) (enabled : UInt32) (stack : BitVec 32) :
    Effect g (g.stm32PinIrqEnable pin enabled stack).1
      (.irqEnable pin enabled stack, (g.stm32PinIrqEnable pin enabled stack).2) := by
  -- A number is treated as the pin its low eight bits name, if there is such a pin.
  by_cases hv : Valid (pin % 256)
  · have hline := lineOf_eq hv
    rw [← irqEnable_emod]
    by_cases h1 : enabled = 1
    · subst h1
      rw [irqEnable_on_eq g hv]
      split
      · -- Nobody has attached to the line.
        refine .rest rfl rfl fun l => ?_
        simp [switched, hline, enosys, eok]
      · refine .on (pin % 256) stack rfl fun l => ?_
        simp [switched, hline, eq_comm]
    · by_cases h0 : enabled = 0
      · subst h0
        rw [irqEnable_off_eq g hv]
        refine .off (pin % 256) rfl fun l => ?_
        simp [switched, hline, eq_comm]
      · rw [irqEnable_other g hv h1 h0]
        refine .rest rfl rfl fun l => ?_
        simp [switched, h1, h0]
  · have hnone := getPin_none hv
    rw [stm32PinIrqEnable, hnone]
    refine .rest rfl rfl fun l => ?_
    simp [switched, lineOf, hnone]

variable [DecidableEq H] [DecidableEq A]

/-- Attaching and detaching reach neither the mask nor the vectors. -/
theorem call_effect (c : Call H A) : Effect g (g.call c).1 (c, (g.call c).2) := by
  cases c with
  | attach pin mode hdr args =>
      simp only [call, stm32PinAttachIrq]
      split
      · exact .rest rfl rfl fun _ => rfl
      · split
        · exact .rest rfl rfl fun _ => rfl
        · split_ifs
          · exact .rest rfl rfl fun _ => rfl
          · exact .rest rfl rfl fun _ => rfl
          · exact .rest rfl rfl fun _ => rfl
  | dettach pin =>
      simp only [call, stm32PinDettachIrq]
      split
      · exact .rest rfl rfl fun _ => rfl
      · split
        · exact .rest rfl rfl fun _ => rfl
        · split_ifs
          · exact .rest rfl rfl fun _ => rfl
          · exact .rest rfl rfl fun _ => rfl
  | irqEnable pin enabled stack => exact irqEnable_effect g pin enabled stack

end Effect

section Switch

variable {g : Gpio H A}

/-- The vector of the line is enabled with its bit. -/
theorem Agrees.on (h : Agrees g) (pin : Int) (stack : BitVec 32) :
    Agrees (g.switchedOn pin stack) := by
  intro v
  by_cases hv : v = (pinIrqMap (line pin)).irqno
  · subst hv
    -- The line itself is the one that the vector is enabled for.
    refine iff_of_true (Function.update_self _ _ _) ⟨line pin, rfl, ?_⟩
    rw [getLsbD_switchedOn]
    simp
  · have hsame : (g.switchedOn pin stack).nvic v = g.nvic v := Function.update_of_ne hv _ _
    rw [hsame, h v]
    -- The bit that is set belongs to another vector.
    refine exists_congr fun l => and_congr_right fun hl => ?_
    have hne : l ≠ line pin := fun e => hv (by rw [← hl, e])
    rw [getLsbD_switchedOn]
    simp [hne]

/-- The vector of the line is disabled with the last bit of its group. -/
theorem Agrees.off (h : Agrees g) (pin : Int) : Agrees (g.switchedOff pin) := by
  have hself : (g.switchedOff pin).mask.getLsbD (line pin) = false := by
    rw [getLsbD_switchedOff]
    simp
  have hidle := vectorIdle_iff hself
  intro v
  constructor
  · intro hon
    by_cases hv : v = (pinIrqMap (line pin)).irqno
    · -- The vector was not switched off, so the group still has a bit.
      by_contra hc
      push Not at hc
      have hall : vectorIdle (pinIrqMap (line pin)).pinbit (g.switchedOff pin).mask = true := by
        rw [hidle]
        intro k hk
        exact Bool.eq_false_iff.mpr (hc k (hk.trans hv.symm))
      simp only [switchedOff] at hall hon
      rw [if_pos hall, hv, Function.update_self] at hon
      cases hon
    · -- Another vector is as it was, and its lines are other lines.
      have hsame : (g.switchedOff pin).nvic v = g.nvic v := by
        simp only [switchedOff]
        split
        · exact Function.update_of_ne hv _ _
        · rfl
      rw [hsame, h v] at hon
      rcases hon with ⟨l, hl, hbit⟩
      have hne : l ≠ line pin := fun e => hv (by rw [← hl, e])
      refine ⟨l, hl, ?_⟩
      rw [getLsbD_switchedOff]
      simp [hbit, hne]
  · -- A line that is still in the mask has kept its vector on.
    rintro ⟨l, hl, hbit⟩
    rw [← hl, nvic_switchedOff g pin l hbit, h]
    rw [getLsbD_switchedOff] at hbit
    exact ⟨l, rfl, (Bool.and_eq_true_iff.mp hbit).1⟩

end Switch

variable [DecidableEq H] [DecidableEq A]

/-- One call. -/
def callStep (g : Gpio H A) (c : Call H A) : Option (Gpio H A) := some (g.call c).1

/-- A call and its answer. -/
def answered (g : Gpio H A) (c : Call H A) : Call H A × Int := (c, (g.call c).2)

/-- The vectors agree with the mask, and the mask with the notes. -/
structure VectorInv (w : Gpio H A × (Fin 16 → Option Bool)) : Prop where
  vectors : Agrees w.1
  mask : ∀ l : Fin 16, w.1.mask.getLsbD l = true ↔ w.2 l = some true

theorem VectorInv.step {w w' : Gpio H A × (Fin 16 → Option Bool)} {c : Call H A}
    (h : VectorInv w) (hs : watched callStep answered noteSwitch w c = some w') :
    VectorInv w' := by
  simp only [watched, callStep, Option.map_some, Option.some.injEq] at hs
  subst hs
  have he := call_effect w.1 c
  simp only [answered]
  cases he with
  -- The call was refused or was no switch at all.
  | rest hmask hnvic hnote =>
      refine ⟨?_, fun l => ?_⟩
      · intro v
        rw [hmask, hnvic]
        exact h.vectors v
      · simp only [noteSwitch, hmask, hnote, Option.none_or]
        exact h.mask l
  | on pin stack hstate hnote =>
      refine ⟨hstate ▸ h.vectors.on pin stack, fun l => ?_⟩
      simp only [noteSwitch, hstate, hnote, getLsbD_switchedOn]
      by_cases hl : l = line pin
      · simp [hl]
      · simp [hl, h.mask l]
  | off pin hstate hnote =>
      refine ⟨hstate ▸ h.vectors.off pin, fun l => ?_⟩
      simp only [noteSwitch, hstate, hnote, getLsbD_switchedOff]
      by_cases hl : l = line pin
      · simp [hl]
      · simp [hl, h.mask l]

/-- After every sequence of calls, for whatever numbers and however they are answered:
    a vector is enabled exactly if some line of its group is in the mask, and a line
    is in the mask exactly if it was switched last by an enable that succeeded. -/
theorem run_vectors {g₀ g : Gpio H A} {calls : List (Call H A)} (hmask : g₀.mask = 0)
    (hnvic : ∀ v, g₀.nvic v = false) (hr : run callStep g₀ calls = some g) :
    (∀ v, g.nvic v = true ↔ ∃ l, (pinIrqMap l).irqno = v ∧ g.mask.getLsbD l = true) ∧
    ∀ l : Fin 16, g.mask.getLsbD l = true ↔
      (trace callStep answered g₀ calls).foldl noteSwitch (fun _ => none) l = some true := by
  have h₀ : VectorInv (g₀, fun _ => none) := by
    refine ⟨fun v => ?_, fun l => ?_⟩
    · simp [hmask, hnvic]
    · simp [hmask]
  have hinv := run_invariant (watched callStep answered noteSwitch) VectorInv
    (fun _ _ _ hI hs => hI.step hs) h₀
    (run_watched callStep answered noteSwitch hr fun _ => none)
  exact ⟨hinv.vectors, hinv.mask⟩

/-- Two lines of one vector, pins that share a line, a number that is no pin and an
    enable nobody has attached for. -/
def sharedCalls : List (Call Nat Nat) :=
  [.attach 6 0 (some 1) none, .attach 7 1 (some 2) none, .irqEnable 6 1 0, .irqEnable 7 1 0,
    .irqEnable 23 0 0, .irqEnable 200 0 0, .irqEnable 3 1 0, .irqEnable 6 2 0]

theorem run_vectors_sharedCalls : ∃ g, run callStep {} sharedCalls = some g ∧
    g.nvic .exti9_5 = true ∧ g.mask.getLsbD 6 = true ∧ g.mask.getLsbD 7 = false ∧
    ∀ v, g.nvic v = true ↔ ∃ l, (pinIrqMap l).irqno = v ∧ g.mask.getLsbD l = true := by
  have hr : run callStep {} sharedCalls = some _ := rfl
  exact ⟨_, hr, by decide, by decide, by decide, (run_vectors rfl (fun _ => rfl) hr).1⟩

end Gpio

end Firmware
