import Firmware.Gpio.Pin

/-!
# Who Owns an Interrupt Line

Pins of different ports share a line, and with it the entry of the handler table,
the bit of the mask and the routing. Whoever attaches a handler first should have
the line until it is detached again, and a call for another pin of the same number
should be refused.

Only `stm32_pin_attach_irq` looks at the pin in the table. `stm32_pin_dettach_irq`
and `stm32_pin_irq_enable` ask at most whether the entry is free, so a call for
another pin takes the handler away, routes the line to the other port, or switches
it off, and returns `RT_EOK`.

There is a second way, which needs no call for a line somebody owns. Detaching
does not switch the interrupt off, and `HAL_GPIO_DeInit` does so only for the port
the line is routed to, while the mask forgets the line either way. A line can then
be armed with its bit clear and its vector off, and the next call that switches on
another line of the vector switches on this one too. `Respects` excludes both, and
`run_undisturbed` says that nothing else can go wrong.

## Main definitions

* `Desk`: The driver, and who attached what according to its answers.
* `Served`: The table has what was attached.
* `Undisturbed`: A call leaves the lines of the other pins alone.
* `Respects`: A call is made for a line that is free or one's own.

## Theorems

* `step_deskInv`: Owners stay in the table, and armed lines in the mask.
* `run_undisturbed`: Owners are not disturbed as long as the calls respect them.
* `not_undisturbed_of_owned`: A call that does not is not refused.
* `not_undisturbed_other_port`: Detaching a pin of another port takes the handler away.
-/

namespace Firmware

namespace Gpio

variable {H A : Type}

/-- Whether an edge on the pin interrupts: its line is routed to it and not masked,
    and the vector is enabled. -/
def live (g : Gpio H A) (pin : Int) : Bool :=
  (g.exti (line pin)).imr && (g.exti (line pin)).port == port pin &&
    g.nvic (pinIrqMap (line pin)).irqno

/-- The driver, and for each pin what the last attach that returned `RT_EOK` asked
    for, until detach is called for the pin. -/
structure Desk (H A : Type) where
  gpio : Gpio H A := {}
  owned : Int → Option (PinIrqHdr H A) := fun _ => none

/-- What is known of the owners behind a call and its answer. -/
def Desk.note (owned : Int → Option (PinIrqHdr H A)) (c : Call H A) (ret : Int) :
    Int → Option (PinIrqHdr H A) :=
  match c with
  | .attach pin mode hdr args =>
      if ret = eok then Function.update owned pin (some ⟨pin, mode.toUInt16, hdr, args⟩)
      else owned
  | .dettach pin => Function.update owned pin none
  | .irqEnable _ _ _ => owned

/-- The line of a pin has what was attached, and an interrupt on it calls that. -/
def Served (d : Desk H A) : Prop :=
  ∀ p v, d.owned p = some v → d.gpio.tab (line p) = v ∧
    d.gpio.pinIrqHdr (line p) = v.hdr.map fun h => (h, v.args)

/-- The entry of a line is free or belongs to the pin. -/
def Mine (g : Gpio H A) (pin : Int) : Prop :=
  (g.tab (line pin)).pin = -1 ∨ (g.tab (line pin)).pin = pin

/-- A handler is detached, and an interrupt switched on or off, only for a line that
    is free or one's own; and a line that is armed for another port is not switched
    off. -/
def Respects (d : Desk H A) : Call H A → Prop
  | .attach _ _ _ _ => True
  | .dettach pin => Mine d.gpio pin
  | .irqEnable pin enabled _ => enabled = 1 ∨ enabled = 0 →
      Mine d.gpio pin ∧ (enabled = 0 → (d.gpio.exti (line pin)).imr = true →
        (d.gpio.exti (line pin)).port = port pin)

/-- Owners are in the table, an armed line is in the mask, and the vector of a line
    that is in the mask is enabled. -/
structure DeskInv (d : Desk H A) : Prop where
  owner : ∀ p v, d.owned p = some v → Valid p ∧ v.pin = p ∧ d.gpio.tab (line p) = v
  armed : ∀ l : Fin 16, (d.gpio.exti l).imr = true → d.gpio.mask.getLsbD l = true
  vector : ∀ l : Fin 16, d.gpio.mask.getLsbD l = true →
    d.gpio.nvic (pinIrqMap l).irqno = true

variable {d : Desk H A}

theorem DeskInv.served (h : DeskInv d) : Served d := by
  intro p v hv
  rcases h.owner p v hv with ⟨-, -, htab⟩
  exact ⟨htab, by rw [pinIrqHdr, htab]⟩

/-- A line that is free or one's own is not the line of another owner. -/
theorem DeskInv.line_ne (h : DeskInv d) {p q : Int} {v : PinIrqHdr H A}
    (hv : d.owned p = some v) (hq : q ≠ p) (hm : Mine d.gpio q) : line p ≠ line q := by
  rcases h.owner p v hv with ⟨hvalid, hpin, htab⟩
  intro hl
  unfold Mine at hm
  rw [← hl, htab, hpin] at hm
  -- The entry has a pin in it, and that is the other owner's.
  rcases hm with hm | hm
  · have := hvalid.1
    omega
  · exact hq hm.symm

theorem deskInv_boot : DeskInv ({} : Desk H A) :=
  ⟨nofun, nofun, fun l hl => by simp at hl⟩

/-- A call for a line that is free, or the pin's own, does not touch another owner. -/
theorem DeskInv.owner_other (h : DeskInv d) {pin p : Int} {v : PinIrqHdr H A}
    {tab' : Fin 16 → PinIrqHdr H A} (hv : d.owned p = some v) (hne : pin ≠ p)
    (hm : Mine d.gpio pin) (hother : ∀ l, l ≠ line pin → tab' l = d.gpio.tab l) :
    Valid p ∧ v.pin = p ∧ tab' (line p) = v := by
  rcases h.owner p v hv with ⟨hpv, hpin, htab⟩
  exact ⟨hpv, hpin, by rw [hother _ (h.line_ne hv hne hm), htab]⟩

/-- Attaching keeps the owners: the entry was free or has just this in it. -/
theorem DeskInv.owner_attach (h : DeskInv d) {pin : Int} (hvalid : Valid pin)
    {e : PinIrqHdr H A} (he : e.pin = pin) {tab' : Fin 16 → PinIrqHdr H A}
    (hself : tab' (line pin) = e) (hm : Mine d.gpio pin)
    (hother : ∀ l, l ≠ line pin → tab' l = d.gpio.tab l) :
    ∀ p v, Function.update d.owned pin (some e) p = some v →
      Valid p ∧ v.pin = p ∧ tab' (line p) = v := by
  intro p v hv
  by_cases hp : p = pin
  · subst hp
    rw [Function.update_self, Option.some.injEq] at hv
    subst hv
    exact ⟨hvalid, he, hself⟩
  · -- The entry of another owner is on another line.
    rw [Function.update_of_ne hp] at hv
    exact h.owner_other hv (Ne.symm hp) hm hother

/-- Detaching keeps the other owners. -/
theorem DeskInv.owner_dettach (h : DeskInv d) {pin : Int} {tab' : Fin 16 → PinIrqHdr H A}
    (hm : Mine d.gpio pin) (hother : ∀ l, l ≠ line pin → tab' l = d.gpio.tab l) :
    ∀ p v, Function.update d.owned pin none p = some v →
      Valid p ∧ v.pin = p ∧ tab' (line p) = v := by
  intro p v hv
  by_cases hp : p = pin
  · subst hp
    rw [Function.update_self] at hv
    cases hv
  · rw [Function.update_of_ne hp] at hv
    exact h.owner_other hv (Ne.symm hp) hm hother

theorem DeskInv.on (h : DeskInv d) (pin : Int) (stack : BitVec 32) :
    DeskInv { d with gpio := d.gpio.switchedOn pin stack } := by
  refine ⟨h.owner, fun l hl => ?_, fun l hl => ?_⟩
  · rw [getLsbD_switchedOn]
    by_cases hk : l = line pin
    · simp [hk]
    · simp only [switchedOn, Function.update_of_ne hk] at hl
      simp [h.armed l hl]
  · simp only [switchedOn]
    -- The vector may be shared, and then it has just been enabled.
    by_cases hi : (pinIrqMap l).irqno = (pinIrqMap (line pin)).irqno
    · rw [hi, Function.update_self]
    · rw [Function.update_of_ne hi]
      apply h.vector
      rw [getLsbD_switchedOn] at hl
      have hk : l ≠ line pin := fun hk => hi (by rw [hk])
      simpa [hk] using hl

theorem DeskInv.off (h : DeskInv d) (pin : Int)
    (hr : (d.gpio.exti (line pin)).imr = true → (d.gpio.exti (line pin)).port = port pin) :
    DeskInv { d with gpio := d.gpio.switchedOff pin } := by
  refine ⟨h.owner, fun l hl => ?_, fun l hl => ?_⟩
  · rw [getLsbD_switchedOff]
    by_cases hk : l = line pin
    -- The line itself is disarmed, being routed to this port if it was armed.
    · subst hk
      simp only [switchedOff, Function.update_self] at hl
      split at hl
      · cases hl
      · rename_i hne
        exact absurd (beq_iff_eq.mpr (hr hl)) hne
    · simp only [switchedOff, Function.update_of_ne hk] at hl
      simp [hk, h.armed l hl]
  · rw [nvic_switchedOff d.gpio pin l hl]
    apply h.vector
    rw [getLsbD_switchedOff] at hl
    exact (Bool.and_eq_true_iff.mp hl).1

variable [DecidableEq H] [DecidableEq A]

/-- One call. -/
def deskStep (d : Desk H A) (c : Call H A) : Option (Desk H A) :=
  some ⟨(d.gpio.call c).1, Desk.note d.owned c (d.gpio.call c).2⟩

/-- A call for one pin leaves alone what belongs to the others, and is refused if it
    is for the line of one of them. -/
def Undisturbed (d : Desk H A) (c : Call H A) : Prop :=
  ∀ p v, d.owned p = some v → c.pin ≠ p →
    (d.gpio.call c).1.tab (line p) = d.gpio.tab (line p) ∧
    (d.gpio.call c).1.mask.getLsbD (line p) = d.gpio.mask.getLsbD (line p) ∧
    (d.gpio.call c).1.exti (line p) = d.gpio.exti (line p) ∧
    (d.gpio.call c).1.live p = d.gpio.live p ∧
    (line c.pin = line p → (d.gpio.call c).2 ≠ eok)

theorem step_deskInv {d' : Desk H A} {c : Call H A} (h : DeskInv d) (hvalid : Valid c.pin)
    (hr : Respects d c) (hs : deskStep d c = some d') : DeskInv d' := by
  rw [deskStep, Option.some.injEq] at hs
  subst hs
  have hc := call_cases d.gpio hvalid
  generalize (d.gpio.call c).1 = g' at hc ⊢
  generalize (d.gpio.call c).2 = ret at hc ⊢
  -- A call has nine outcomes, and most of them touch one of the three parts at most.
  cases hc with
  | again pin mode hdr args htab =>
      change Valid pin at hvalid
      refine ⟨?_, h.armed, h.vector⟩
      simp only [Desk.note, if_true]
      exact h.owner_attach hvalid rfl htab (.inr (by rw [htab])) fun _ _ => rfl
  | busy pin mode hdr args => exact ⟨h.owner, h.armed, h.vector⟩
  | attached pin mode hdr args hfree =>
      refine ⟨?_, h.armed, h.vector⟩
      simp only [Desk.note, if_true]
      exact h.owner_attach hvalid rfl (Function.update_self _ _ _) (.inl hfree)
        fun l hl => Function.update_of_ne hl _ _
  | absent pin hfree =>
      refine ⟨?_, h.armed, h.vector⟩
      exact h.owner_dettach (.inl hfree) fun _ _ => rfl
  | dettached pin htaken =>
      refine ⟨?_, h.armed, h.vector⟩
      exact h.owner_dettach hr fun l hl => Function.update_of_ne hl _ _
  | unattached pin stack hfree => exact ⟨h.owner, h.armed, h.vector⟩
  | on pin stack htaken => exact h.on pin stack
  | off pin stack => exact h.off pin ((hr (.inr rfl)).2 rfl)
  | unknown pin enabled stack h1 h0 => exact ⟨h.owner, h.armed, h.vector⟩

omit [DecidableEq H] [DecidableEq A] in
/-- An edge interrupts as before if the line is as it was and, in case it is armed,
    its vector too. -/
theorem live_congr {g g' : Gpio H A} {p : Int} (hx : g'.exti (line p) = g.exti (line p))
    (hn : (g.exti (line p)).imr = true →
      g'.nvic (pinIrqMap (line p)).irqno = g.nvic (pinIrqMap (line p)).irqno) :
    g'.live p = g.live p := by
  unfold live
  rw [hx]
  -- A line that is not armed does not interrupt, whatever its vector does.
  cases hi : (g.exti (line p)).imr with
  | false => simp
  | true => rw [hn hi]

omit [DecidableEq H] [DecidableEq A] in
/-- Switching on another line does not reach this one. -/
theorem DeskInv.frame_on (h : DeskInv d) {p pin : Int} (stack : BitVec 32)
    (hl : line p ≠ line pin) :
    (d.gpio.switchedOn pin stack).mask.getLsbD (line p) = d.gpio.mask.getLsbD (line p) ∧
    (d.gpio.switchedOn pin stack).exti (line p) = d.gpio.exti (line p) ∧
    (d.gpio.switchedOn pin stack).live p = d.gpio.live p := by
  have hx : (d.gpio.switchedOn pin stack).exti (line p) = d.gpio.exti (line p) := by
    simp only [switchedOn, Function.update_of_ne hl]
  refine ⟨by rw [getLsbD_switchedOn]; simp [hl], hx, live_congr hx fun hi => ?_⟩
  -- An armed line has its vector enabled already.
  have hv := h.vector _ (h.armed _ hi)
  simp only [switchedOn]
  by_cases hk : (pinIrqMap (line p)).irqno = (pinIrqMap (line pin)).irqno
  · rw [hk, Function.update_self, ← hk, hv]
  · rw [Function.update_of_ne hk]

omit [DecidableEq H] [DecidableEq A] in
/-- Neither does switching one off. -/
theorem DeskInv.frame_off (h : DeskInv d) {p pin : Int} (hl : line p ≠ line pin) :
    (d.gpio.switchedOff pin).mask.getLsbD (line p) = d.gpio.mask.getLsbD (line p) ∧
    (d.gpio.switchedOff pin).exti (line p) = d.gpio.exti (line p) ∧
    (d.gpio.switchedOff pin).live p = d.gpio.live p := by
  have hx : (d.gpio.switchedOff pin).exti (line p) = d.gpio.exti (line p) := by
    simp only [switchedOff, Function.update_of_ne hl]
  have hm : (d.gpio.switchedOff pin).mask.getLsbD (line p) = d.gpio.mask.getLsbD (line p) := by
    rw [getLsbD_switchedOff]
    simp [hl]
  refine ⟨hm, hx, live_congr hx fun hi => ?_⟩
  exact nvic_switchedOff d.gpio pin (line p) (by rw [hm]; exact h.armed _ hi)

theorem DeskInv.undisturbed {c : Call H A} (h : DeskInv d) (hvalid : Valid c.pin)
    (hr : Respects d c) : Undisturbed d c := by
  intro p v hv hne
  have hc := call_cases d.gpio hvalid
  generalize (d.gpio.call c).1 = g' at hc ⊢
  generalize (d.gpio.call c).2 = ret at hc ⊢
  -- Wherever the call is for its own line, that line is not the one of `p`.
  have hmine : Mine d.gpio c.pin → line p ≠ line c.pin := h.line_ne hv hne
  cases hc with
  | again pin mode hdr args htab =>
      have hl : line p ≠ line pin := hmine (.inr (by simp only [Call.pin]; rw [htab]))
      exact ⟨rfl, rfl, rfl, rfl, fun e => absurd e.symm hl⟩
  | busy pin mode hdr args => exact ⟨rfl, rfl, rfl, rfl, fun _ => by decide⟩
  | attached pin mode hdr args hfree =>
      have hl : line p ≠ line pin := hmine (.inl hfree)
      exact ⟨Function.update_of_ne hl _ _, rfl, rfl, rfl, fun e => absurd e.symm hl⟩
  | absent pin hfree =>
      have hl : line p ≠ line pin := hmine (.inl hfree)
      exact ⟨rfl, rfl, rfl, rfl, fun e => absurd e.symm hl⟩
  | dettached pin htaken =>
      have hl : line p ≠ line pin := hmine hr
      exact ⟨Function.update_of_ne hl _ _, rfl, rfl, rfl, fun e => absurd e.symm hl⟩
  | unattached pin stack hfree => exact ⟨rfl, rfl, rfl, rfl, fun _ => by decide⟩
  | on pin stack htaken =>
      have hl : line p ≠ line pin := hmine (hr (.inl rfl)).1
      rcases h.frame_on stack hl with ⟨hm, hx, hlive⟩
      exact ⟨rfl, hm, hx, hlive, fun e => absurd e.symm hl⟩
  | off pin stack =>
      have hl : line p ≠ line pin := hmine (hr (.inr rfl)).1
      rcases h.frame_off hl with ⟨hm, hx, hlive⟩
      exact ⟨rfl, hm, hx, hlive, fun e => absurd e.symm hl⟩
  | unknown pin enabled stack h1 h0 => exact ⟨rfl, rfl, rfl, rfl, fun _ => by decide⟩

/-- In every run of calls for pins of the package that respect the owners, no owner
    is ever disturbed and each of them is served. -/
theorem run_undisturbed {calls : List (Call H A)} (hvalid : ∀ c ∈ calls, Valid c.pin)
    (hr : Along deskStep Respects {} calls) :
    Along deskStep Undisturbed {} calls ∧ Always deskStep Served {} calls := by
  have hG := along_and deskStep (along_of_forall deskStep {} hvalid) hr
  have hstep : ∀ (d : Desk H A) c d', DeskInv d → Valid c.pin ∧ Respects d c →
      deskStep d c = some d' → DeskInv d' :=
    fun _ _ _ hI hc hs => step_deskInv hI hc.1 hc.2 hs
  constructor
  · exact along_of_invariant deskStep DeskInv hstep
      (fun _ _ hI hc => hI.undisturbed hc.1 hc.2) deskInv_boot hG
  · exact always_of_invariant deskStep DeskInv hstep (fun _ hI => hI.served) deskInv_boot hG

/-- A detach for a line that another pin owns is not refused, and neither is switching
    its interrupt on or off. -/
theorem not_undisturbed_of_owned {c : Call H A} (h : DeskInv d) (hvalid : Valid c.pin)
    {p : Int} {v : PinIrqHdr H A} (hv : d.owned p = some v) (hne : c.pin ≠ p)
    (hl : line c.pin = line p)
    (hc : c = .dettach c.pin ∨
      ∃ enabled stack, c = .irqEnable c.pin enabled stack ∧ (enabled = 1 ∨ enabled = 0)) :
    ¬ Undisturbed d c := by
  rcases h.owner p v hv with ⟨hp, hpin, htab⟩
  have htaken : (d.gpio.tab (line c.pin)).pin ≠ -1 := by
    rw [hl, htab, hpin]
    have := hp.1
    omega
  intro hU
  -- Each of the calls returns `RT_EOK` and should have been refused.
  have hret := (hU p v hv hne).2.2.2.2 hl
  rcases hc with hc | ⟨enabled, stack, hc, h1 | h0⟩
  · rw [hc, call, dettach_eq d.gpio hvalid, if_neg htaken] at hret
    exact hret rfl
  · rw [hc, call, h1, irqEnable_on_eq d.gpio hvalid, if_neg htaken] at hret
    exact hret rfl
  · rw [hc, call, h0, irqEnable_off_eq d.gpio hvalid] at hret
    exact hret rfl

instance (g : Gpio H A) (pin : Int) : Decidable (Mine g pin) :=
  inferInstanceAs (Decidable (_ ∨ _))

instance (d : Desk H A) : (c : Call H A) → Decidable (Respects d c)
  | .attach _ _ _ _ => isTrue trivial
  | .dettach pin => inferInstanceAs (Decidable (Mine d.gpio pin))
  | .irqEnable _ _ _ => inferInstanceAs (Decidable (_ → _))

instance (pin : Int) : Decidable (Valid pin) := inferInstanceAs (Decidable (_ ∧ _))

/-- Two pins of the same number, the second of which is refused, and one of the same
    vector that comes and goes. -/
def politeCalls : List (Call Nat Nat) :=
  [.attach 6 0 (some 1) (some 2), .irqEnable 6 1 0, .attach 22 0 (some 3) none,
    .attach 7 1 (some 4) none, .irqEnable 7 1 0, .irqEnable 7 0 0, .dettach 7]

/-- Pin 6 is owned, and its interrupt is live, whenever one of the other calls comes. -/
theorem run_undisturbed_politeCalls :
    (∀ c ∈ politeCalls, Valid c.pin) ∧ Along deskStep Respects {} politeCalls ∧
    Along deskStep
      (fun d c => c.pin ≠ 6 → d.owned 6 = some ⟨6, 0, some 1, some 2⟩ ∧ live d.gpio 6 = true)
      {} politeCalls ∧
    Along deskStep Undisturbed {} politeCalls ∧ Always deskStep Served {} politeCalls := by
  have hvalid : ∀ c ∈ politeCalls, Valid c.pin := by decide
  have hr : Along deskStep Respects {} politeCalls := by decide
  exact ⟨hvalid, hr, by decide, run_undisturbed hvalid hr⟩

/-- A handler is attached to the first pin of one port and detached from the first of
    another. -/
def otherPort : List (Call Nat Nat) := [.attach 0 0 (some 1) (some 2), .dettach 16]

/-- The call for the other port returns `RT_EOK`, and nobody is called any more. -/
theorem not_undisturbed_other_port : ¬ Along deskStep Undisturbed {} otherPort ∧
    ∃ d, run deskStep {} otherPort = some d ∧
      d.owned 0 = some ⟨0, 0, some 1, some 2⟩ ∧ d.gpio.pinIrqHdr (line 0) = none := by
  constructor
  · intro h
    have hU := (h.2 _ rfl).1
    exact (hU 0 ⟨0, 0, some 1, some 2⟩ (by decide) (by decide)).2.2.2.2 (by decide) (by decide)
  · exact ⟨_, rfl, by decide, by decide⟩

end Gpio

end Firmware
