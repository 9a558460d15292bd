import Firmware.Lib.Runs

/-!
# The Link Monitor

`phy_monitor_thread_entry` and `phy_linkchange` from `drivers/test_eth.c`: the
search for the PHY and the poll that follows its link.

Every value of the PHY is read by `HAL_ETH_ReadPHYRegister`, which can fail with
`HAL_TIMEOUT` or `HAL_BUSY` and then leaves the variable it was given alone. The
monitor never looks at the status. After a failed read it goes on with what the
variable held: whatever was on the stack for the status register and at the start
of a search, the last value read at an earlier address in the course of one, and
zero for the second register, which means 100 Mbit/s and half duplex.

A second gap is independent of failures. The link is taken to be up if either of
two bits is set, the link bit or the one that says that the negotiation is
complete.

`along_clean_iff` says exactly which reads do no harm.

## Main definitions

* `Phy`: The search, the summary of the last poll and the device.
* `phyLinkchange`: One poll.
* `phyProbe`: The test of one address.
* `Watch`: The monitor, and what its successful reads have said.
* `Faithful`: A step reports what was read and nothing else.
* `Clean`: The reads of a step can do no harm.

## Theorems

* `faithful_iff`: A step is faithful exactly if its reads are clean.
* `step_watchInv`: The summary stands for what was read.
* `along_clean_iff`: The same for whole runs.
* `not_faithful_negotiated`: A link that is down and negotiated is reported as up.
-/

namespace Firmware

namespace Eth

/-- `PHY_LINKED_STATUS_MASK` -/
def linkedMask : UInt32 := 0x04

/-- `PHY_AUTONEGO_COMPLETE_MASK` -/
def autonegoMask : UInt32 := 0x20

/-- `PHY_Status_SPEED_100M`, for the DP83848C. -/
def speed100M (sr : UInt32) : Bool := sr &&& 0x02 == 0

/-- `PHY_Status_FULL_DUPLEX`, for the DP83848C. -/
def fullDuplex (sr : UInt32) : Bool := sr &&& 0x04 != 0

/-- `phy_speed_new` of a link that is up: `PHY_LINK`, `PHY_100M` and
    `PHY_FULL_DUPLEX`. -/
def summary (fast full : Bool) : UInt8 :=
  1 ||| (if fast then 2 else 0) ||| (if full then 4 else 0)

/-- What a call of `HAL_ETH_ReadPHYRegister` gives: the sixteen bits of the register,
    or nothing if it returns `HAL_TIMEOUT` or `HAL_BUSY`. -/
abbrev PhyRead := Option UInt16

/-- The variable behind a read. -/
def PhyRead.value (r : PhyRead) (old : UInt32) : UInt32 :=
  match r with
  | some v => v.toUInt32
  | none => old

/-- The monitor: the search with its variables `i`, `temp` and `phy_addr`, the summary
    `phy_speed`, and of the device `ETH_Speed`, `ETH_Mode` and the calls of
    `eth_device_linkchange`. -/
structure Phy where
  i : Nat := 0
  temp : UInt32
  phyAddr : Option Nat := none
  phySpeed : UInt8 := 0
  fast : Bool := true
  full : Bool := true
  changes : List Bool := []
  deriving DecidableEq, Repr

/-- The link state last passed to `eth_device_linkchange`, down before the first. -/
def Phy.link (p : Phy) : Bool := p.changes.getLastD false

/-- `phy_speed_new`, from the status register and, if it is read, the second one, whose
    variable starts as zero. -/
def phySpeedNew (status : UInt32) (sr : PhyRead) : UInt8 :=
  if status &&& (autonegoMask ||| linkedMask) ≠ 0 then
    summary (speed100M (sr.value 0)) (fullDuplex (sr.value 0))
  else 0

/-- The summary of a poll is compared with the last one and acted on. -/
def Phy.update (p : Phy) (new : UInt8) : Phy :=
  if p.phySpeed = new then p
  -- `PHY_LINK`
  else if new &&& 1 ≠ 0 then
    { p with
      phySpeed := new
      fast := new &&& 2 ≠ 0
      full := new &&& 4 ≠ 0
      changes := p.changes ++ [true] }
  -- Speed and mode of the device are left as they are.
  else { p with phySpeed := new, changes := p.changes ++ [false] }

/-- `phy_linkchange`, with what was on the stack in place of `status`. -/
def phyLinkchange (p : Phy) (status : PhyRead) (stack : UInt32) (sr : PhyRead) : Phy :=
  p.update (phySpeedNew (status.value stack) sr)

/-- One turn of the search: `PHY_ID1_REG` is read at address `i`. -/
def phyProbe (p : Phy) (id1 : PhyRead) : Phy :=
  if id1.value p.temp ≠ 0xffff ∧ id1.value p.temp ≠ 0 then
    { p with temp := id1.value p.temp, phyAddr := some p.i }
  else { p with temp := id1.value p.temp, i := p.i + 1 }

/-- What the monitor does next. -/
inductive PhyEvent where
  /-- One address of a search. -/
  | probe (id1 : PhyRead)
  /-- A new search, with what is on the stack in place of `temp`. -/
  | rescan (stack : UInt32)
  /-- One poll of the link. -/
  | poll (status : PhyRead) (stack : UInt32) (sr : PhyRead)
  deriving DecidableEq, Repr

/-- The monitor and its successful reads: the link bit of the last status, and speed
    and duplex of the last second register. -/
structure Watch where
  phy : Phy
  link : Bool := false
  rate : Option (Bool × Bool) := none
  deriving DecidableEq, Repr

/-- The second register is read if the status says so. -/
def readsRate (status : PhyRead) (stack : UInt32) : Bool :=
  status.value stack &&& (autonegoMask ||| linkedMask) != 0

/-- The link bit of a status. -/
def linked (v : UInt16) : Bool := v.toUInt32 &&& linkedMask != 0

/-- Speed and duplex of a second register. -/
def rateOf (v : UInt16) : Bool × Bool := (speed100M v.toUInt32, fullDuplex v.toUInt32)

/-- What is known behind a poll. -/
def Watch.note (w : Watch) (status : PhyRead) (stack : UInt32) (sr : PhyRead) (p : Phy) : Watch :=
  { phy := p
    link := match status with
      | some v => linked v
      | none => w.link
    rate := match sr with
      | some v => if readsRate status stack then some (rateOf v) else w.rate
      | none => w.rate }

/-- One step: a search goes on while no address is known, and the polls follow it. -/
def phyStep (w : Watch) : PhyEvent → Option Watch
  | .probe id1 =>
      if w.phy.phyAddr = none ∧ w.phy.i ≤ 0x1f then some { w with phy := phyProbe w.phy id1 }
      else none
  | .rescan stack =>
      if w.phy.phyAddr = none ∧ 0x1f < w.phy.i then
        some { w with phy := { w.phy with i := 0, temp := stack } }
      else none
  | .poll status stack sr =>
      if w.phy.phyAddr ≠ none then
        some (w.note status stack sr (phyLinkchange w.phy status stack sr))
      else none

/-- A poll reports the link bit of the last status that was read, and changes nothing
    but for a change that was read. -/
structure FaithfulPoll (w : Watch) (status : PhyRead) (stack : UInt32) (sr : PhyRead) :
    Prop where
  link : (phyLinkchange w.phy status stack sr).link =
    (w.note status stack sr (phyLinkchange w.phy status stack sr)).link
  changed : (phyLinkchange w.phy status stack sr).changes ≠ w.phy.changes →
    (∃ v, status = some v ∧ linked v ≠ w.link) ∨
    (status ≠ none ∧ ∃ v, sr = some v ∧ w.rate ≠ some (rateOf v))
  rate : status = none ∨ sr = none →
    (phyLinkchange w.phy status stack sr).fast = w.phy.fast ∧
    (phyLinkchange w.phy status stack sr).full = w.phy.full

/-- A step of the monitor is faithful: an address is not accepted on a read that failed,
    and a poll reports what was read. -/
def Faithful (w : Watch) : PhyEvent → Prop
  | .probe id1 => id1 = none → (phyProbe w.phy id1).phyAddr = w.phy.phyAddr
  | .rescan _ => True
  | .poll status stack sr => FaithfulPoll w status stack sr

/-- The reads of a step do no harm. A status that was read does not say that a link is
    negotiated that is not there; if the second register could not be read, the device
    is at 100 Mbit/s and half duplex anyway; if the status could not be read, what the
    code goes on with amounts to the summary it has; and if an identifier could not be
    read, the variable holds one that is not accepted. -/
def Clean (w : Watch) : PhyEvent → Prop
  | .probe none => w.phy.temp = 0xffff ∨ w.phy.temp = 0
  | .probe (some _) => True
  | .rescan _ => True
  | .poll (some v) _ sr =>
      if linked v then sr = none → w.phy.fast = true ∧ w.phy.full = false
      else v.toUInt32 &&& autonegoMask = 0
  | .poll none stack sr => phySpeedNew stack sr = w.phy.phySpeed

instance (w : Watch) (e : PhyEvent) : Decidable (Clean w e) :=
  match e with
  | .probe none => inferInstanceAs (Decidable (_ ∨ _))
  | .probe (some _) => inferInstanceAs (Decidable True)
  | .rescan _ => inferInstanceAs (Decidable True)
  | .poll (some v) _ sr =>
      inferInstanceAs (Decidable
        (ite (linked v) (sr = none → w.phy.fast = true ∧ w.phy.full = false)
          (v.toUInt32 &&& autonegoMask = 0)))
  | .poll none stack sr => inferInstanceAs (Decidable (phySpeedNew stack sr = w.phy.phySpeed))

theorem summary_ne_zero (fast full : Bool) : summary fast full ≠ 0 := by
  revert fast full
  decide

theorem summary_inj {a b c d : Bool} (h : summary a b = summary c d) : a = c ∧ b = d := by
  revert a b c d
  decide

theorem summary_bits (fast full : Bool) : summary fast full &&& 1 ≠ 0 ∧
    decide (summary fast full &&& 2 ≠ 0) = fast ∧ decide (summary fast full &&& 4 ≠ 0) = full := by
  revert fast full
  decide

/-- A status is taken for a link if one of the two bits is set. -/
theorem status_eq_zero_iff (x : UInt32) :
    x &&& (autonegoMask ||| linkedMask) = 0 ↔ x &&& autonegoMask = 0 ∧ x &&& linkedMask = 0 := by
  have hdist : x &&& (autonegoMask ||| linkedMask) =
      (x &&& autonegoMask) ||| (x &&& linkedMask) := by
    apply UInt32.toBitVec_inj.mp
    simp only [UInt32.toBitVec_and, UInt32.toBitVec_or]
    exact BitVec.and_or_distrib_left
  rw [hdist, UInt32.or_eq_zero_iff]

theorem phySpeedNew_up {x : UInt32} (h : x &&& (autonegoMask ||| linkedMask) ≠ 0) (sr : PhyRead) :
    phySpeedNew x sr = summary (speed100M (sr.value 0)) (fullDuplex (sr.value 0)) :=
  if_pos h

theorem phySpeedNew_down {x : UInt32} (h : x &&& (autonegoMask ||| linkedMask) = 0)
    (sr : PhyRead) : phySpeedNew x sr = 0 :=
  if_neg (not_not.mpr h)

theorem linked_iff (v : UInt16) : linked v = true ↔ v.toUInt32 &&& linkedMask ≠ 0 := by
  rw [linked, bne_iff_ne]

/-- A status that was read with its link bit set is taken for a link. -/
theorem status_of_linked {v : UInt16} (h : linked v = true) :
    v.toUInt32 &&& (autonegoMask ||| linkedMask) ≠ 0 := by
  rw [Ne, status_eq_zero_iff]
  intro hz
  exact (linked_iff v).mp h hz.2

/-- Without the link bit the other one decides. -/
theorem status_of_not_linked {v : UInt16} (h : linked v = false) :
    v.toUInt32 &&& (autonegoMask ||| linkedMask) = 0 ↔ v.toUInt32 &&& autonegoMask = 0 := by
  have hz : v.toUInt32 &&& linkedMask = 0 := by
    by_contra hn
    rw [(linked_iff v).mpr hn] at h
    cases h
  rw [status_eq_zero_iff, hz, and_iff_left rfl]

/-- A poll whose status is taken for a link. -/
theorem phyLinkchange_up (p : Phy) {v : UInt16}
    (h : v.toUInt32 &&& (autonegoMask ||| linkedMask) ≠ 0) (stack : UInt32) (sr : PhyRead) :
    phyLinkchange p (some v) stack sr =
      p.update (summary (speed100M (sr.value 0)) (fullDuplex (sr.value 0))) := by
  rw [phyLinkchange, PhyRead.value, phySpeedNew_up h]

/-- A poll whose status is not. -/
theorem phyLinkchange_down (p : Phy) {v : UInt16}
    (h : v.toUInt32 &&& (autonegoMask ||| linkedMask) = 0) (stack : UInt32) (sr : PhyRead) :
    phyLinkchange p (some v) stack sr = p.update 0 := by
  rw [phyLinkchange, PhyRead.value, phySpeedNew_down h]

/-- The summary stands for what was read last, and the device is set to it. -/
structure WatchInv (w : Watch) : Prop where
  link : w.phy.link = w.link
  down : w.phy.phySpeed = 0 ↔ w.link = false
  up : w.phy.phySpeed ≠ 0 → w.phy.phySpeed = summary w.phy.fast w.phy.full
  rate : ∀ r, w.rate = some r → r = (w.phy.fast, w.phy.full)

theorem watchInv_boot (p : Phy) (hspeed : p.phySpeed = 0) (hchanges : p.changes = []) :
    WatchInv { phy := p } :=
  ⟨by rw [Phy.link, hchanges]; rfl, by simp [hspeed], fun h => absurd hspeed h, nofun⟩

theorem link_append (p : Phy) (b : Bool) (q : Phy) (h : q.changes = p.changes ++ [b]) :
    q.link = b := by
  rw [Phy.link, h, List.getLastD_eq_getLast?, List.getLast?_concat, Option.getD_some]

/-- An event is emitted exactly if the summary is another one. -/
theorem update_changes_iff (p : Phy) (new : UInt8) :
    (p.update new).changes ≠ p.changes ↔ p.phySpeed ≠ new := by
  unfold Phy.update
  by_cases h : p.phySpeed = new
  · simp [h]
  · simp only [h, if_false]
    split <;> simp [h]

variable {w : Watch}

/-- The link is up exactly if there is a summary of it. -/
theorem WatchInv.link_iff (h : WatchInv w) : w.link = true ↔ w.phy.phySpeed ≠ 0 := by
  rw [Ne, h.down, Bool.not_eq_false]

/-- Behind a poll that takes the link to be up. -/
theorem WatchInv.update_up (h : WatchInv w) (a b : Bool) :
    (w.phy.update (summary a b)).phySpeed = summary a b ∧
    (w.phy.update (summary a b)).fast = a ∧ (w.phy.update (summary a b)).full = b ∧
    (w.phy.update (summary a b)).link = true := by
  by_cases hsame : w.phy.phySpeed = summary a b
  · -- The summary is the same, so the device has been set to it before.
    have hne : w.phy.phySpeed ≠ 0 := by
      rw [hsame]
      exact summary_ne_zero a b
    have hrate := summary_inj ((h.up hne).symm.trans hsame)
    rw [Phy.update, if_pos hsame]
    exact ⟨hsame, hrate.1, hrate.2, by rw [h.link, h.link_iff.mpr hne]⟩
  · rcases summary_bits a b with ⟨h1, h2, h4⟩
    rw [Phy.update, if_neg hsame, if_pos h1]
    exact ⟨rfl, h2, h4, link_append w.phy true _ rfl⟩

/-- Behind a poll that takes it to be down. -/
theorem WatchInv.update_down (h : WatchInv w) :
    (w.phy.update 0).phySpeed = 0 ∧ (w.phy.update 0).fast = w.phy.fast ∧
    (w.phy.update 0).full = w.phy.full ∧ (w.phy.update 0).link = false := by
  by_cases hsame : w.phy.phySpeed = 0
  · rw [Phy.update, if_pos hsame]
    exact ⟨hsame, rfl, rfl, by rw [h.link, h.down.mp hsame]⟩
  · rw [Phy.update, if_neg hsame, if_neg (by decide)]
    exact ⟨rfl, rfl, rfl, link_append w.phy false _ rfl⟩

/-- A poll whose status could not be read. -/
theorem WatchInv.faithful_unread (h : WatchInv w) (stack : UInt32) (sr : PhyRead) :
    Clean w (.poll none stack sr) ↔ FaithfulPoll w none stack sr := by
  constructor
  · intro hc
    have hsame : phyLinkchange w.phy none stack sr = w.phy := if_pos hc.symm
    exact ⟨by rw [hsame]; exact h.link, fun hn => absurd (by rw [hsame]) hn,
      fun _ => by rw [hsame]; exact ⟨rfl, rfl⟩⟩
  · -- Another summary is an event, and nothing that was read speaks for it.
    intro hf
    by_contra hn
    have hchange := (update_changes_iff w.phy (phySpeedNew stack sr)).mpr (Ne.symm hn)
    rcases hf.changed hchange with ⟨v, hv, -⟩ | ⟨hv, -⟩
    · cases hv
    · exact hv rfl

/-- A poll whose status has the link bit. -/
theorem WatchInv.faithful_linked (h : WatchInv w) {v : UInt16} (hv : linked v = true)
    (stack : UInt32) (sr : PhyRead) :
    Clean w (.poll (some v) stack sr) ↔ FaithfulPoll w (some v) stack sr := by
  have heq := phyLinkchange_up w.phy (status_of_linked hv) stack sr
  rcases h.update_up (speed100M (sr.value 0)) (fullDuplex (sr.value 0)) with
    ⟨-, hfast, hfull, hlink⟩
  have hclean : Clean w (.poll (some v) stack sr) ↔
      (sr = none → w.phy.fast = true ∧ w.phy.full = false) := by
    simp only [Clean, hv, if_true]
  -- An event without a change of the link is one of the rate.
  have hchanged : w.phy.phySpeed ≠ summary (speed100M (sr.value 0)) (fullDuplex (sr.value 0)) →
      linked v ≠ w.link ∨
        (w.phy.fast, w.phy.full) ≠ (speed100M (sr.value 0), fullDuplex (sr.value 0)) := by
    intro hne
    by_cases hz : w.phy.phySpeed = 0
    · left
      rw [hv, h.down.mp hz]
      exact Bool.true_eq_false.mp
    · right
      intro hrate
      rw [Prod.mk.injEq] at hrate
      rw [h.up hz, hrate.1, hrate.2] at hne
      exact hne rfl
  rw [hclean]
  constructor
  · intro hc
    refine ⟨?_, ?_, ?_⟩
    · rw [heq, hlink]
      exact hv.symm
    · rw [heq, update_changes_iff]
      intro hne
      rcases hchanged hne with hl | hr
      · exact .inl ⟨v, rfl, hl⟩
      · -- A register that could not be read is zero, which stands for the rate there is.
        cases sr with
        | none => exact absurd (Prod.ext (hc rfl).1 (hc rfl).2) hr
        | some x =>
            refine .inr ⟨nofun, x, rfl, fun hx => hr ?_⟩
            exact (h.rate _ hx).symm
    · rintro (hn | hn)
      · cases hn
      · subst hn
        rw [heq, hfast, hfull]
        exact ⟨(hc rfl).1.symm, (hc rfl).2.symm⟩
  · -- The device has to keep its rate, and is set to that of a zero.
    intro hf hn
    have hrate := hf.rate (.inr hn)
    subst hn
    rw [heq, hfast, hfull] at hrate
    exact ⟨hrate.1.symm, hrate.2.symm⟩

/-- A poll whose status does not have it. -/
theorem WatchInv.faithful_unlinked (h : WatchInv w) {v : UInt16} (hv : linked v = false)
    (stack : UInt32) (sr : PhyRead) :
    Clean w (.poll (some v) stack sr) ↔ FaithfulPoll w (some v) stack sr := by
  have hclean : Clean w (.poll (some v) stack sr) ↔ v.toUInt32 &&& autonegoMask = 0 := by
    simp only [Clean, hv, Bool.false_eq_true, if_false]
  rw [hclean, ← status_of_not_linked hv]
  constructor
  · intro hz
    have heq := phyLinkchange_down w.phy hz stack sr
    rcases h.update_down with ⟨-, hfast, hfull, hlink⟩
    refine ⟨by rw [heq, hlink]; exact hv.symm, ?_, fun _ => by rw [heq]; exact ⟨hfast, hfull⟩⟩
    rw [heq, update_changes_iff]
    intro hne
    refine .inl ⟨v, rfl, ?_⟩
    rw [hv, h.link_iff.mpr hne]
    exact Bool.false_ne_true
  · intro hf
    by_contra hn
    -- The negotiation bit alone makes the link go up.
    have heq := phyLinkchange_up w.phy hn stack sr
    have hlink : (phyLinkchange w.phy (some v) stack sr).link = linked v := hf.link
    rw [heq, (h.update_up _ _).2.2.2, hv] at hlink
    cases hlink

/-- An address is accepted unless the variable holds one of two values. -/
theorem faithful_probe (hnone : w.phy.phyAddr = none) (id1 : PhyRead) :
    Clean w (.probe id1) ↔ Faithful w (.probe id1) := by
  cases id1 with
  | some v => exact iff_of_true trivial nofun
  | none =>
      simp only [Clean, Faithful, phyProbe, PhyRead.value, forall_const, hnone]
      -- `temp` is what the last read has left in it.
      by_cases hacc : w.phy.temp ≠ 0xffff ∧ w.phy.temp ≠ 0
      · rw [if_pos hacc]
        refine iff_of_false (fun hr => ?_) nofun
        rcases hr with hr | hr
        · exact hacc.1 hr
        · exact hacc.2 hr
      · rw [if_neg hacc]
        refine iff_of_true ?_ rfl
        by_contra hn
        exact hacc (not_or.mp hn)

/-- A step is faithful exactly if its reads are clean. -/
theorem faithful_iff {w' : Watch} {e : PhyEvent} (h : WatchInv w) (hs : phyStep w e = some w') :
    Clean w e ↔ Faithful w e := by
  cases e with
  | probe id1 =>
      simp only [phyStep, Option.ite_none_right_eq_some] at hs
      exact faithful_probe hs.1.1 id1
  | rescan stack => exact Iff.rfl
  | poll status stack sr =>
      cases status with
      | none => exact h.faithful_unread stack sr
      | some v =>
          cases hv : linked v with
          | true => exact h.faithful_linked hv stack sr
          | false => exact h.faithful_unlinked hv stack sr

/-- A search does not touch the link. -/
theorem WatchInv.probe (h : WatchInv w) (id1 : PhyRead) :
    WatchInv { w with phy := phyProbe w.phy id1 } := by
  unfold phyProbe
  split
  · exact ⟨h.link, h.down, h.up, h.rate⟩
  · exact ⟨h.link, h.down, h.up, h.rate⟩

/-- The summary goes on standing for what was read. -/
theorem WatchInv.poll (h : WatchInv w) {status : PhyRead} {stack : UInt32} {sr : PhyRead}
    (hc : Clean w (.poll status stack sr)) :
    WatchInv (w.note status stack sr (phyLinkchange w.phy status stack sr)) := by
  cases status with
  | none =>
      have hsame : phyLinkchange w.phy none stack sr = w.phy := if_pos hc.symm
      rw [hsame]
      -- The link is as it was; the second register may have been read all the same.
      refine ⟨h.link, h.down, h.up, fun r hr => ?_⟩
      cases sr with
      | none => exact h.rate r hr
      | some x =>
          simp only [Watch.note] at hr ⊢
          split at hr
          · -- The second register was read, and it agrees with the summary.
            rename_i hread
            rw [Option.some.injEq] at hr
            have hup := phySpeedNew_up (bne_iff_ne.mp hread) (some x)
            have hsum : summary (rateOf x).1 (rateOf x).2 = w.phy.phySpeed := hup.symm.trans hc
            have hne : w.phy.phySpeed ≠ 0 := by
              rw [← hsum]
              exact summary_ne_zero _ _
            have hrate := summary_inj (hsum.trans (h.up hne))
            rw [← hr]
            exact Prod.ext hrate.1 hrate.2
          · exact h.rate r hr
  | some v =>
      cases hv : linked v with
      | true =>
          rcases h.update_up (speed100M (sr.value 0)) (fullDuplex (sr.value 0)) with
            ⟨hspeed, hfast, hfull, hlink⟩
          rw [phyLinkchange_up w.phy (status_of_linked hv)]
          refine ⟨by simp only [Watch.note]; rw [hlink, hv], ?_, ?_, ?_⟩
          · simp only [Watch.note, hv, hspeed]
            exact iff_of_false (summary_ne_zero _ _) (by decide)
          · intro _
            simp only [Watch.note]
            rw [hspeed, hfast, hfull]
          · intro r hr
            simp only [Watch.note, hfast, hfull]
            cases sr with
            | none =>
                -- The variable is zero, which is what the device is set to.
                have hdev : w.phy.fast = true ∧ w.phy.full = false := by
                  simp only [Clean, hv, if_true] at hc
                  exact hc trivial
                have hrate := h.rate r hr
                rw [hdev.1, hdev.2] at hrate
                exact hrate
            | some x =>
                have hread : readsRate (some v) stack = true :=
                  bne_iff_ne.mpr (status_of_linked hv)
                simp only [Watch.note, hread, if_true, Option.some.injEq] at hr
                exact hr.symm
      | false =>
          have hz : v.toUInt32 &&& (autonegoMask ||| linkedMask) = 0 := by
            simp only [Clean, hv, Bool.false_eq_true, if_false] at hc
            exact (status_of_not_linked hv).mpr hc
          have hread : readsRate (some v) stack = false := by
            rw [readsRate, PhyRead.value, hz]
            rfl
          -- Neither bit is set, so the second register is not read.
          rcases h.update_down with ⟨hspeed, hfast, hfull, hlink⟩
          rw [phyLinkchange_down w.phy hz]
          refine ⟨by simp only [Watch.note]; rw [hlink, hv], ?_, ?_, ?_⟩
          · simp only [Watch.note, hv, hspeed]
          · intro hn
            exact absurd hspeed hn
          · intro r hr
            simp only [Watch.note, hfast, hfull]
            apply h.rate
            cases sr with
            | none => exact hr
            | some x =>
                simp only [Watch.note, hread, Bool.false_eq_true, if_false] at hr
                exact hr

/-- A step whose reads are clean keeps the summary true. -/
theorem step_watchInv {w' : Watch} {e : PhyEvent} (h : WatchInv w) (hc : Clean w e)
    (hs : phyStep w e = some w') : WatchInv w' := by
  cases e with
  | probe id1 =>
      simp only [phyStep, Option.ite_none_right_eq_some, Option.some.injEq] at hs
      rw [← hs.2]
      exact h.probe id1
  | rescan stack =>
      simp only [phyStep, Option.ite_none_right_eq_some, Option.some.injEq] at hs
      rw [← hs.2]
      exact ⟨h.link, h.down, h.up, h.rate⟩
  | poll status stack sr =>
      simp only [phyStep, Option.ite_none_right_eq_some, Option.some.injEq] at hs
      rw [← hs.2]
      exact h.poll hc

/-- Every step of a run of the monitor is faithful exactly if the reads of every step
    are clean. -/
theorem along_clean_iff (p : Phy) (hspeed : p.phySpeed = 0) (hchanges : p.changes = [])
    (events : List PhyEvent) {t : Watch} (hr : run phyStep { phy := p } events = some t) :
    Along phyStep Clean { phy := p } events ↔ Along phyStep Faithful { phy := p } events := by
  apply along_congr phyStep WatchInv
  · intro w e w' h hc hs
    exact step_watchInv h hc hs
  · intro w e w' h hs
    exact faithful_iff h hs
  · exact watchInv_boot p hspeed hchanges
  · exact hr

/-- A search that fails at the first address, and a link that comes up at 10 Mbit/s, goes
    on without a readable status and goes down. -/
theorem along_clean_iff_updown :
    let events : List PhyEvent := [.probe (some 0xffff), .probe none, .probe (some 0x2000),
      .poll (some 0x2c) 0 (some 0x02), .poll none 0x2c (some 0x02), .poll (some 0) 0 none]
    (run phyStep { phy := { temp := 7 } } events).map (fun w => (w.phy.phyAddr, w.phy.changes)) =
        some (some 2, [true, false]) ∧
      Along phyStep Faithful { phy := { temp := 7 } } events := by
  intro events
  have hmap : (run phyStep { phy := { temp := 7 } } events).map
      (fun w => (w.phy.phyAddr, w.phy.changes)) = some (some 2, [true, false]) := by
    decide
  rcases Option.map_eq_some_iff.mp hmap with ⟨t, ht, -⟩
  refine ⟨hmap, (along_clean_iff { temp := 7 } rfl rfl events ht).mp ?_⟩
  decide

/-- A link that is down and negotiated is reported as up. -/
theorem not_faithful_negotiated :
    ¬ ∀ (p : Phy) (events : List PhyEvent) (t : Watch), p.phySpeed = 0 → p.changes = [] →
      run phyStep { phy := p } events = some t → Along phyStep Faithful { phy := p } events := by
  intro hall
  let events : List PhyEvent := [.probe (some 0x2000), .poll (some 0x20) 0 (some 0)]
  have hmap : (run phyStep { phy := { temp := 0 } } events).map (fun w => (w.phy.link, w.link)) =
      some (true, false) := by
    decide
  rcases Option.map_eq_some_iff.mp hmap with ⟨t, ht, -⟩
  have hfaith := hall { temp := 0 } events t rfl rfl ht
  have hpoll := (hfaith.2 _ rfl).1
  have hlink := hpoll.link
  revert hlink
  decide

end Eth

end Firmware
