import Firmware.Flash.Sfud

/-!
# What Decides a Request

A function of the driver sees the link through the transfers it makes. The fates of these
decide what it returns and what it does to the chip, and the fates behind them do not
matter: `Decided`. A transfer is decided by its own fate, and the property goes through
the bind, the exits and the loops, so all functions of the driver have it.

It turns a statement about clean links into one about the transfers that were made. A
function that cannot fail on a clean link fails only if one of its own transfers failed
or left the chip busy for too long. Otherwise the fates behind them could be exchanged for
good ones, on what is then a clean link: `Decided.fault`.

## Main definitions

* `Link.withFates`: The link with other fates to come.
* `Decided`: The transfers that are made decide what is done.
* `Link.Fault`: A transfer between two states of the link that was not clean.

## Theorems

* `decided_bind`, `decided_outcome`, `decided_atExit`: The ways to build a function.
* `decided_sfudErase`, `decided_sfudEraseWrite`, `decided_sfudRead`: The functions of the
  driver that the block device calls.
* `Decided.fault`: A failure is that of a transfer that was made.
-/

namespace Firmware

namespace Flash

/-- The link with other fates to come. -/
def Link.withFates (l : Link) (fates : Nat → Fate) : Link := { l with fates := fates }

/-- From every link, the fates of the transfers that are made decide what is done. -/
def Decided {β : Type} (x : Link → β × Link) : Prop :=
  ∀ l : Link, ∃ n, (x l).2.sent = l.sent + n ∧
    ∀ fates : Nat → Fate, (∀ i, i < n → fates i = l.fates i) →
      x (l.withFates fates) = ((x l).1, (x l).2.withFates fun i => fates (n + i))

/-- One of the transfers from `l` to `l'` was refused, or its operation took longer than
    `limit` looks at the status. -/
def Link.Fault (limit : Nat) (l l' : Link) : Prop :=
  ∃ i, l.sent + i < l'.sent ∧ ∀ d, d ≤ limit → l.fates i ≠ .done d

section Rules

variable {α β : Type} {x : Sfud α} {f : α → Sfud β}

/-- A function that makes no transfer. -/
theorem decided_const (r : β) : Decided fun l => (r, l) := by
  intro l
  refine ⟨0, rfl, fun fates _ => ?_⟩
  simp only [Nat.zero_add]

theorem decided_pure (a : α) : Decided (pure a : Sfud α) :=
  decided_const (Except.ok a : Except SfudErr α)

theorem decided_throw (e : SfudErr) : Decided (throw e : Sfud α) :=
  decided_const (Except.error e : Except SfudErr α)

theorem decided_wr (p : Part) (bytes : List UInt8) (k : Nat) : Decided (wr p bytes k) := by
  intro l
  refine ⟨1, ?_, fun fates h => ?_⟩
  · unfold wr
    cases l.fates 0 <;> rfl
  · -- One transfer is made, with the first of the fates.
    have h0 : fates 0 = l.fates 0 := h 0 Nat.one_pos
    have hshift : (fun i => fates (1 + i)) = fun i => fates (i + 1) := by
      funext i
      rw [Nat.add_comm]
    rw [hshift]
    simp only [wr, Link.withFates, h0]
    cases l.fates 0 <;> rfl

/-- The transfers of a bind are those of the first part and those of the second. -/
theorem decided_bind (hx : Decided x) (hf : ∀ a, Decided (f a)) : Decided (x >>= f) := by
  intro l
  rcases hx l with ⟨n, hsent, hn⟩
  -- With the fates there are, the first part says which of them are left.
  have hsame := hn l.fates fun i _ => rfl
  rw [bind_run x f l]
  rcases hxl : x l with ⟨e | a, l1⟩
  · rw [hxl] at hsent hn
    refine ⟨n, hsent, fun fates h => ?_⟩
    rw [bind_run, hn fates h]
  · rw [hxl] at hsent hn
    have hleft : l1.fates = fun i => l.fates (n + i) := by
      rw [show l.withFates l.fates = l from rfl, hxl] at hsame
      exact congrArg (fun r => r.2.fates) hsame
    rcases hf a l1 with ⟨k, hsent', hk⟩
    refine ⟨n + k, by rw [hsent', hsent, Nat.add_assoc], fun fates h => ?_⟩
    have hfirst := hn fates fun i hi => h i (by omega)
    have hrest := hk (fun i => fates (n + i)) fun i hi => by
      rw [hleft]
      exact h (n + i) (by omega)
    rw [bind_run, hfirst]
    simp only [Nat.add_assoc]
    exact hrest

theorem decided_outcome (hx : Decided x) : Decided (outcome x) := by
  intro l
  rcases hx l with ⟨n, hsent, hn⟩
  refine ⟨n, hsent, fun fates h => ?_⟩
  simp only [outcome, hn fates h]

theorem decided_atExit {exit : Sfud Unit} (hx : Decided x) (hexit : Decided exit) :
    Decided (atExit x exit) := by
  refine decided_bind (decided_outcome hx) fun r => ?_
  refine decided_bind (decided_outcome hexit) fun _ => ?_
  cases r with
  | ok a => exact decided_pure a
  | error e => exact decided_throw e

/-- What is made of the result afterwards does not matter. -/
theorem decided_map {x : Link → α × Link} {y : Link → β × Link} (hx : Decided x) (g : α → β)
    (hy : ∀ l, y l = (g (x l).1, (x l).2)) : Decided y := by
  intro l
  rcases hx l with ⟨n, hsent, hn⟩
  refine ⟨n, by rw [hy, hsent], fun fates h => ?_⟩
  rw [hy, hy, hn fates h]

end Rules

section Driver

variable {f : SfudFlash} {p : Part} {behind : Nat → UInt8}

theorem decided_sfudReadStatus (p : Part) : Decided (sfudReadStatus p) :=
  decided_bind (decided_wr _ _ _) fun _ => decided_pure _

theorem decided_setWriteEnabled (p : Part) (enabled : Bool) :
    Decided (setWriteEnabled p enabled) := by
  refine decided_bind (decided_wr _ _ _) fun _ => ?_
  refine decided_bind (decided_sfudReadStatus p) fun status => ?_
  split
  · exact decided_throw _
  · split
    · exact decided_throw _
    · exact decided_pure _

theorem decided_waitBusy (p : Part) (n : Nat) : Decided (waitBusy p n) := by
  induction n with
  | zero =>
      refine decided_bind (decided_outcome (decided_sfudReadStatus p)) fun r => ?_
      cases r with
      | ok status =>
          dsimp only
          split
          · exact decided_pure _
          · exact decided_throw _
      | error e => exact decided_throw _
  | succ n ih =>
      refine decided_bind (decided_outcome (decided_sfudReadStatus p)) fun r => ?_
      cases r with
      | ok status =>
          dsimp only
          split
          · exact decided_pure _
          · exact ih
      | error e => exact ih

theorem decided_operation (p : Part) (n : Nat) (bytes : List UInt8) :
    Decided (operation p n bytes) := by
  refine decided_bind (decided_setWriteEnabled p true) fun _ => ?_
  exact decided_bind (decided_wr _ _ _) fun _ => decided_waitBusy p n

theorem decided_eraseLoop (fuel addr size : Nat) : Decided (f.eraseLoop p fuel addr size) := by
  induction fuel generalizing addr size with
  | zero => exact decided_pure _
  | succ fuel ih =>
      unfold SfudFlash.eraseLoop
      split
      · exact decided_pure _
      · refine decided_bind (decided_operation _ _ _) fun _ => ?_
        dsimp only
        -- How far a turn gets is computed from the arguments, not read from the chip.
        generalize (if addr % (f.currentEraser addr size).size ≠ 0 then _ else _ : Nat) = turn
        split
        · exact ih _ _
        · exact decided_pure _

theorem decided_sfudErase (addr size : Nat) : Decided (f.sfudErase p addr size) := by
  unfold SfudFlash.sfudErase
  split
  · exact decided_throw _
  · split
    · exact decided_atExit (decided_operation _ _ _) (decided_setWriteEnabled p false)
    · exact decided_atExit (decided_eraseLoop _ _ _) (decided_setWriteEnabled p false)

theorem decided_page256Loop (gran fuel addr : Nat) (data : List UInt8) :
    Decided (f.page256Loop p gran fuel addr data) := by
  induction fuel generalizing addr data with
  | zero => exact decided_pure _
  | succ fuel ih =>
      unfold SfudFlash.page256Loop
      split
      · exact decided_pure _
      · exact decided_bind (decided_operation _ _ _) fun _ => ih _ _

theorem decided_page256Or1ByteWrite (addr : Nat) (data : List UInt8) (gran : Nat) :
    Decided (f.page256Or1ByteWrite p addr data gran) := by
  unfold SfudFlash.page256Or1ByteWrite
  split
  · exact decided_throw _
  · exact decided_atExit (decided_page256Loop _ _ _ _) (decided_setWriteEnabled p false)

theorem decided_aaiLoop (first : Bool) (addr : Nat) (data : List UInt8) :
    Decided (f.aaiLoop p first addr data) := by
  induction first, addr, data using SfudFlash.aaiLoop.induct with
  | case1 first addr x y data ih =>
      refine decided_bind (decided_wr _ _ _) fun _ => ?_
      exact decided_bind (decided_waitBusy _ _) fun _ => ih
  -- Less than two bytes are left, and the loop makes no transfer for them.
  | case2 first addr data hshort =>
      match data, hshort with
      | [], _ => exact decided_pure _
      | [_], _ => exact decided_pure _
      | x :: y :: rest, h => exact absurd rfl (h x y rest)

theorem decided_aaiEven (addr : Nat) (data : List UInt8) : Decided (f.aaiEven p addr data) := by
  refine decided_bind (decided_setWriteEnabled p true) fun _ => ?_
  refine decided_bind (decided_aaiLoop _ _ _) fun r => ?_
  rcases r with ⟨addr', rest⟩
  refine decided_bind (decided_setWriteEnabled p false) fun _ => ?_
  split
  · exact decided_page256Or1ByteWrite _ _ _
  · exact decided_pure _

theorem decided_aaiWrite (addr : Nat) (data : List UInt8) :
    Decided (f.aaiWrite p behind addr data) := by
  unfold SfudFlash.aaiWrite
  split
  · exact decided_throw _
  · refine decided_bind (decided_outcome ?_) fun r => ?_
    · split
      · exact decided_bind (decided_page256Or1ByteWrite _ _ _) fun _ => decided_aaiEven _ _
      · exact decided_aaiEven _ _
    · cases r with
      | ok _ => exact decided_pure _
      | error e =>
          -- An error disables writing on the way out.
          exact decided_bind (decided_outcome (decided_setWriteEnabled p false)) fun _ =>
            decided_throw e

theorem decided_sfudWrite (addr : Nat) (data : List UInt8) :
    Decided (f.sfudWrite p behind addr data) := by
  unfold SfudFlash.sfudWrite
  split
  · exact decided_page256Or1ByteWrite _ _ _
  · split
    · exact decided_aaiWrite _ _
    · exact decided_pure _

theorem decided_sfudEraseWrite (addr : Nat) (data : List UInt8) :
    Decided (f.sfudEraseWrite p behind addr data) :=
  decided_bind (decided_sfudErase _ _) fun _ => decided_sfudWrite _ _

theorem decided_sfudRead (addr size : Nat) : Decided (f.sfudRead p addr size) := by
  unfold SfudFlash.sfudRead
  split
  · exact decided_throw _
  · exact decided_bind (decided_waitBusy _ _) fun _ => decided_wr _ _ _

end Driver

/-- What does not end well from `l` on and would on every clean link has made a transfer
    that was not clean. -/
theorem Decided.fault {β : Type} {x : Link → β × Link} (hx : Decided x) (bad : β → Prop)
    {l : Link} {limit : Nat} (hgood : ∀ fates, (l.withFates fates).Clean limit →
      ¬ bad (x (l.withFates fates)).1) (hbad : bad (x l).1) : l.Fault limit (x l).2 := by
  rcases hx l with ⟨n, hsent, hn⟩
  by_contra hnone
  -- If none of its transfers is a fault, all of them are clean.
  have hclean : ∀ i, i < n → ∃ d, d ≤ limit ∧ l.fates i = .done d := by
    intro i hi
    by_contra hno
    refine hnone ⟨i, by omega, fun d hd hi' => hno ⟨d, hd, hi'⟩⟩
  -- The same transfers, and good ones behind them.
  have hdone := hn (fun i => if i < n then l.fates i else .done 0) fun i hi => if_pos hi
  refine hgood (fun i => if i < n then l.fates i else .done 0) (fun i => ?_) ?_
  · simp only [Link.withFates]
    by_cases hi : i < n
    · rw [if_pos hi]
      exact hclean i hi
    · rw [if_neg hi]
      exact ⟨0, Nat.zero_le _, rfl⟩
  · rw [hdone]
    exact hbad

end Flash

end Firmware
