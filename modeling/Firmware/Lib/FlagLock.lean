import Firmware.Lib.Runs

/-!
# Flags Used as Locks

Code around a lock that is nothing but a flag: whoever finds it clear sets it and
is inside, whoever finds it set goes away, and to unlock is to clear it. Nothing
keeps track of who set it, so nothing prevents someone from clearing it who is not
inside.

A piece of code is a tree of what it does to the flag and to one variable that is
shared as well; tests of anything else are left open, so a run may take either
branch. Any number of parties run such code, one instruction of one of them at a
time, and a handler can interrupt them between any two instructions and then runs
to its end.

Two things could go wrong and are kept apart here. Code may forget to unlock on the
way out or lock twice; `bracketed` excludes that and is decided by computation.
And code may unlock what it has not locked, which is no fault of its shape: it does
no harm as long as nobody is inside. `along_harmless_iff_always` says that for code
of the right shape this is all there is.

## Main definitions

* `Code`: What code does to a lock.
* `Code.bracketed`: Every path unlocks what it locks.
* `World`: The flag, the parties and the handler.
* `worldStep`: One instruction.
* `Exclusive`: One party is inside, and the flag says so.
* `Harmless`: Nobody unlocks from outside while someone is inside.

## Theorems

* `exec_cases`: What an instruction does to the flag.
* `step_orderly`: Code keeps its shape.
* `step_exclusive`: A harmless step keeps the others out.
* `step_not_exclusive`: Any other step lets them in.
* `along_harmless_iff_always`: The lock works exactly along the harmless runs.
-/

namespace Firmware

/-- Code around a lock, by what it does next. -/
inductive Code (V R : Type*) where
  /-- It returns. -/
  | ret (r : R)
  /-- It sets the flag, or returns `refused` if the flag is set. -/
  | lock (refused : R) (next : Code V R)
  /-- It clears the flag. -/
  | unlock (next : Code V R)
  /-- It sets the variable. -/
  | set (v : V) (next : Code V R)
  /-- It compares the variable. -/
  | test (v : V) (yes no : Code V R)
  /-- It looks at something else. -/
  | branch (yes no : Code V R)
  /-- It is busy with something else for any number of turns. -/
  | turns (next : Code V R)
  deriving DecidableEq, Repr

/-- The flag and the variable. -/
structure Shared (V : Type*) where
  lock : Bool
  value : V
  deriving DecidableEq, Repr

/-- One that runs code: what is still to be run, whether it is between its lock and its
    unlock, and behind a call what the call returned. -/
structure Party (V R : Type*) where
  code : Option (Code V R) := none
  holds : Bool := false
  last : Option R := none
  deriving DecidableEq, Repr

namespace Code

variable {V R : Type*}

/-- Every path locks only from outside, and returns only from outside. -/
def bracketed : Code V R → Bool → Bool
  | ret _, holds => !holds
  | lock _ next, holds => !holds && next.bracketed true
  | unlock next, _ => next.bracketed false
  | set _ next, holds => next.bracketed holds
  | test _ yes no, holds => yes.bracketed holds && no.bracketed holds
  | branch yes no, holds => yes.bracketed holds && no.bracketed holds
  | turns next, holds => next.bracketed holds

/-- No path locks. -/
def lockless : Code V R → Bool
  | ret _ => true
  | lock _ _ => false
  | unlock next => next.lockless
  | set _ next => next.lockless
  | test _ yes no => yes.lockless && no.lockless
  | branch yes no => yes.lockless && no.lockless
  | turns next => next.lockless

/-- The next instruction is an unlock. -/
def unlocks : Code V R → Bool
  | unlock _ => true
  | _ => false

variable [DecidableEq V]

/-- One instruction of a party that holds the lock or does not. `pick` is what a test of
    something else says, or that a piece of work is done. -/
def exec (c : Code V R) (s : Shared V) (holds pick : Bool) : Shared V × Party V R :=
  match c with
  -- A call that is over is not inside, so it has to have unlocked before.
  | ret r => (s, { last := some r })
  | lock refused next =>
      if s.lock then (s, { last := some refused })
      else ({ s with lock := true }, { code := some next, holds := true })
  -- Whoever unlocks is outside behind it, and clears the flag whoever set it.
  | unlock next => ({ s with lock := false }, { code := some next })
  | set v next => ({ s with value := v }, { code := some next, holds := holds })
  | test v yes no =>
      (s, { code := some (if s.value = v then yes else no), holds := holds })
  | branch yes no => (s, { code := some (if pick then yes else no), holds := holds })
  | turns next => (s, { code := some (if pick then next else turns next), holds := holds })

theorem exec_refused {s : Shared V} (h : s.lock = true) (refused : R) (next : Code V R)
    (holds pick : Bool) :
    (lock refused next).exec s holds pick = (s, { last := some refused }) :=
  if_pos h

theorem exec_locked {s : Shared V} (h : s.lock = false) (refused : R) (next : Code V R)
    (holds pick : Bool) :
    (lock refused next).exec s holds pick =
      ({ s with lock := true }, { code := some next, holds := true }) :=
  if_neg (by rw [h]; exact Bool.false_ne_true)

end Code

/-- The flag, the parties, and what an interrupt has still to run. -/
structure World (ι V R : Type*) where
  shared : Shared V
  party : ι → Party V R
  handler : Option (Code V Unit) := none

/-- What happens next. -/
inductive Move (ι F : Type*) where
  /-- A party calls a function. -/
  | call (i : ι) (f : F)
  /-- A party runs an instruction. -/
  | go (i : ι) (pick : Bool)
  /-- The interrupt comes. -/
  | irq
  /-- Its handler runs an instruction. -/
  | irqGo (pick : Bool)
  deriving DecidableEq, Repr

section Interleaving

variable {ι V R F : Type*} [DecidableEq ι] [DecidableEq V]
  (prog : F → Code V R) (isr : Code V Unit)

/-- One step. While the handler runs nobody else does. -/
def worldStep (w : World ι V R) : Move ι F → Option (World ι V R)
  | .call i f =>
      if w.handler = none ∧ (w.party i).code = none then
        some { w with
          party := Function.update w.party i { code := some (prog f) } }
      else none
  | .go i pick => match w.handler, (w.party i).code with
    | none, some c =>
        let r := c.exec w.shared (w.party i).holds pick
        some { w with shared := r.1, party := Function.update w.party i r.2 }
    | _, _ => none
  | .irq => if w.handler = none then some { w with handler := some isr } else none
  | .irqGo pick => match w.handler with
    | some c =>
        let r := c.exec w.shared false pick
        some { w with shared := r.1, handler := r.2.code }
    | none => none

/-- At most one party is inside, and the flag is set exactly while one is. -/
structure Exclusive (w : World ι V R) : Prop where
  one : ∀ i j, (w.party i).holds = true → (w.party j).holds = true → i = j
  flag : w.shared.lock = true ↔ ∃ i, (w.party i).holds = true

/-- Nobody unlocks from outside while the flag is set. -/
def Harmless (w : World ι V R) : Move ι F → Prop
  | .call _ _ => True
  | .go i _ => (w.party i).code.any Code.unlocks = true → (w.party i).holds = false →
      w.shared.lock = false
  | .irq => True
  | .irqGo _ => w.handler.any Code.unlocks = true → w.shared.lock = false

instance (w : World ι V R) : (m : Move ι F) → Decidable (Harmless w m)
  | .call _ _ => inferInstanceAs (Decidable True)
  | .go _ _ => inferInstanceAs (Decidable (_ → _ → _))
  | .irq => inferInstanceAs (Decidable True)
  | .irqGo _ => inferInstanceAs (Decidable (_ → _))

/-- What a party has still to run fits what it has run. -/
structure Party.Orderly (p : Party V R) : Prop where
  idle : p.code = none → p.holds = false
  bracketed : ∀ c, p.code = some c → c.bracketed p.holds = true

/-- That is so for everyone, and the handler does not lock. -/
structure Orderly (w : World ι V R) : Prop where
  party : ∀ i, (w.party i).Orderly
  lockless : ∀ c, w.handler = some c → c.lockless = true

/-- An instruction takes the lock, or is an unlock, or leaves the flag alone. -/
theorem exec_cases {c : Code V R} {holds : Bool} (h : c.bracketed holds = true) (s : Shared V)
    (pick : Bool) :
    (s.lock = false ∧ c.unlocks = false ∧ (c.exec s holds pick).1.lock = true ∧
      (c.exec s holds pick).2.holds = true) ∨
    (c.unlocks = true ∧ (c.exec s holds pick).1.lock = false ∧
      (c.exec s holds pick).2.holds = false) ∨
    (c.unlocks = false ∧ (c.exec s holds pick).1.lock = s.lock ∧
      (c.exec s holds pick).2.holds = holds) := by
  cases c with
  | ret r =>
      -- A return comes from outside, so nothing is given up here.
      have hout : holds = false := by simpa [Code.bracketed] using h
      exact .inr (.inr ⟨rfl, rfl, hout.symm⟩)
  | lock refused next =>
      have hout : holds = false := by
        simp only [Code.bracketed, Bool.and_eq_true, Bool.not_eq_true'] at h
        exact h.1
      -- A refused party was outside and stays there.
      cases hl : s.lock with
      | true =>
          rw [Code.exec_refused hl]
          exact .inr (.inr ⟨rfl, hl, hout.symm⟩)
      | false =>
          rw [Code.exec_locked hl]
          exact .inl ⟨rfl, rfl, rfl, rfl⟩
  | unlock next => exact .inr (.inl ⟨rfl, rfl, rfl⟩)
  | _ => exact .inr (.inr ⟨rfl, rfl, rfl⟩)

/-- What is left of the code fits what the instruction has done. -/
theorem exec_orderly {c : Code V R} {holds : Bool} (h : c.bracketed holds = true) (s : Shared V)
    (pick : Bool) : (c.exec s holds pick).2.Orderly := by
  cases c with
  | ret r => exact ⟨fun _ => rfl, nofun⟩
  | lock refused next =>
      simp only [Code.bracketed, Bool.and_eq_true] at h
      cases hl : s.lock with
      | true =>
          rw [Code.exec_refused hl]
          exact ⟨fun _ => rfl, nofun⟩
      | false =>
          rw [Code.exec_locked hl]
          exact ⟨nofun, fun d hd => Option.some.inj hd ▸ h.2⟩
  | unlock next => exact ⟨nofun, fun d hd => Option.some.inj hd ▸ h⟩
  | set v next => exact ⟨nofun, fun d hd => Option.some.inj hd ▸ h⟩
  | test v yes no =>
      simp only [Code.bracketed, Bool.and_eq_true] at h
      refine ⟨nofun, fun d hd => ?_⟩
      rw [← Option.some.inj hd]
      split
      · exact h.1
      · exact h.2
  | branch yes no =>
      simp only [Code.bracketed, Bool.and_eq_true] at h
      refine ⟨nofun, fun d hd => ?_⟩
      rw [← Option.some.inj hd]
      split
      · exact h.1
      · exact h.2
  | turns next =>
      refine ⟨nofun, fun d hd => ?_⟩
      rw [← Option.some.inj hd]
      split
      · exact h
      · exact h

/-- Code that does not lock clears the flag or leaves it alone, and still does not lock. -/
theorem exec_lockless {c : Code V R} (h : c.lockless = true) (s : Shared V) (holds pick : Bool) :
    (c.exec s holds pick).1.lock = (!c.unlocks && s.lock) ∧
    ∀ d, (c.exec s holds pick).2.code = some d → d.lockless = true := by
  cases c with
  | ret r => exact ⟨rfl, nofun⟩
  | lock refused next => cases h
  | unlock next =>
      refine ⟨rfl, fun d hd => ?_⟩
      rw [← Option.some.inj hd]
      exact h
  | set v next =>
      refine ⟨rfl, fun d hd => ?_⟩
      rw [← Option.some.inj hd]
      exact h
  | test v yes no =>
      simp only [Code.lockless, Bool.and_eq_true] at h
      refine ⟨rfl, fun d hd => ?_⟩
      rw [← Option.some.inj hd]
      split
      · exact h.1
      · exact h.2
  | branch yes no =>
      simp only [Code.lockless, Bool.and_eq_true] at h
      refine ⟨rfl, fun d hd => ?_⟩
      rw [← Option.some.inj hd]
      split
      · exact h.1
      · exact h.2
  | turns next =>
      refine ⟨rfl, fun d hd => ?_⟩
      rw [← Option.some.inj hd]
      split
      · exact h
      · exact h

variable {prog isr} {w w' : World ι V R} {m : Move ι F}

/-- What the parties have to run keeps its shape. -/
theorem step_orderly (hprog : ∀ f, (prog f).bracketed false = true) (hisr : isr.lockless = true)
    (h : Orderly w) (hs : worldStep prog isr w m = some w') : Orderly w' := by
  -- A move touches the code of one party or of the handler, and the others keep theirs.
  cases m with
  | call i f =>
      simp only [worldStep, Option.ite_none_right_eq_some, Option.some.injEq] at hs
      rw [← hs.2]
      refine ⟨?_, h.lockless⟩
      rw [Function.forall_update_iff w.party fun _ p => p.Orderly]
      exact ⟨⟨nofun, fun c hc => Option.some.inj hc ▸ hprog f⟩, fun j _ => h.party j⟩
  | go i pick =>
      simp only [worldStep] at hs
      split at hs
      · rename_i c hhandler hcode
        rw [← Option.some.inj hs]
        refine ⟨?_, h.lockless⟩
        rw [Function.forall_update_iff w.party fun _ p => p.Orderly]
        exact ⟨exec_orderly ((h.party i).bracketed c hcode) w.shared pick, fun j _ => h.party j⟩
      · cases hs
  | irq =>
      simp only [worldStep, Option.ite_none_right_eq_some, Option.some.injEq] at hs
      rw [← hs.2]
      exact ⟨h.party, fun c hc => Option.some.inj hc ▸ hisr⟩
  | irqGo pick =>
      simp only [worldStep] at hs
      split at hs
      · rename_i c hhandler
        rw [← Option.some.inj hs]
        exact ⟨h.party, (exec_lockless (h.lockless c hhandler) w.shared false pick).2⟩
      · cases hs

omit [DecidableEq ι] [DecidableEq V] in
/-- Nobody is inside while the flag is clear. -/
theorem Exclusive.outside (hx : Exclusive w) (hl : w.shared.lock = false) (i : ι) :
    (w.party i).holds = false := by
  by_contra hi
  rw [hx.flag.mpr ⟨i, Bool.eq_true_of_not_eq_false hi⟩] at hl
  cases hl

omit [DecidableEq V] in
/-- A party goes in. -/
theorem Exclusive.enter (hx : Exclusive w) (hl : w.shared.lock = false) (i : ι) {p : Party V R}
    {s : Shared V} (hp : p.holds = true) (hs : s.lock = true) :
    Exclusive { w with shared := s, party := Function.update w.party i p } := by
  -- The flag was clear, so nobody else can be inside.
  have hother : ∀ j, (Function.update w.party i p j).holds = true → j = i := by
    intro j hj
    by_contra hji
    rw [Function.update_of_ne hji, hx.outside hl j] at hj
    cases hj
  refine ⟨fun j k hj hk => (hother j hj).trans (hother k hk).symm, ?_⟩
  exact iff_of_true hs ⟨i, (congrArg Party.holds (Function.update_self i p w.party)).trans hp⟩

omit [DecidableEq V] in
/-- A party goes out, or stays out while nobody is in. -/
theorem Exclusive.leave (hx : Exclusive w) {i : ι}
    (hi : (w.party i).holds = true ∨ w.shared.lock = false) {p : Party V R} {s : Shared V}
    (hp : p.holds = false) (hs : s.lock = false) :
    Exclusive { w with shared := s, party := Function.update w.party i p } := by
  -- If `i` was inside it was alone, and otherwise nobody was.
  have hnone : ∀ j, (Function.update w.party i p j).holds = false := by
    intro j
    by_cases hji : j = i
    · rw [hji, Function.update_self, hp]
    · rw [Function.update_of_ne hji]
      rcases hi with hi | hi
      · by_contra hj
        exact hji (hx.one j i (Bool.eq_true_of_not_eq_false hj) hi)
      · exact hx.outside hi j
  refine ⟨fun j k hj _ => ?_, iff_of_false ?_ ?_⟩
  · rw [hnone j] at hj
    cases hj
  · rw [hs]
    exact Bool.false_ne_true
  · rintro ⟨j, hj⟩
    rw [hnone j] at hj
    cases hj

omit [DecidableEq V] in
/-- Nobody moves. -/
theorem Exclusive.stay (hx : Exclusive w) (i : ι) {p : Party V R} {s : Shared V}
    (hp : p.holds = (w.party i).holds) (hs : s.lock = w.shared.lock) :
    Exclusive { w with shared := s, party := Function.update w.party i p } := by
  have hsame : ∀ j, (Function.update w.party i p j).holds = (w.party j).holds := by
    intro j
    by_cases hji : j = i
    · rw [hji, Function.update_self, hp]
    · rw [Function.update_of_ne hji]
  refine ⟨fun j k hj hk => ?_, ?_⟩
  · rw [hsame] at hj hk
    exact hx.one j k hj hk
  · simp only [hsame, hs]
    exact hx.flag

/-- A step that is harmless keeps the others out. -/
theorem step_exclusive (h : Orderly w) (hx : Exclusive w) (hm : Harmless w m)
    (hs : worldStep prog isr w m = some w') : Exclusive w' := by
  cases m with
  -- One that is called was idle, and so outside, and begins outside.
  | call i f =>
      simp only [worldStep, Option.ite_none_right_eq_some, Option.some.injEq] at hs
      rw [← hs.2]
      exact hx.stay i ((h.party i).idle hs.1.2).symm rfl
  | go i pick =>
      simp only [worldStep] at hs
      split at hs
      · rename_i c hhandler hcode
        rw [← Option.some.inj hs]
        rcases exec_cases ((h.party i).bracketed c hcode) w.shared pick with
          ⟨hl, -, hlock, hholds⟩ | ⟨hu, hlock, hholds⟩ | ⟨-, hlock, hholds⟩
        · -- The lock was free when it was taken.
          exact hx.enter hl i hholds hlock
        · -- Here the condition is needed: the one that unlocks may be outside.
          refine hx.leave ?_ hholds hlock
          cases hi : (w.party i).holds with
          | true => exact .inl rfl
          | false => exact .inr (hm (by rw [hcode]; exact hu) hi)
        · exact hx.stay i hholds hlock
      · cases hs
  | irq =>
      simp only [worldStep, Option.ite_none_right_eq_some, Option.some.injEq] at hs
      rw [← hs.2]
      exact ⟨hx.one, hx.flag⟩
  | irqGo pick =>
      simp only [worldStep] at hs
      split at hs
      · rename_i c hhandler
        rw [← Option.some.inj hs]
        refine ⟨hx.one, ?_⟩
        -- The handler clears at most a flag that is clear.
        have hlock : (c.exec w.shared false pick).1.lock = w.shared.lock := by
          rw [(exec_lockless (h.lockless c hhandler) w.shared false pick).1]
          cases hu : c.unlocks with
          | true => rw [hm (by rw [hhandler]; exact hu), Bool.and_false]
          | false => rw [Bool.not_false, Bool.true_and]
        simp only [hlock]
        exact hx.flag
      · cases hs

/-- A step that is not lets them in: someone is inside and the flag is clear. -/
theorem step_not_exclusive (h : Orderly w) (hx : Exclusive w) (hm : ¬ Harmless w m)
    (hs : worldStep prog isr w m = some w') : ¬ Exclusive w' := by
  intro hx'
  apply hm
  cases m with
  | call i f => trivial
  | irq => trivial
  | go i pick =>
      intro hany hi
      rcases (Option.any_eq_true _ _).mp hany with ⟨c, hcode, hu⟩
      -- Someone else is inside, and still is when the flag is gone.
      by_contra hl
      rcases hx.flag.mp (Bool.eq_true_of_not_eq_false hl) with ⟨j, hj⟩
      have hji : j ≠ i := by
        rintro rfl
        rw [hi] at hj
        cases hj
      simp only [worldStep, hcode] at hs
      split at hs
      · rename_i d hhandler hd
        rw [← Option.some.inj hs] at hx'
        rw [← Option.some.inj hd] at hx'
        have hj' : (Function.update w.party i
            (c.exec w.shared (w.party i).holds pick).2 j).holds = true := by
          rw [Function.update_of_ne hji]
          exact hj
        have hset := hx'.flag.mpr ⟨j, hj'⟩
        rcases exec_cases ((h.party i).bracketed c hcode) w.shared pick with
          ⟨-, hn, -⟩ | ⟨-, hlock, -⟩ | ⟨hn, -⟩
        · rw [hu] at hn
          cases hn
        · rw [hlock] at hset
          cases hset
        · rw [hu] at hn
          cases hn
      · cases hs
  | irqGo pick =>
      intro hany
      rcases (Option.any_eq_true _ _).mp hany with ⟨c, hhandler, hu⟩
      -- The handler unlocks, and whoever is inside has to have the flag set.
      by_contra hl
      simp only [worldStep, hhandler, Option.some.injEq] at hs
      rw [← hs] at hx'
      have hset := hx'.flag.mpr (hx.flag.mp (Bool.eq_true_of_not_eq_false hl))
      simp only [(exec_lockless (h.lockless c hhandler) w.shared false pick).1, hu, Bool.not_true,
        Bool.false_and, Bool.false_eq_true] at hset

/-- A world in which nobody is in a call. -/
structure AtRest (w : World ι V R) : Prop where
  party : ∀ i, (w.party i).code = none ∧ (w.party i).holds = false
  handler : w.handler = none
  lock : w.shared.lock = false

omit [DecidableEq ι] [DecidableEq V] in
theorem AtRest.orderly (h : AtRest w) : Orderly w := by
  refine ⟨fun i => ⟨fun _ => (h.party i).2, fun c hc => ?_⟩, fun c hc => ?_⟩
  · rw [(h.party i).1] at hc
    cases hc
  · rw [h.handler] at hc
    cases hc

omit [DecidableEq ι] [DecidableEq V] in
theorem AtRest.exclusive (h : AtRest w) : Exclusive w := by
  refine ⟨fun i j hi _ => ?_, iff_of_false ?_ ?_⟩
  · rw [(h.party i).2] at hi
    cases hi
  · rw [h.lock]
    exact Bool.false_ne_true
  · rintro ⟨i, hi⟩
    rw [(h.party i).2] at hi
    cases hi

/-- From a world at rest, the lock works in every state of a run exactly if every step of
    the run is harmless. -/
theorem along_harmless_iff_always (hprog : ∀ f, (prog f).bracketed false = true)
    (hisr : isr.lockless = true) (h : AtRest w) {moves : List (Move ι F)}
    (hr : run (worldStep prog isr) w moves = some w') :
    Along (worldStep prog isr) Harmless w moves ↔
      Always (worldStep prog isr) Exclusive w moves := by
  apply along_iff_always (worldStep prog isr) (E := fun _ _ => True) (I := Orderly)
  · intro u a u' ho _ hs
    exact step_orderly hprog hisr ho hs
  · intro u a u' ho hx _ hm hs
    exact step_exclusive ho hx hm hs
  · intro u a u' ho hx _ hm hs
    exact step_not_exclusive ho hx hm hs
  · exact h.orderly
  · exact h.exclusive
  · exact along_of_forall (worldStep prog isr) w fun _ _ => trivial
  · exact hr

end Interleaving

end Firmware
