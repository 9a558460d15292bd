import Mathlib

/-!
# Programs That Can Fail

A function of the source that works on a state and returns an error code is a
computation over that state which can throw. Most such functions give up at the first
error, which is what the bind of the monad does; some look at the error and go on, and
many have a label at their end that is reached either way. `outcome` and `atExit` are
those two.

`Ends` says how a program ends from a given state: with a value and a state that meet
one condition, or with an error and a state that meet the other. It is a statement
about a single state, so that a condition may speak of what the state was, and the
rules below take a program apart from its first statement on.

## Main definitions

* `Program`: A computation over a state that can throw.
* `outcome`: What a program returns, an error included.
* `atExit`: A program with code that runs behind it either way.
* `Ends`: How a program ends.

## Theorems

* `ends_pure`, `ends_throw`, `ends_bind`, `ends_outcome`, `ends_atExit`: One rule for each
  way to build a program.
* `Ends.mono`: Weaker conditions.
* `bind_run`: What the bind does from a state.
-/

namespace Firmware

variable {ε σ α β : Type}

/-- A computation over a state that can throw an error. -/
abbrev Program (ε σ α : Type) := ExceptT ε (StateM σ) α

/-- What a program returns, an error included. -/
def outcome (x : Program ε σ α) : Program ε σ (Except ε α) :=
  fun s => (.ok (x s).1, (x s).2)

/-- A program with code behind its exit label, whose own result is ignored. -/
def atExit (x : Program ε σ α) (exit : Program ε σ Unit) : Program ε σ α := do
  let r ← outcome x
  -- The code at the exit may fail too, and nobody notices.
  let _ ← outcome exit
  match r with
  | .ok a => pure a
  | .error e => throw e

/-- The program ends with a value and a state that meet `Q`, or with an error and a state
    that meet `E`. -/
def Ends (x : Program ε σ α) (s : σ) (Q : α → σ → Prop) (E : ε → σ → Prop) : Prop :=
  match x s with
  | (.ok a, s') => Q a s'
  | (.error e, s') => E e s'

variable {x : Program ε σ α} {s : σ} {Q Q' : α → σ → Prop} {E E' : ε → σ → Prop}

theorem Ends.mono (h : Ends x s Q E) (hQ : ∀ a s', Q a s' → Q' a s')
    (hE : ∀ e s', E e s' → E' e s') : Ends x s Q' E' := by
  unfold Ends at h ⊢
  rcases hx : x s with ⟨e | a, s'⟩
  · rw [hx] at h
    exact hE e s' h
  · rw [hx] at h
    exact hQ a s' h

@[simp] theorem ends_pure {a : α} : Ends (pure a : Program ε σ α) s Q E ↔ Q a s := Iff.rfl

@[simp] theorem ends_throw {e : ε} : Ends (throw e : Program ε σ α) s Q E ↔ E e s := Iff.rfl

/-- A bind hands the value on, and an error past the rest. -/
theorem bind_run (x : Program ε σ α) (f : α → Program ε σ β) (s : σ) :
    (x >>= f) s = match x s with
      | (.ok a, s') => f a s'
      | (.error e, s') => (.error e, s') := by
  -- The transformer keeps the state behind an error, so both cases are computed.
  change (ExceptT.bindCont f (x s).1) (x s).2 = _
  rcases x s with ⟨e | a, s'⟩
  · rfl
  · rfl

theorem ends_bind {f : α → Program ε σ β} {Q : β → σ → Prop} :
    Ends (x >>= f) s Q E ↔ Ends x s (fun a s' => Ends (f a) s' Q E) E := by
  unfold Ends
  rw [bind_run]
  rcases x s with ⟨e | a, s'⟩
  · exact Iff.rfl
  · exact Iff.rfl

theorem ends_outcome {Q : Except ε α → σ → Prop} :
    Ends (outcome x) s Q E ↔ Ends x s (fun a => Q (.ok a)) (fun e => Q (.error e)) := by
  unfold Ends outcome
  rcases x s with ⟨e | a, s'⟩
  · exact Iff.rfl
  · exact Iff.rfl

/-- The code at the exit runs behind the value and behind the error. -/
theorem ends_atExit {exit : Program ε σ Unit} : Ends (atExit x exit) s Q E ↔
    Ends x s (fun a s' => Ends exit s' (fun _ => Q a) (fun _ => Q a))
      (fun e s' => Ends exit s' (fun _ => E e) (fun _ => E e)) := by
  unfold atExit
  -- The exit is reached from both ends of the program, and neither of its own ends counts.
  rw [ends_bind, ends_outcome]
  simp only [ends_bind, ends_outcome, ends_pure, ends_throw]

end Firmware
