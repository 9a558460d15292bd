import Mathlib

/-!
# Rings

Positions on a ring of slots.

A ring of `n` slots is used by parties that each move forward one slot at a time:
a producer fills slots, a consumer empties them, and both wrap around at the end.
Where a party stands is easiest to say with a position, a number that counts the
moves and never wraps, and `slot` is the slot at a position. Two positions less
than `n` apart have different slots, which is all a proof about a ring needs to
know about the wrap-around: as long as the parties stay within a window of `n`
positions, writing at one of them leaves the others alone.

The slots are linked by a `next` function rather than by arithmetic, the way a
list of descriptors is. `Chained` says that following the links is moving forward.

## Main definitions

* `slot`: The slot at a position.
* `Chained`: The links lead from each position to the next.
* `ringNext`: The links of a table whose last entry points to the first.

## Theorems

* `slot_inj`: Positions in one window have different slots.
* `exists_slot`: Every slot has a position in every window.
* `chained_ringNext`: The links of such a table are a ring.
* `update_slot_ne`: Writing at a position leaves the others of its window alone.
-/

namespace Firmware

variable {n : Nat} [NeZero n]

/-- The slot at a position. -/
def slot (n : Nat) [NeZero n] (k : Nat) : Fin n := Fin.ofNat n k

/-- Following the links is moving forward. -/
def Chained (next : Fin n → Fin n) : Prop := ∀ k, next (slot n k) = slot n (k + 1)

/-- The link of a table entry: the entry behind it, or the first one for the last. -/
def ringNext (i : Fin n) : Fin n :=
  if h : i.val + 1 < n then ⟨i.val + 1, h⟩ else ⟨0, Nat.pos_of_ne_zero (NeZero.ne n)⟩

theorem slot_val (k : Nat) : (slot n k).val = k % n := rfl

@[simp] theorem slot_of_val (i : Fin n) : slot n i.val = i :=
  Fin.ext (Nat.mod_eq_of_lt i.isLt)

/-- Positions that are less than a turn apart have different slots. -/
theorem slot_inj {k i j : Nat} (hi : k ≤ i) (hi' : i < k + n) (hj : k ≤ j) (hj' : j < k + n)
    (h : slot n i = slot n j) : i = j := by
  have hmod : i % n = j % n := congrArg Fin.val h
  -- Either difference is a multiple of `n`, and less than `n` leaves only zero.
  have hle : i - j = 0 := by
    rw [← Nat.mod_eq_of_lt (by omega : i - j < n)]
    exact Nat.sub_mod_eq_zero_of_mod_eq hmod
  have hge : j - i = 0 := by
    rw [← Nat.mod_eq_of_lt (by omega : j - i < n)]
    exact Nat.sub_mod_eq_zero_of_mod_eq hmod.symm
  omega

/-- Every slot has a position in the window that starts at `k`. -/
theorem exists_slot (k : Nat) (i : Fin n) : ∃ j, k ≤ j ∧ j < k + n ∧ slot n j = i := by
  have hn := Nat.pos_of_ne_zero (NeZero.ne n)
  have hi := i.isLt
  have hk := Nat.mod_lt k hn
  have hdiv := Nat.div_add_mod k n
  by_cases hle : k % n ≤ i.val
  · -- The slot comes in the turn that `k` is in.
    refine ⟨n * (k / n) + i.val, by omega, by omega, Fin.ext ?_⟩
    rw [slot_val, Nat.mul_add_mod, Nat.mod_eq_of_lt hi]
  · refine ⟨n * (k / n) + n + i.val, by omega, by omega, Fin.ext ?_⟩
    rw [slot_val, Nat.add_assoc, Nat.mul_add_mod, Nat.add_mod_left, Nat.mod_eq_of_lt hi]

theorem chained_ringNext : Chained (ringNext (n := n)) := by
  intro k
  have hn := Nat.pos_of_ne_zero (NeZero.ne n)
  apply Fin.ext
  unfold ringNext
  by_cases h : (slot n k).val + 1 < n
  · have hstep : (slot n k).val + 1 = (k + 1) % n := by
      rw [slot_val] at h ⊢
      conv_rhs => rw [← Nat.div_add_mod k n]
      rw [Nat.add_assoc, Nat.mul_add_mod, Nat.mod_eq_of_lt h]
    rw [dif_pos h]
    exact hstep
  · -- The last entry: one more is a whole turn.
    have hlast : k % n + 1 = n := by
      rw [slot_val] at h
      have := Nat.mod_lt k hn
      omega
    have hzero : (slot n (k + 1)).val = 0 := by
      rw [slot_val]
      conv_lhs => rw [← Nat.div_add_mod k n]
      rw [Nat.add_assoc, hlast, Nat.mul_add_mod, Nat.mod_self]
    rw [dif_neg h]
    exact hzero.symm

/-- Writing at one position of a window leaves the others alone. -/
theorem update_slot_ne {α : Type*} {f : Fin n → α} {x : α} {k i j : Nat} (hi : k ≤ i)
    (hi' : i < k + n) (hj : k ≤ j) (hj' : j < k + n) (hne : i ≠ j) :
    Function.update f (slot n i) x (slot n j) = f (slot n j) :=
  Function.update_of_ne (fun h => hne (slot_inj hj hj' hi hi' h).symm) _ _

/-- A slot that is none of the first `c` from `k` on has a position behind them. -/
theorem exists_slot_behind {k c : Nat} {d : Fin n} (h : ∀ i, i < c → d ≠ slot n (k + i)) :
    ∃ j, c ≤ j ∧ j < n ∧ slot n (k + j) = d := by
  rcases exists_slot k d with ⟨p, hle, hlt, hslot⟩
  have hp : k + (p - k) = p := by omega
  refine ⟨p - k, ?_, by omega, by rw [hp, hslot]⟩
  by_contra hc
  exact h (p - k) (by omega) (by rw [hp, hslot])

/-- A whole turn leads back to the same slot. -/
theorem slot_add_self (k : Nat) : slot n (k + n) = slot n k :=
  Fin.ext (Nat.add_mod_right k n)

end Firmware
