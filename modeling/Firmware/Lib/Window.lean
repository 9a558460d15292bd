import Mathlib

/-!
# Windows of a Circular Buffer

A queue in a circular buffer, as the list of its elements.

The queue occupies consecutive cells from its first element on, around the end of the
buffer. `window` reads them off. A writer stores at the first cell behind the window and a
reader leaves the first cell of it; the lemmas below say what that does to the list,
provided the window is no longer than the buffer.

A buffer that never refuses an element forgets the oldest one instead. `recent` is such a
queue without a buffer: the last elements of everything that was put into it.

## Main definitions

* `window`: The elements of consecutive cells of a circular buffer.
* `recent`: Appending to a queue that keeps its last elements only.

## Theorems

* `window_store`: Storing behind the window appends.
* `window_cons`: The first element and the others.
* `window_append`: A window in two parts.
* `recent_room`, `recent_full`: With room nothing is forgotten, without it the oldest is.
-/

namespace Firmware

variable {α : Type*}

/-- The `n` elements of a circular buffer of `b` cells from cell `k` on. -/
def window (buf : Nat → α) (b k n : Nat) : List α :=
  (List.range n).map fun i => buf ((k + i) % b)

/-- A queue that keeps its last `c` elements, with one more. -/
def recent (c : Nat) (q : List α) (x : α) : List α := (q ++ [x]).rtake c

section Window

variable {buf buf' : Nat → α} {b k m n : Nat}

@[simp] theorem window_length (buf : Nat → α) (b k n : Nat) : (window buf b k n).length = n := by
  rw [window, List.length_map, List.length_range]

@[simp] theorem window_zero (buf : Nat → α) (b k : Nat) : window buf b k 0 = [] := rfl

theorem window_congr (h : ∀ i, i < n → buf ((k + i) % b) = buf' ((k + i) % b)) :
    window buf b k n = window buf' b k n :=
  List.map_congr_left fun i hi => h i (List.mem_range.mp hi)

/-- Only the first cell's index counts. -/
theorem window_mod (buf : Nat → α) (b k n : Nat) : window buf b (k % b) n = window buf b k n := by
  simp only [window, Nat.mod_add_mod]

/-- A window in two parts. -/
theorem window_append (buf : Nat → α) (b k m n : Nat) :
    window buf b k (m + n) = window buf b k m ++ window buf b (k + m) n := by
  simp only [window, List.range_add, List.map_append, List.map_map, Function.comp_def,
    Nat.add_assoc]

/-- The first element and the others. -/
theorem window_cons (buf : Nat → α) (b k n : Nat) :
    window buf b k (n + 1) = buf (k % b) :: window buf b (k + 1) n := by
  rw [Nat.add_comm n 1, window_append]
  rfl

/-- Different elements of a window are in different cells. -/
theorem window_inj {i j : Nat} (hi : i < b) (hj : j < b) (h : (k + i) % b = (k + j) % b) :
    i = j := by
  have hmod : i ≡ j [MOD b] := Nat.ModEq.add_left_cancel' k h
  rwa [Nat.ModEq, Nat.mod_eq_of_lt hi, Nat.mod_eq_of_lt hj] at hmod

/-- Storing behind the window leaves it alone. -/
theorem window_store_behind {j : Nat} (x : α) (hn : n ≤ j) (hj : j < b) :
    window (Function.update buf ((k + j) % b) x) b k n = window buf b k n := by
  -- The cell is another one, since the window does not come around to it.
  refine window_congr fun i hi => Function.update_of_ne (fun h => ?_) _ _
  have heq := window_inj (by omega) hj h
  omega

/-- Storing behind the window appends. -/
theorem window_store (x : α) (h : n < b) :
    window (Function.update buf ((k + n) % b) x) b k (n + 1) = window buf b k n ++ [x] := by
  rw [window_append, window_store_behind x (le_refl n) h]
  simp [window]

/-- A step forward with a comparison instead of a division. -/
theorem wrap_succ (h : k < b) : (if b ≤ k + 1 then 0 else k + 1) = (k + 1) % b := by
  by_cases hlast : b ≤ k + 1
  · have heq : k + 1 = b := by omega
    rw [if_pos hlast, heq, Nat.mod_self]
  · rw [if_neg hlast, Nat.mod_eq_of_lt (by omega)]

/-- The length of a window from its first cell and the cell behind it. -/
theorem length_of_mod (hk : k < b) (hn : n < b) :
    (if k ≤ (k + n) % b then (k + n) % b - k else b - (k - (k + n) % b)) = n := by
  by_cases h : k + n < b
  · rw [Nat.mod_eq_of_lt h, if_pos (by omega)]
    omega
  · -- The window goes around the end, once.
    have hmod : (k + n) % b = k + n - b := by
      rw [Nat.mod_eq_sub_mod (by omega), Nat.mod_eq_of_lt (by omega)]
    rw [hmod, if_neg (by omega)]
    omega

/-- The cell behind a window is its first one if it is empty or all of the buffer. -/
theorem mod_eq_self_iff (hk : k < b) (hn : n ≤ b) : (k + n) % b = k ↔ n = 0 ∨ n = b := by
  constructor
  · intro h
    by_cases hlt : n < b
    · left
      -- A shorter window would have its end and its beginning in one cell.
      have h0 : (k + n) % b = (k + 0) % b := by rw [h, Nat.add_zero, Nat.mod_eq_of_lt hk]
      exact window_inj hlt (by omega) h0
    · right
      omega
  · rintro (rfl | rfl)
    · exact Nat.mod_eq_of_lt hk
    · rw [Nat.add_mod_right, Nat.mod_eq_of_lt hk]

end Window

section Recent

variable {c : Nat} {q : List α}

/-- With room nothing is forgotten. -/
theorem recent_room (x : α) (h : q.length < c) : recent c q x = q ++ [x] := by
  have hz : q.length + 1 - c = 0 := by omega
  rw [recent, List.rtake, List.length_append, List.length_singleton, hz, List.drop_zero]

/-- Without room the oldest element is. -/
theorem recent_full (x : α) (hc : 0 < c) (h : q.length = c) : recent c q x = q.tail ++ [x] := by
  have hone : q.length + 1 - c = 1 := by omega
  rw [recent, List.rtake, List.length_append, List.length_singleton, hone,
    List.drop_append_of_le_length (by omega), List.drop_one]

/-- Elements are forgotten, and neither invented nor moved. -/
theorem recent_sublist (c : Nat) (q : List α) (x : α) : (recent c q x).Sublist (q ++ [x]) :=
  List.drop_sublist _ _

/-- The same for any number of them. -/
theorem recents_sublist (c : Nat) (q xs : List α) :
    (xs.foldl (recent c) q).Sublist (q ++ xs) := by
  induction xs generalizing q with
  | nil => rw [List.foldl_nil, List.append_nil]
  | cons x xs ih =>
      -- What one element leaves of the queue is followed by the others.
      have hfirst := (recent_sublist c q x).append_right xs
      rw [List.append_assoc, List.singleton_append] at hfirst
      exact (ih (recent c q x)).trans hfirst

theorem recents_room {xs : List α} (h : q.length + xs.length ≤ c) :
    xs.foldl (recent c) q = q ++ xs := by
  induction xs generalizing q with
  | nil => rw [List.foldl_nil, List.append_nil]
  | cons x xs ih =>
      rw [List.length_cons] at h
      rw [List.foldl_cons, recent_room x (by omega), ih, List.append_assoc, List.singleton_append]
      rw [List.length_append, List.length_singleton]
      omega

end Recent

end Firmware
