import Mathlib

/-!
# NOR Flash

Memory that is programmed one way and erased the other.

Programming a cell can only clear bits: what is there afterwards is what was there
and-ed with what was sent. Erasing sets every bit again, but of a whole block at a
time. A store is thus an erase of every block the stretch touches and a program on
top of it, and the two general facts are that programs of adjacent stretches are one
program, and that a program over erased cells is a store.

A page-program command wraps around inside its page: a byte sent behind the end of
the page lands at the beginning of it. `wrapped` says so byte by byte, and
`wrapped_eq_program` says what a driver has to respect for the difference not to show.

`down` and `up` are the multiples of a block size around an address, so that the blocks
a stretch touches are the cells from `down` of its beginning up to `up` of its end.

## Main definitions

* `Cells`: The contents of a memory.
* `program`: Bytes and-ed onto the cells from an address on.
* `erase`: All bits set in a stretch of cells.
* `overwrite`: Bytes replacing the cells from an address on.
* `wrapped`: A page-program command, byte by byte.
* `down`, `up`: The block boundaries around an address.

## Theorems

* `program_append`: Adjacent programs are one program.
* `erase_append`: Adjacent erases are one erase.
* `program_erased`: A program over erased cells replaces them.
* `wrapped_eq_program`: Within a page the wrap-around does not show.
-/

namespace Firmware

namespace Nor

/-- The contents of a memory. -/
abbrev Cells := Nat → UInt8

/-- Programming: the bytes are and-ed onto the cells from `a` on. -/
def program (m : Cells) (a : Nat) (xs : List UInt8) : Cells :=
  fun i => if a ≤ i then m i &&& xs.getD (i - a) 0xff else m i

/-- Erasing: the cells from `lo` up to `hi` have all bits set. -/
def erase (m : Cells) (lo hi : Nat) : Cells :=
  fun i => if lo ≤ i ∧ i < hi then 0xff else m i

/-- The bytes replace the cells from `a` on. -/
def overwrite (m : Cells) (a : Nat) (xs : List UInt8) : Cells :=
  fun i => if a ≤ i then xs.getD (i - a) (m i) else m i

/-- A page-program command: behind the last byte of the page comes its first. -/
def wrapped (page : Nat) (m : Cells) (a : Nat) : List UInt8 → Cells
  | [] => m
  | x :: xs =>
      wrapped page (Function.update m a (m a &&& x))
        (if (a + 1) % page = 0 then a + 1 - page else a + 1) xs

/-- The block boundary at or below `a`. -/
def down (g a : Nat) : Nat := a / g * g

/-- The block boundary at or above `a`. -/
def up (g a : Nat) : Nat := (a + (g - 1)) / g * g

theorem and_ones (x : UInt8) : x &&& 0xff = x := by
  have h : (0xff : UInt8) = -1 := by decide
  rw [h, UInt8.and_neg_one]

theorem ones_and (x : UInt8) : 0xff &&& x = x := by
  rw [UInt8.and_comm, and_ones]

@[simp] theorem program_nil (m : Cells) (a : Nat) : program m a [] = m := by
  funext i
  simp only [program, List.getD_nil, and_ones, ite_self]

theorem program_append (m : Cells) (a : Nat) (xs ys : List UInt8) :
    program (program m a xs) (a + xs.length) ys = program m a (xs ++ ys) := by
  funext i
  simp only [program]
  by_cases h1 : a ≤ i
  · by_cases h2 : a + xs.length ≤ i
    · -- A cell that only the second program reaches.
      have hsub : i - a - xs.length = i - (a + xs.length) := by omega
      rw [if_pos h2, if_pos h1, if_pos h1, List.getD_eq_default xs _ (by omega), and_ones,
        List.getD_append_right _ _ _ _ (by omega), hsub]
    · rw [if_neg h2, if_pos h1, if_pos h1, List.getD_append _ _ _ _ (by omega)]
  · rw [if_neg (by omega : ¬ a + xs.length ≤ i), if_neg h1, if_neg h1]

theorem program_outside (m : Cells) (a : Nat) (xs : List UInt8) {i : Nat}
    (h : i < a ∨ a + xs.length ≤ i) : program m a xs i = m i := by
  simp only [program]
  rcases h with h | h
  · exact if_neg (by omega)
  · rw [if_pos (by omega), List.getD_eq_default xs _ (by omega), and_ones]

@[simp] theorem erase_self (m : Cells) (lo : Nat) : erase m lo lo = m := by
  funext i
  exact if_neg (by omega)

theorem erase_append (m : Cells) {lo mid hi : Nat} (h1 : lo ≤ mid) (h2 : mid ≤ hi) :
    erase (erase m lo mid) mid hi = erase m lo hi := by
  funext i
  simp only [erase]
  by_cases hlo : lo ≤ i
  · by_cases hmid : mid ≤ i
    · by_cases hhi : i < hi
      · rw [if_pos ⟨hmid, hhi⟩, if_pos ⟨hlo, hhi⟩]
      · rw [if_neg (by omega), if_neg (by omega), if_neg (by omega)]
    · rw [if_neg (by omega), if_pos ⟨hlo, by omega⟩, if_pos ⟨hlo, by omega⟩]
  · rw [if_neg (by omega), if_neg (by omega), if_neg (by omega)]

theorem erase_outside (m : Cells) {lo hi i : Nat} (h : i < lo ∨ hi ≤ i) : erase m lo hi i = m i :=
  if_neg (by omega)

/-- Over erased cells a program is a store. -/
theorem program_erased (m : Cells) {lo hi a : Nat} {xs : List UInt8} (h1 : lo ≤ a)
    (h2 : a + xs.length ≤ hi) :
    program (erase m lo hi) a xs = overwrite (erase m lo hi) a xs := by
  funext i
  simp only [program, overwrite]
  by_cases ha : a ≤ i
  · rw [if_pos ha, if_pos ha]
    by_cases hx : i - a < xs.length
    · -- The bytes go where all bits are set, and and-ing leaves them as they are.
      have herased : erase m lo hi i = 0xff := if_pos (by omega)
      rw [herased, ones_and, List.getD_eq_getElem _ _ hx]
    · rw [List.getD_eq_default xs _ (by omega), List.getD_eq_default xs _ (by omega), and_ones]
  · rw [if_neg ha, if_neg ha]

theorem overwrite_outside (m : Cells) (a : Nat) (xs : List UInt8) {i : Nat}
    (h : i < a ∨ a + xs.length ≤ i) : overwrite m a xs i = m i := by
  simp only [overwrite]
  rcases h with h | h
  · exact if_neg (by omega)
  · rw [if_pos (by omega), List.getD_eq_default xs _ (by omega)]

theorem overwrite_inside (m : Cells) (a : Nat) (xs : List UInt8) {j : Nat} (h : j < xs.length) :
    overwrite m a xs (a + j) = xs[j] := by
  have hsub : a + j - a = j := by omega
  rw [overwrite, if_pos (by omega), hsub, List.getD_eq_getElem _ _ h]

/-- One byte programmed is one cell updated. -/
theorem program_singleton (m : Cells) (a : Nat) (x : UInt8) :
    program m a [x] = Function.update m a (m a &&& x) := by
  funext i
  by_cases hi : i = a
  · subst hi
    simp only [program, le_refl, if_true, Nat.sub_self, List.getD_cons_zero,
      Function.update_self]
  · rw [Function.update_of_ne hi]
    exact program_outside m a [x] (by rw [List.length_singleton]; omega)

/-- One further on in the page, unless the page ends here. -/
theorem succ_mod {page a : Nat} (h : a % page + 1 < page) : (a + 1) % page = a % page + 1 := by
  conv_lhs => rw [← Nat.div_add_mod a page]
  rw [Nat.add_assoc, Nat.mul_add_mod, Nat.mod_eq_of_lt h]

/-- A command that stays within its page does not wrap around. -/
theorem wrapped_eq_program {page : Nat} (m : Cells) (a : Nat) (xs : List UInt8)
    (h : a % page + xs.length ≤ page) : wrapped page m a xs = program m a xs := by
  induction xs generalizing m a with
  | nil => rw [wrapped, program_nil]
  | cons x xs ih =>
      rw [List.length_cons] at h
      have hcons : program m a (x :: xs) = program (program m a [x]) (a + 1) xs :=
        (program_append m a [x] xs).symm
      rw [wrapped, ← program_singleton, hcons]
      -- Only the last byte of a page is followed by a wrap-around, and then nothing is left.
      by_cases hlast : a % page + 1 < page
      · have hnext := succ_mod hlast
        rw [if_neg (by omega)]
        exact ih _ _ (by omega)
      · have hnil : xs = [] := List.length_eq_zero_iff.mp (by omega)
        rw [hnil, wrapped, program_nil]

section Blocks

variable {g : Nat}

theorem down_le (a : Nat) : down g a ≤ a := Nat.div_mul_le_self a g

theorem down_add_mod (a : Nat) : down g a + a % g = a := by
  rw [down, Nat.mul_comm]
  exact Nat.div_add_mod a g

theorem up_of_dvd (hg : 0 < g) {a : Nat} (h : g ∣ a) : up g a = a := by
  rcases h with ⟨k, rfl⟩
  have hsmall : (g - 1) / g = 0 := Nat.div_eq_of_lt (by omega)
  rw [up, Nat.mul_add_div hg, hsmall, Nat.add_zero, Nat.mul_comm]

theorem down_of_dvd {a : Nat} (h : g ∣ a) : down g a = a := Nat.div_mul_cancel h

/-- Behind the last boundary the next one is a block further on. -/
theorem up_add_pos (hg : 0 < g) (a d : Nat) (hd : 0 < d) (h : a % g + d ≤ g) :
    up g (a + d) = down g a + g := by
  have hlt := Nat.mod_lt a hg
  -- Rounded up, the end lands in the block behind that of `a`.
  have hquot : (a + d + (g - 1)) / g = a / g + 1 := by
    refine Nat.div_eq_of_lt_le ?_ ?_
    · have := Nat.div_add_mod a g
      rw [Nat.add_mul, Nat.one_mul, Nat.mul_comm]
      omega
    · have := Nat.div_add_mod a g
      rw [Nat.add_mul, Nat.add_mul, Nat.one_mul, Nat.mul_comm (a / g)]
      omega
  rw [up, hquot, Nat.add_mul, Nat.one_mul, down]

theorem le_up (hg : 0 < g) (a : Nat) : a ≤ up g a := by
  have hlt := Nat.mod_lt (a + (g - 1)) hg
  have hdiv := Nat.div_add_mod (a + (g - 1)) g
  rw [up, Nat.mul_comm]
  omega

end Blocks

end Nor

end Firmware
