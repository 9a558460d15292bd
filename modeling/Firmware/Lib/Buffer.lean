import Mathlib

/-!
# Memory and Fixed-Size Buffers

A C array, and what a copy into part of it does.

Memory around a pointer is a function on all offsets from it, negative ones
included, so that a copy which leaves its object can be told from one which does
not. `Memory.store` is `memcpy` to an offset.

A buffer is an array of known length: a function on its valid indices, so an index
outside it cannot be read and a buffer cannot change size. `Buffer.store` is
`memcpy` into a buffer at a given offset. The offset is an integer because C computes it with signed
arithmetic, and nothing forces the result to be a valid position: the elements
that land inside the buffer are stored and the others are dropped, since the
memory they would hit belongs to something else. Whether a copy stays inside is
then a property to prove rather than a condition of the definition.

`Holds` reads a stretch of a buffer back as a list. Receiving a message in pieces
is a sequence of stores, each starting where the last one ended, and
`store_append` says that the sequence is one store of the concatenation.

## Main definitions

* `Memory`: The bytes around a pointer.
* `Memory.store`: Copying a list to an offset.
* `Buffer`: An array of fixed length.
* `Buffer.store`: Copying a list into a buffer.
* `Buffer.Holds`: A stretch of a buffer contains a given list.
* `Buffer.read`: Copying a stretch of a buffer out.

## Theorems

* `Memory.store_append`: Two adjacent copies to memory are one copy.
* `Memory.store_outside`: Memory outside the copied stretch is untouched.
* `Memory.store_inside`: The copied stretch is what was copied.
* `store_nil`: Copying nothing changes nothing.
* `store_append`: Two adjacent copies are one copy.
* `store_before`: Elements before the copied stretch are untouched.
* `holds_store`: A copied stretch contains what was copied.
* `holds_store_after`: A copy beyond a stretch leaves it as it was.
* `holds_append`: Adjacent stretches contain the concatenation.
* `holds_behind`: A copy that begins where the contents end.
* `read_eq_of_holds`: What a stretch contains is what a copy of it gives.
-/

namespace Firmware

variable {α : Type*} {n : Nat}

/-- What is stored at every offset from some pointer. -/
abbrev Memory (α : Type*) := Int → α

namespace Memory

/-- Copy `xs` to the offset `off`. -/
def store (m : Memory α) (off : Int) (xs : List α) : Memory α :=
  fun i => if off ≤ i then xs.getD (i - off).toNat (m i) else m i

@[simp] theorem store_nil (m : Memory α) (off : Int) : m.store off [] = m := by
  funext i
  simp only [store, List.getD_nil, ite_self]

theorem store_append (m : Memory α) (off : Int) (xs ys : List α) :
    (m.store off xs).store (off + xs.length) ys = m.store off (xs ++ ys) := by
  funext i
  simp only [store]
  by_cases h1 : off ≤ i
  · by_cases h2 : off + xs.length ≤ i
    · -- A position of the second list, which the first one does not reach.
      have hd : (i - off).toNat = xs.length + (i - (off + xs.length)).toNat := by omega
      rw [if_pos h2, if_pos h1, if_pos h1, hd, List.getD_append_right _ _ _ _ (by omega),
        Nat.add_sub_cancel_left, List.getD_eq_default xs _ (by omega)]
    · rw [if_neg h2, if_pos h1, if_pos h1, List.getD_append _ _ _ _ (by omega)]
  · rw [if_neg (by omega : ¬ off + (xs.length : Int) ≤ i), if_neg h1, if_neg h1]

theorem store_outside (m : Memory α) (off : Int) (xs : List α) {i : Int}
    (h : i < off ∨ off + xs.length ≤ i) : m.store off xs i = m i := by
  rcases h with h | h
  · exact if_neg (by omega)
  · rw [store, if_pos (by omega), List.getD_eq_default xs _ (by omega)]

theorem store_inside (m : Memory α) (off : Int) (xs : List α) {j : Nat} (h : j < xs.length) :
    m.store off xs (off + j) = xs[j] := by
  have hsub : (off + j - off).toNat = j := by omega
  rw [store, if_pos (by omega), hsub, List.getD_eq_getElem _ _ h]

end Memory

/-- An array of `n` elements. -/
abbrev Buffer (α : Type*) (n : Nat) := Fin n → α

namespace Buffer

/-- Copy `xs` into the buffer from position `off` on, dropping what falls
    outside. -/
def store (b : Buffer α n) (off : Int) (xs : List α) : Buffer α n :=
  fun i => if off ≤ (i : Int) then xs.getD ((i : Int) - off).toNat (b i) else b i

/-- The buffer contains `xs` from position `off` on, all of it inside. -/
def Holds (b : Buffer α n) (off : Nat) (xs : List α) : Prop :=
  ∀ j (h : j < xs.length), ∃ hi : off + j < n, b ⟨off + j, hi⟩ = xs[j]

/-- Copy `len` elements out of the buffer from position `off` on. -/
def read (b : Buffer α n) (off len : Nat) : List α := ((List.ofFn b).drop off).take len

@[simp] theorem store_nil (b : Buffer α n) (off : Int) : b.store off [] = b := by
  funext i
  simp only [store, List.getD_nil, ite_self]

theorem store_append (b : Buffer α n) (off : Int) (xs ys : List α) :
    (b.store off xs).store (off + xs.length) ys = b.store off (xs ++ ys) := by
  funext i
  -- At one position a buffer and a memory cannot be told apart.
  exact congrFun (Memory.store_append (fun _ => b i) off xs ys) i

theorem store_before (b : Buffer α n) (off : Int) (xs : List α) (i : Fin n)
    (h : (i : Int) < off) : b.store off xs i = b i := by
  simp only [store, if_neg (by omega : ¬ off ≤ (i : Int))]

theorem holds_nil (b : Buffer α n) (off : Nat) : b.Holds off [] := by
  intro j h
  exact absurd h (Nat.not_lt_zero j)

theorem holds_store (b : Buffer α n) (off : Nat) (xs : List α) (h : off + xs.length ≤ n) :
    (b.store off xs).Holds off xs := by
  intro j hj
  refine ⟨by omega, ?_⟩
  have hle : (off : Int) ≤ ((off + j : Nat) : Int) := by omega
  have hsub : (((off + j : Nat) : Int) - (off : Int)).toNat = j := by omega
  simp only [store]
  rw [if_pos hle, hsub, List.getD_eq_getElem _ _ hj]

theorem holds_store_after (b : Buffer α n) (off : Nat) (xs : List α) (off' : Int)
    (ys : List α) (hb : b.Holds off xs) (h : (off : Int) + xs.length ≤ off') :
    (b.store off' ys).Holds off xs := by
  intro j hj
  rcases hb j hj with ⟨hi, hval⟩
  refine ⟨hi, ?_⟩
  rw [store_before _ _ _ _ (by simp only; omega), hval]

theorem holds_append (b : Buffer α n) (off : Nat) (xs ys : List α)
    (hx : b.Holds off xs) (hy : b.Holds (off + xs.length) ys) : b.Holds off (xs ++ ys) := by
  intro j hj
  rw [List.length_append] at hj
  by_cases hlt : j < xs.length
  · rcases hx j hlt with ⟨hi, hval⟩
    exact ⟨hi, by rw [hval, List.getElem_append_left hlt]⟩
  · -- A position behind the first stretch is one of the second.
    rcases hy (j - xs.length) (by omega) with ⟨hi, hval⟩
    have hpos : off + xs.length + (j - xs.length) = off + j := by omega
    refine ⟨by omega, ?_⟩
    rw [List.getElem_append_right (by omega), ← hval]
    congr 1
    exact Fin.ext hpos.symm

/-- A piece that goes behind what a buffer holds. -/
theorem holds_behind {b : Buffer α n} {got xs : List α} {i : Int} (h : b.Holds 0 got)
    (hi : i = got.length) (hle : got.length + xs.length ≤ n) :
    (b.store i xs).Holds 0 (got ++ xs) := by
  subst hi
  -- What was there is in front of the copy and is not touched.
  refine holds_append _ _ _ _ (holds_store_after _ _ _ _ _ h ?_) ?_
  · simp only [Nat.cast_zero, zero_add, le_refl]
  · rw [Nat.zero_add]
    exact holds_store b got.length xs hle

theorem read_length (b : Buffer α n) (off len : Nat) (h : off + len ≤ n) :
    (b.read off len).length = len := by
  rw [read, List.length_take, List.length_drop, List.length_ofFn]
  omega

theorem getElem_read (b : Buffer α n) (off len j : Nat) (hj : j < (b.read off len).length)
    (h : off + j < n) : (b.read off len)[j] = b ⟨off + j, h⟩ := by
  simp only [read, List.getElem_take, List.getElem_drop, List.getElem_ofFn]

/-- A copy of the stretch that contains a list gives the list. -/
theorem read_eq_of_holds (b : Buffer α n) (off : Nat) (xs : List α) (h : off + xs.length ≤ n)
    (hb : b.Holds off xs) : b.read off xs.length = xs := by
  refine List.ext_getElem (read_length b off _ h) fun j hj hj' => ?_
  rcases hb j hj' with ⟨hi, hval⟩
  rw [getElem_read b off _ j hj hi, hval]

end Buffer

end Firmware
