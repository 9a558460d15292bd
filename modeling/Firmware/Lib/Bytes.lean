import Firmware.Lib.Buffer

/-!
# Bytes and Numbers

Numbers as a processor keeps them in memory, the lowest byte first, or as a network sends
them, the highest byte first, and stretches of memory read back as lists.

`leBytes` writes a number down in a given count of bytes and `leValue` reads it. A record
in memory is a list of such bytes one behind the other, so that all a program needs to
know about its records is that reading a stretch gives what was stored there last, and
that a store elsewhere does not show.

`beValue` is what bytes mean on the wire: each of them counts as often as its place says.
It is a yardstick for encoders rather than one of them, so it comes with the fact that
makes it one, that as many bytes of the same value are the same bytes.

## Main definitions

* `leBytes`: The bytes of a number.
* `leValue`: The number that bytes stand for, the lowest first.
* `beValue`: The number that bytes stand for, the highest first.
* `Memory.read`: The elements from an offset on.

## Theorems

* `leValue_leBytes`: A number that fits is read back.
* `beValue_inj`: The value and the count of the bytes decide them.
* `Memory.read_store`: What was stored is read back.
* `Memory.read_store_apart`: A store next to a stretch does not show in it.
-/

namespace Firmware

/-- The `k` lowest bytes of a number, the lowest first. -/
def leBytes : Nat → Nat → List UInt8
  | 0, _ => []
  | k + 1, n => UInt8.ofNat n :: leBytes k (n / 256)

/-- The number with these bytes, the lowest first. -/
def leValue : List UInt8 → Nat
  | [] => 0
  | x :: xs => x.toNat + 256 * leValue xs

@[simp] theorem length_leBytes (k n : Nat) : (leBytes k n).length = k := by
  induction k generalizing n with
  | zero => rfl
  | succ k ih => rw [leBytes, List.length_cons, ih]

/-- A number that fits is read back. -/
theorem leValue_leBytes (k n : Nat) (h : n < 256 ^ k) : leValue (leBytes k n) = n := by
  induction k generalizing n with
  | zero =>
      rw [pow_zero] at h
      rw [leBytes, leValue]
      omega
  | succ k ih =>
      have hdiv : n / 256 < 256 ^ k := by
        rw [pow_succ] at h
        exact Nat.div_lt_of_lt_mul (by rwa [Nat.mul_comm])
      have hlow : (UInt8.ofNat n).toNat = n % 256 := rfl
      rw [leBytes, leValue, ih _ hdiv, hlow]
      exact Nat.mod_add_div n 256

/-- The number with these bytes, the highest first. -/
def beValue : List UInt8 → Nat
  | [] => 0
  | x :: xs => x.toNat * 256 ^ xs.length + beValue xs

theorem beValue_lt (xs : List UInt8) : beValue xs < 256 ^ xs.length := by
  induction xs with
  | nil => exact Nat.one_pos
  | cons x xs ih =>
      have hx : x.toNat + 1 ≤ 256 := x.toNat_lt
      rw [beValue, List.length_cons, pow_succ']
      calc x.toNat * 256 ^ xs.length + beValue xs
          < x.toNat * 256 ^ xs.length + 256 ^ xs.length := Nat.add_lt_add_left ih _
        _ = (x.toNat + 1) * 256 ^ xs.length := (Nat.succ_mul _ _).symm
        _ ≤ 256 * 256 ^ xs.length := Nat.mul_le_mul_right _ hx

/-- The value and the count of the bytes decide them. -/
theorem beValue_inj {xs ys : List UInt8} (hlen : xs.length = ys.length)
    (h : beValue xs = beValue ys) : xs = ys := by
  induction xs generalizing ys with
  | nil => exact (List.length_eq_zero_iff.mp hlen.symm).symm
  | cons x xs ih =>
      cases ys with
      | nil => cases hlen
      | cons y ys =>
          rw [List.length_cons, List.length_cons, Nat.add_right_cancel_iff] at hlen
          rw [beValue, beValue, hlen] at h
          have hxs := beValue_lt xs
          rw [hlen] at hxs
          -- Both sides are divided by the place of the first byte.
          have hx : x.toNat = y.toNat := by
            have hdiv := congrArg (· / 256 ^ ys.length) h
            have hpos : 0 < 256 ^ ys.length := Nat.pow_pos (by decide)
            simpa only [Nat.mul_comm _ (256 ^ ys.length), Nat.mul_add_div hpos,
              Nat.div_eq_of_lt hxs, Nat.div_eq_of_lt (beValue_lt ys), Nat.add_zero] using hdiv
          rw [hx, Nat.add_left_cancel_iff] at h
          rw [UInt8.toNat_inj.mp hx, ih hlen h]

namespace Memory

variable {α : Type*} {m m' : Memory α}

/-- The `n` elements from the offset `off` on. -/
def read (m : Memory α) (off : Int) (n : Nat) : List α :=
  (List.range n).map fun i : Nat => m (off + i)

@[simp] theorem length_read (m : Memory α) (off : Int) (n : Nat) : (m.read off n).length = n := by
  rw [read, List.length_map, List.length_range]

theorem getElem_read (m : Memory α) (off : Int) (n : Nat) {i : Nat}
    (h : i < (m.read off n).length) : (m.read off n)[i] = m (off + i) := by
  simp only [read, List.getElem_map, List.getElem_range]

/-- Reading only depends on the stretch that is read. -/
theorem read_congr {off : Int} {n : Nat} (h : ∀ i : Nat, i < n → m' (off + i) = m (off + i)) :
    m'.read off n = m.read off n := by
  refine List.map_congr_left fun i hi => ?_
  exact h i (List.mem_range.mp hi)

/-- What was stored is read back. -/
theorem read_store (m : Memory α) (off : Int) (xs : List α) :
    (m.store off xs).read off xs.length = xs := by
  refine List.ext_getElem (length_read _ _ _) fun i hi hi' => ?_
  rw [getElem_read, store_inside m off xs hi']

/-- A store next to a stretch does not show in it. -/
theorem read_store_apart (m : Memory α) {off off' : Int} {n : Nat} (xs : List α)
    (h : off' + n ≤ off ∨ off + xs.length ≤ off') :
    (m.store off xs).read off' n = m.read off' n := by
  refine read_congr fun i hi => store_outside m off xs ?_
  rcases h with h | h
  · exact .inl (by omega)
  · exact .inr (by omega)

end Memory

end Firmware
