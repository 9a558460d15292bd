import Firmware.Lib.Buffer
import Firmware.Lib.Ring

/-!
# Stretches of a Ring of Buffers

Data longer than one buffer, laid out over consecutive buffers of a ring.

Each of the `n` slots of the ring has a buffer of `m` elements, and data that
starts at a position fills the buffer there, then the one behind it, and so on.
`stretch` reads the first `len` elements back as one list. Where element `p` lies
is division with remainder, but the programs that walk such data do not divide:
they keep a slot and an offset into its buffer, and move on when the buffer is
full. The lemmas below are for such a walk. It stands at element `i * m + off`
with `off ≤ m`, and it reads, or writes, some elements that still fit into the
buffer it is at. An offset of `m` is allowed and is the same place as offset zero
of the next buffer.

## Main definitions

* `stretch`: The first elements of the data that starts at a position.
* `needed`: The number of buffers some data needs.

## Theorems

* `stretch_read`: Reading on from where a walk stands.
* `stretch_store`: A write leaves what lies before it alone.
* `stretch_write`: Writing on from where a walk stands.
* `stretch_flatMap`: The data, buffer by buffer.
* `stretch_of_holds`: Buffers that hold the pieces of a list hold the list.
* `read_of_stretch`: What a walk reads is a piece of the data.
* `needed_eq`: The last of the needed buffers is the one with the last element.
* `lt_needed_iff`: Which buffers are needed.
* `lt_of_fits`: A walk that has more to come is not past the ring.
-/

namespace Firmware

variable {α : Type*} {n m : Nat} [NeZero n] [NeZero m]

/-- The first `len` elements of the data that starts at position `k`. -/
def stretch (buf : Fin n → Buffer α m) (k len : Nat) : List α :=
  (List.range len).map fun p => buf (slot n (k + p / m)) (slot m p)

@[simp] theorem stretch_length (buf : Fin n → Buffer α m) (k len : Nat) :
    (stretch buf k len).length = len := by
  rw [stretch, List.length_map, List.length_range]

@[simp] theorem stretch_zero (buf : Fin n → Buffer α m) (k : Nat) : stretch buf k 0 = [] := rfl

theorem stretch_congr {buf buf' : Fin n → Buffer α m} {k len : Nat}
    (h : ∀ p, p < len → buf (slot n (k + p / m)) (slot m p) =
      buf' (slot n (k + p / m)) (slot m p)) : stretch buf k len = stretch buf' k len :=
  List.map_congr_left fun p hp => h p (List.mem_range.mp hp)

/-- Where element `i * m + off` lies. -/
theorem div_add_offset {i off : Nat} (h : off < m) : (i * m + off) / m = i := by
  rw [Nat.mul_comm, Nat.mul_add_div (Nat.pos_of_ne_zero (NeZero.ne m)), Nat.div_eq_of_lt h,
    Nat.add_zero]

theorem slot_add_offset {i off : Nat} (h : off < m) : slot m (i * m + off) = ⟨off, h⟩ := by
  apply Fin.ext
  rw [slot_val, Nat.mul_comm, Nat.mul_add_mod, Nat.mod_eq_of_lt h]

/-- Reading on from where a walk stands gives the next elements. -/
theorem stretch_read (buf : Fin n → Buffer α m) (k i off len : Nat) (h : off + len ≤ m) :
    stretch buf k (i * m + off + len) =
      stretch buf k (i * m + off) ++ (buf (slot n (k + i))).read off len := by
  rw [stretch, stretch, List.range_add, List.map_append, List.map_map]
  congr 1
  refine List.ext_getElem ?_ fun j hj hj' => ?_
  · rw [List.length_map, List.length_range, Buffer.read_length _ _ _ h]
  · have hlt : off + j < m := by
      rw [List.length_map, List.length_range] at hj
      omega
    rw [List.getElem_map, List.getElem_range, Function.comp_apply, Nat.add_assoc,
      div_add_offset hlt, slot_add_offset hlt, Buffer.getElem_read _ _ _ _ hj' hlt]

/-- Writing where a walk stands leaves the elements before it alone. -/
theorem stretch_store (buf : Fin n → Buffer α m) (k i off : Nat) (xs : List α) (hi : i < n)
    (hoff : off ≤ m) :
    stretch (Function.update buf (slot n (k + i)) ((buf (slot n (k + i))).store off xs)) k
      (i * m + off) = stretch buf k (i * m + off) := by
  refine stretch_congr fun p hp => ?_
  have hm := Nat.pos_of_ne_zero (NeZero.ne m)
  have hdiv := Nat.div_add_mod p m
  have hmod := Nat.mod_lt p hm
  have hle : p / m ≤ i := by
    refine Nat.le_of_lt_succ (Nat.div_lt_of_lt_mul ?_)
    rw [Nat.mul_succ, Nat.mul_comm]
    omega
  generalize p / m = q at hdiv hle ⊢
  by_cases heq : q = i
  · -- The same buffer, but in front of the offset.
    rw [heq, Function.update_self]
    refine Buffer.store_before _ _ _ _ ?_
    rw [heq, Nat.mul_comm] at hdiv
    rw [slot_val]
    omega
  · -- An earlier buffer, and the write is at another slot.
    rw [update_slot_ne (k := k) (by omega) (by omega) (by omega) (by omega) (by omega)]

/-- Writing on from where a walk stands adds what is written. -/
theorem stretch_write (buf : Fin n → Buffer α m) (k i off : Nat) (xs : List α) (hi : i < n)
    (h : off + xs.length ≤ m) :
    stretch (Function.update buf (slot n (k + i)) ((buf (slot n (k + i))).store off xs)) k
      (i * m + off + xs.length) = stretch buf k (i * m + off) ++ xs := by
  rw [stretch_read _ _ _ _ _ h, stretch_store _ _ _ _ _ hi (by omega), Function.update_self,
    Buffer.read_eq_of_holds _ _ _ h (Buffer.holds_store _ _ _ h)]

/-- The data lies in the buffers one behind the other: all of a buffer but the
    last, and of the last what is left. -/
theorem stretch_flatMap (buf : Fin n → Buffer α m) (k len : Nat) :
    ∀ c, (List.range c).flatMap (fun i => (buf (slot n (k + i))).read 0 (min m (len - i * m))) =
      stretch buf k (min (c * m) len) := by
  intro c
  induction c with
  | zero => simp only [List.range_zero, List.flatMap_nil, Nat.zero_mul, Nat.zero_min, stretch_zero]
  | succ c ih =>
      rw [List.range_succ, List.flatMap_append, ih, List.flatMap_singleton]
      have hsucc : (c + 1) * m = c * m + m := Nat.succ_mul c m
      by_cases hlt : c * m ≤ len
      · have hread := stretch_read buf k c 0 (min m (len - c * m)) (by omega)
        rw [Nat.add_zero] at hread
        rw [Nat.min_eq_left hlt, ← hread, hsucc]
        congr 1
        omega
      · -- The data ended before this buffer, which adds nothing.
        rw [Nat.sub_eq_zero_of_le (by omega), Nat.min_zero, hsucc,
          Nat.min_eq_right (by omega : len ≤ c * m), Nat.min_eq_right (by omega)]
        exact List.append_nil _

theorem stretch_take (buf : Fin n → Buffer α m) (k : Nat) {p len : Nat} (h : p ≤ len) :
    (stretch buf k len).take p = stretch buf k p := by
  rw [stretch, ← List.map_take, List.take_range, Nat.min_eq_left h, stretch]

/-- Buffers that hold the pieces of a list have the list laid out in them. -/
theorem stretch_of_holds (buf : Fin n → Buffer α m) (k : Nat) {xs : List α} {c : Nat}
    (h : ∀ i, i < c → (buf (slot n (k + i))).Holds 0 ((xs.drop (i * m)).take m))
    (hlen : xs.length ≤ c * m) : stretch buf k xs.length = xs := by
  -- By induction on how many of the buffers are read.
  have hfront : ∀ j, j ≤ c → stretch buf k (min (j * m) xs.length) = xs.take (j * m) := by
    intro j
    induction j with
    | zero =>
        intro _
        rw [Nat.zero_mul, Nat.zero_min, stretch_zero, List.take_zero]
    | succ j ih =>
        intro hj
        rw [← stretch_flatMap, List.range_succ, List.flatMap_append, stretch_flatMap,
          ih (by omega), List.flatMap_singleton, Nat.succ_mul, List.take_add]
        congr 1
        have hpiece : ((xs.drop (j * m)).take m).length = min m (xs.length - j * m) := by
          rw [List.length_take, List.length_drop]
        rw [← hpiece]
        exact Buffer.read_eq_of_holds _ _ _ (by omega) (h j (by omega))
  have hall := hfront c (Nat.le_refl c)
  rwa [Nat.min_eq_right hlen, List.take_of_length_le hlen] at hall

/-- Reading from data that is laid out gives a piece of it. -/
theorem read_of_stretch {buf : Fin n → Buffer α m} {k : Nat} {xs : List α}
    (h : stretch buf k xs.length = xs) {i off len : Nat} (hoff : off + len ≤ m)
    (hlen : i * m + off + len ≤ xs.length) :
    (buf (slot n (k + i))).read off len = (xs.drop (i * m + off)).take len := by
  have hread := stretch_read buf k i off len hoff
  rw [← stretch_take buf k hlen, ← stretch_take buf k (by omega : i * m + off ≤ xs.length), h,
    List.take_add] at hread
  exact (List.append_cancel_left hread).symm

/-- The number of buffers of `m` elements that some data needs. -/
def needed (m len : Nat) : Nat := (len + m - 1) / m

/-- The last of the needed buffers is the one with the last element. -/
theorem needed_eq {c len : Nat} (hlt : c * m < len) (hle : len ≤ c * m + m) :
    needed m len = c + 1 := by
  rw [needed, Nat.div_eq_iff (Nat.pos_of_ne_zero (NeZero.ne m)), Nat.succ_mul]
  omega

theorem exists_needed {len : Nat} (h : 0 < len) :
    ∃ c, needed m len = c + 1 ∧ c * m < len ∧ len ≤ c * m + m := by
  have hdiv := Nat.div_add_mod (len - 1) m
  have hmod := Nat.mod_lt (len - 1) (Nat.pos_of_ne_zero (NeZero.ne m))
  rw [Nat.mul_comm] at hdiv
  have hlt : (len - 1) / m * m < len := by omega
  have hle : len ≤ (len - 1) / m * m + m := by omega
  exact ⟨(len - 1) / m, needed_eq hlt hle, hlt, hle⟩

/-- A buffer is needed if the data reaches into it. -/
theorem lt_needed_iff {j len : Nat} : j < needed m len ↔ j * m < len := by
  have hpos := Nat.pos_of_ne_zero (NeZero.ne m)
  rw [needed, Nat.lt_iff_add_one_le, Nat.le_div_iff_mul_le hpos, Nat.succ_mul]
  omega

omit [NeZero n] in
/-- Data that fits into the ring needs no more buffers than there are. -/
theorem needed_le {len : Nat} (hpos : 0 < len) (hfit : len ≤ n * m) : needed m len ≤ n := by
  rcases exists_needed (m := m) hpos with ⟨c, hc, hlt, -⟩
  rw [hc]
  exact Nat.lt_of_mul_lt_mul_right (a := m) (by omega)

omit [NeZero m] in
/-- The buffer a walk is at is one of the ring's if there is more to come. -/
theorem lt_of_fits {i off len : Nat} (hmore : i = 0 ∨ 0 < off + len)
    (hfit : i * m + off + len ≤ n * m) : i < n := by
  rcases hmore with rfl | hmore
  · exact Nat.pos_of_ne_zero (NeZero.ne n)
  · exact Nat.lt_of_mul_lt_mul_right (a := m) (by omega)

end Firmware
