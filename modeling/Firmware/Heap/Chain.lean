import Firmware.Heap.Mem
import Firmware.Lib.Blocks

/-!
# The Headers as a List

What the headers of a heap say, read as a list of blocks.

`Linked` follows the `next` offsets from the first header and compares every field with
what the list says. It speaks of the headers alone and not of the bytes they are in:
`head_modify` and `Keeps` are all that is left to know about those, that an assignment to
a header changes this one and neither another nor the room of a block.

Only two things are ever done to the list. `Heap.join` takes the header between two
neighbours out and `Heap.cut` puts one into a block, and `arena_join` and `arena_cut` say
so. A header taken out becomes room, and one put in takes room, so what they keep is the
room of the blocks there are afterwards.

## Main definitions

* `Linked`: The headers say what the list says.
* `Arena`: The headers from the first to the last one are those of the list.
* `Keeps`: The room of some blocks is as it was.
* `withCut`: The first two assignments of `Heap.cut`.

## Theorems

* `head_modify`: An assignment to a header.
* `linked_append`: Links of a concatenation.
* `linked_relink`: A list behind another block.
* `arena_join`: Joining two neighbours.
* `cut_eq`: What `Heap.cut` assigns to.
* `arena_cut`: Cutting a block in two.
* `arena_setUsed`: Marking a block.
-/

namespace Firmware

open Blocks

namespace Heap

section Words

variable {a b : Nat}

theorem toNat_ofNat (ha : a < 2 ^ 32) : (UInt32.ofNat a).toNat = a :=
  UInt32.toNat_ofNat_of_lt' ha

theorem ofNat_eq_iff (ha : a < 2 ^ 32) (hb : b < 2 ^ 32) :
    UInt32.ofNat a = UInt32.ofNat b ↔ a = b := by
  constructor
  · intro h
    have htoNat := congrArg UInt32.toNat h
    rwa [toNat_ofNat ha, toNat_ofNat hb] at htoNat
  · intro h
    rw [h]

theorem ofNat_lt_iff (ha : a < 2 ^ 32) (hb : b < 2 ^ 32) :
    UInt32.ofNat a < UInt32.ofNat b ↔ a < b := UInt32.ofNat_lt_iff_lt ha hb

theorem ofNat_le_iff (ha : a < 2 ^ 32) (hb : b < 2 ^ 32) :
    UInt32.ofNat a ≤ UInt32.ofNat b ↔ a ≤ b := UInt32.ofNat_le_iff_le ha hb

end Words

@[simp] theorem HeapMem.length_bytes (mem : HeapMem) : mem.bytes.length = 12 := by
  simp [HeapMem.bytes]

/-- A header is read as it was written. -/
theorem HeapMem.ofBytes_bytes (mem : HeapMem) : HeapMem.ofBytes mem.bytes = mem := by
  have hmagic := leValue_leBytes 2 mem.magic.toNat mem.magic.toNat_lt
  have hused := leValue_leBytes 2 mem.used.toNat mem.used.toNat_lt
  have hnext := leValue_leBytes 4 mem.next.toNat mem.next.toNat_lt
  have hprev := leValue_leBytes 4 mem.prev.toNat mem.prev.toNat_lt
  ext
  · change (UInt16.ofNat (leValue (leBytes 2 mem.magic.toNat))).toNat = _
    rw [hmagic, UInt16.ofNat_toNat]
  · change (UInt16.ofNat (leValue (leBytes 2 mem.used.toNat))).toNat = _
    rw [hused, UInt16.ofNat_toNat]
  · change (UInt32.ofNat (leValue (leBytes 4 mem.next.toNat))).toNat = _
    rw [hnext, UInt32.ofNat_toNat]
  · change (UInt32.ofNat (leValue (leBytes 4 mem.prev.toNat))).toNat = _
    rw [hprev, UInt32.ofNat_toNat]

/-- The header at an offset. -/
def head (h : Heap) (p : Nat) : HeapMem := h.header (UInt32.ofNat p)

section Assign

variable {h : Heap} {p q : Nat} {f : HeapMem → HeapMem}

@[simp] theorem modify_usedMem (ptr : UInt32) : (h.modify ptr f).usedMem = h.usedMem := rfl

theorem addr_ofNat (h : Heap) (p : Nat) :
    h.addr (UInt32.ofNat p) = UInt32.ofNat (h.heapPtr.toNat + p) := by
  rw [addr, UInt32.ofNat_add, UInt32.ofNat_toNat]

theorem toNat_addr (hp : h.heapPtr.toNat + p < 2 ^ 32) :
    (h.addr (UInt32.ofNat p)).toNat = h.heapPtr.toNat + p := by
  rw [addr_ofNat, toNat_ofNat hp]

/-- An assignment to a header changes this header and no other. -/
theorem head_modify (hp : h.heapPtr.toNat + p < 2 ^ 32) (hq : h.heapPtr.toNat + q < 2 ^ 32)
    (hpq : q = p ∨ p + 12 ≤ q ∨ q + 12 ≤ p) :
    (h.modify (UInt32.ofNat p) f).head q = if q = p then f (h.head p) else h.head q := by
  have haddr : (h.modify (UInt32.ofNat p) f).addr (UInt32.ofNat q) =
    h.addr (UInt32.ofNat q) := rfl
  unfold head header
  rw [haddr]
  -- It is the header that was assigned to, or one apart from it.
  rcases hpq with rfl | hapart
  · rw [if_pos rfl, modify]
    have hread := Memory.read_store h.ram (h.addr (UInt32.ofNat q)).toNat
      (f (h.header (UInt32.ofNat q))).bytes
    rw [HeapMem.length_bytes] at hread
    rw [hread, HeapMem.ofBytes_bytes, header]
  · rw [if_neg (by omega), modify, Memory.read_store_apart]
    rw [toNat_addr hp, toNat_addr hq, HeapMem.length_bytes]
    omega

/-- An assignment to a header stays inside the header. -/
theorem ram_modify (hp : h.heapPtr.toNat + p < 2 ^ 32) {i : Int}
    (hi : i < (h.heapPtr.toNat + p : Nat) ∨ ((h.heapPtr.toNat + p : Nat) : Int) + 12 ≤ i) :
    (h.modify (UInt32.ofNat p) f).ram i = h.ram i := by
  refine Memory.store_outside _ _ _ ?_
  rw [toNat_addr hp, HeapMem.length_bytes]
  exact hi

end Assign

/-- The headers from `ptr` on, with `prev` in front of them, are those of the blocks. -/
def Linked (hd : Nat → HeapMem) : Nat → Nat → List Block → Prop
  | _, _, [] => True
  | prev, ptr, b :: bs =>
      hd ptr = ⟨heapMagic, if b.used then 1 else 0, UInt32.ofNat (ptr + (12 + b.size)),
        UInt32.ofNat prev⟩ ∧ Linked hd ptr (ptr + (12 + b.size)) bs

/-- The last header of the blocks from `ptr` on, or the one in front of them. -/
def lastOf : Nat → Nat → List Block → Nat
  | prev, _, [] => prev
  | _, ptr, b :: bs => lastOf ptr (ptr + (12 + b.size)) bs

section Links

variable {hd hd' : Nat → HeapMem} {prev prev' ptr s : Nat} {a b : Block} {l r bs : List Block}

/-- Links of a concatenation: both parts and the seam. -/
theorem linked_append : Linked hd prev ptr (l ++ r) ↔
    Linked hd prev ptr l ∧ Linked hd (lastOf prev ptr l) (ptr + extent 12 l) r := by
  induction l generalizing prev ptr with
  | nil => simp [Linked, lastOf]
  | cons b l ih =>
      rw [List.cons_append, Linked, Linked, lastOf, ih, extent_cons, and_assoc, Nat.add_assoc]

/-- Links only depend on the headers of the blocks. -/
theorem linked_congr (hsame : ∀ q c, (q, c) ∈ placed 12 ptr bs → hd' q = hd q)
    (h : Linked hd prev ptr bs) : Linked hd' prev ptr bs := by
  induction bs generalizing prev ptr with
  | nil => trivial
  | cons b bs ih =>
      refine ⟨(hsame ptr b (by simp)).trans h.1, ih (fun q c hmem => ?_) h.2⟩
      exact hsame q c (by simp [hmem])

/-- A list that follows another block has a new `prev` in its first header. -/
theorem linked_relink (hfirst : bs ≠ [] → hd' ptr = { hd ptr with prev := UInt32.ofNat prev' })
    (hsame : ∀ q c, (q, c) ∈ placed 12 ptr bs → q ≠ ptr → hd' q = hd q)
    (h : Linked hd prev ptr bs) : Linked hd' prev' ptr bs := by
  cases bs with
  | nil => trivial
  | cons b bs =>
      refine ⟨?_, linked_congr (fun q c hmem => ?_) h.2⟩
      · rw [hfirst (by simp), h.1]
      · -- The headers behind the first one do not speak of what is in front of it.
        have hbounds := bounds_of_mem_placed hmem
        exact hsame q c (by simp [hmem]) (by omega)

/-- Taking out the header between two neighbours. -/
theorem linked_join {n : Nat} (hn : n = ptr + (12 + a.size) + (12 + b.size))
    (hfirst : hd' ptr = { hd ptr with next := UInt32.ofNat n })
    (hnext : r ≠ [] → hd' n = { hd n with prev := UInt32.ofNat ptr })
    (hsame : ∀ q c, (q, c) ∈ placed 12 n r → q ≠ n → hd' q = hd q)
    (h : Linked hd prev ptr (a :: b :: r)) :
    Linked hd' prev ptr (⟨a.size + (12 + b.size), a.used⟩ :: r) := by
  rcases h with ⟨ha, -, hr⟩
  have hend : ptr + (12 + (a.size + (12 + b.size))) = n := by omega
  rw [← hn] at hr
  refine ⟨?_, ?_⟩
  · rw [hfirst, ha, hend]
  · rw [hend]
    exact linked_relink hnext hsame hr

/-- Putting a header into a block. -/
theorem linked_cut {p2 n : Nat} (hp2 : p2 = ptr + (12 + s)) (hn : n = ptr + (12 + b.size))
    (hfit : s + 12 ≤ b.size) (hfirst : hd' ptr = { hd ptr with next := UInt32.ofNat p2 })
    (hnew : hd' p2 = ⟨heapMagic, 0, UInt32.ofNat n, UInt32.ofNat ptr⟩)
    (hnext : r ≠ [] → hd' n = { hd n with prev := UInt32.ofNat p2 })
    (hsame : ∀ q c, (q, c) ∈ placed 12 n r → q ≠ n → hd' q = hd q)
    (h : Linked hd prev ptr (b :: r)) :
    Linked hd' prev ptr (⟨s, b.used⟩ :: ⟨b.size - (s + 12), false⟩ :: r) := by
  rcases h with ⟨hb, hr⟩
  have hend : p2 + (12 + (b.size - (s + 12))) = n := by omega
  rw [← hn] at hr
  refine ⟨?_, ?_, ?_⟩
  · rw [hfirst, hb, hp2]
  · rw [← hp2, hnew, hend]
    rfl
  · rw [← hp2, hend]
    exact linked_relink hnext hsame hr

end Links

/-- The headers of a heap are those of the blocks, up to the last one at `heapEnd`, and
    the blocks are aligned. -/
structure Arena (h : Heap) (bs : List Block) : Prop where
  linked : Linked h.head 0 0 bs
  length : extent 12 bs = h.memSizeAligned.toNat + 12
  inside : h.heapPtr.toNat + h.memSizeAligned.toNat + 24 < 2 ^ 32
  start : h.heapPtr.toNat % 4 = 0
  sizes : ∀ b ∈ bs, b.size % 4 = 0

/-- The heap is where it was, and the room of the blocks is as it was. -/
structure Keeps (rooms : List (Nat × Nat)) (h h' : Heap) : Prop where
  heapPtr : h'.heapPtr = h.heapPtr
  memSizeAligned : h'.memSizeAligned = h.memSizeAligned
  room : ∀ p n, (p, n) ∈ rooms → ∀ i < n,
    h'.ram (h.heapPtr.toNat + (p + 12 + i) : Nat) = h.ram (h.heapPtr.toNat + (p + 12 + i) : Nat)

section Steps

variable {h h' h'' : Heap} {a b : Block} {l r bs bs' : List Block} {p q s : Nat}

theorem Keeps.refl (rooms : List (Nat × Nat)) (h : Heap) : Keeps rooms h h :=
  ⟨rfl, rfl, fun _ _ _ _ _ => rfl⟩

theorem Keeps.mono {rooms rooms' : List (Nat × Nat)} (hk : Keeps rooms h h')
    (hsub : ∀ x ∈ rooms', x ∈ rooms) : Keeps rooms' h h' :=
  ⟨hk.heapPtr, hk.memSizeAligned, fun p n hmem => hk.room p n (hsub _ hmem)⟩

theorem Keeps.trans {rooms : List (Nat × Nat)} (h₁ : Keeps rooms h h') (h₂ : Keeps rooms h' h'') :
    Keeps rooms h h'' := by
  refine ⟨h₂.heapPtr.trans h₁.heapPtr, h₂.memSizeAligned.trans h₁.memSizeAligned, ?_⟩
  intro p n hmem i hi
  have hroom := h₂.room p n hmem i hi
  rw [h₁.heapPtr] at hroom
  rw [hroom, h₁.room p n hmem i hi]

/-- An assignment to the header of a block, or to the last one. -/
theorem keeps_modify {f : HeapMem → HeapMem}
    (hin : h.heapPtr.toNat + extent 12 (l ++ r) < 2 ^ 32) :
    Keeps (live 12 0 (l ++ r)) h (h.modify (UInt32.ofNat (extent 12 l)) f) := by
  refine ⟨rfl, rfl, fun q n hmem i hi => ?_⟩
  have hq := mem_live_iff.mp hmem
  have hbounds := bounds_of_mem_placed hq
  simp only [Nat.zero_add] at hbounds
  rw [extent_append] at hin
  -- The header is the one at the end, or that of a block, and rooms lie between headers.
  rcases end_or_placed 12 l r with hend | ⟨c, hc⟩
  · exact ram_modify (by omega) (.inl (by omega))
  · have hapart := placed_apart hq hc
    simp only at hapart
    rcases hapart with ⟨rfl, -⟩ | hapart
    · exact ram_modify (by omega) (.inr (by omega))
    · exact ram_modify (by omega) (by omega)

/-- The header of a block. -/
theorem Arena.head_eq (hA : Arena h (l ++ b :: r)) :
    h.head (extent 12 l) = ⟨heapMagic, if b.used then 1 else 0,
      UInt32.ofNat (extent 12 l + (12 + b.size)), UInt32.ofNat (lastOf 0 0 l)⟩ := by
  have hlinked := (linked_append.mp hA.linked).2
  rw [Nat.zero_add] at hlinked
  exact hlinked.1

/-- The header behind it. -/
theorem Arena.head_next (hA : Arena h (l ++ a :: b :: r)) :
    h.head (extent 12 l + (12 + a.size)) = ⟨heapMagic, if b.used then 1 else 0,
      UInt32.ofNat (extent 12 l + (12 + a.size) + (12 + b.size)), UInt32.ofNat (extent 12 l)⟩ := by
  have hlinked := (linked_append.mp hA.linked).2
  rw [Nat.zero_add] at hlinked
  exact hlinked.2.1

theorem Arena.end_le (hA : Arena h (l ++ r)) :
    h.heapPtr.toNat + extent 12 l + extent 12 r + 12 < 2 ^ 32 := by
  have hlength := hA.length
  have hinside := hA.inside
  rw [extent_append] at hlength
  omega

/-- Assignments to two headers. -/
theorem head_modify_modify {f g : HeapMem → HeapMem} {x : Nat}
    (hp : h.heapPtr.toNat + p < 2 ^ 32) (hq : h.heapPtr.toNat + q < 2 ^ 32)
    (hx : h.heapPtr.toNat + x < 2 ^ 32) (hxp : x = p ∨ p + 12 ≤ x ∨ x + 12 ≤ p)
    (hxq : x = q ∨ q + 12 ≤ x ∨ x + 12 ≤ q) (hpq : p + 12 ≤ q ∨ q + 12 ≤ p) :
    ((h.modify (UInt32.ofNat p) f).modify (UInt32.ofNat q) g).head x =
      if x = q then g (h.head q) else if x = p then f (h.head p) else h.head x := by
  rw [head_modify (h := h.modify (UInt32.ofNat p) f) hq hx hxq,
    head_modify hp hq (.inr hpq), head_modify hp hx hxp, if_neg (by omega : ¬ q = p)]

/-- Joining two neighbours. -/
theorem arena_join (hA : Arena h (l ++ a :: b :: r)) (hp : p = extent 12 l)
    (hq : q = p + (12 + a.size)) :
    Arena (h.join (UInt32.ofNat p) (UInt32.ofNat q))
        (l ++ ⟨a.size + (12 + b.size), a.used⟩ :: r) ∧
      Keeps (live 12 0 (l ++ ⟨a.size + (12 + b.size), a.used⟩ :: r)) h
        (h.join (UInt32.ofNat p) (UInt32.ofNat q)) ∧
      (h.join (UInt32.ofNat p) (UInt32.ofNat q)).lfree = h.lfree ∧
      (h.join (UInt32.ofNat p) (UInt32.ofNat q)).usedMem = h.usedMem := by
  subst hp hq
  generalize hp : extent 12 l = p
  generalize hq : p + (12 + a.size) = q
  generalize hn : q + (12 + b.size) = n
  have hend := hA.end_le
  have hq' := hA.head_next
  simp only [extent_cons] at hend
  rw [hp, hq, hn] at hq'
  -- The header that is taken out is not the one that is assigned to first.
  have hjoin : h.join (UInt32.ofNat p) (UInt32.ofNat q) =
      (h.modify (UInt32.ofNat p) fun m => { m with next := UInt32.ofNat n }).modify
        (UInt32.ofNat n) fun m => { m with prev := UInt32.ofNat p } := by
    have hsame : (h.modify (UInt32.ofNat p) fun m => { m with next := UInt32.ofNat n }).head q =
        h.head q := by
      rw [head_modify (by omega) (by omega) (by omega), if_neg (by omega)]
    unfold head at hq' hsame
    simp only [join, hq', hsame]
  have hhead : ∀ x, (x = p ∨ p + 12 ≤ x ∨ x + 12 ≤ p) → (x = n ∨ n + 12 ≤ x ∨ x + 12 ≤ n) →
      h.heapPtr.toNat + x < 2 ^ 32 → (h.join (UInt32.ofNat p) (UInt32.ofNat q)).head x =
        if x = n then { h.head n with prev := UInt32.ofNat p }
        else if x = p then { h.head p with next := UInt32.ofNat n } else h.head x := by
    intro x hxp hxn hx
    rw [hjoin]
    exact head_modify_modify (by omega) (by omega) hx hxp hxn (by omega)
  -- The header that is taken out becomes room, so nothing moves.
  have hextent : extent 12 (l ++ ⟨a.size + (12 + b.size), a.used⟩ :: r) =
      extent 12 (l ++ a :: b :: r) := by
    simp only [extent_append, extent_cons]
    omega
  refine ⟨⟨?_, ?_, ?_, ?_, ?_⟩, ?_, ?_, ?_⟩
  · rcases linked_append.mp hA.linked with ⟨hl, hr⟩
    refine linked_append.mpr ⟨linked_congr (fun x c hmem => ?_) hl, ?_⟩
    · have hb := bounds_of_mem_placed hmem
      rw [hhead x (by omega) (by omega) (by omega), if_neg (by omega), if_neg (by omega)]
    · -- In front of the two blocks nothing has been assigned to; the rest is relinked.
      rw [Nat.zero_add, hp] at hr ⊢
      refine linked_join (n := n) (by omega) ?_ (fun hne => ?_) (fun x c hmem hne => ?_) hr
      · rw [hhead p (by omega) (by omega) (by omega), if_neg (by omega), if_pos rfl]
      · rw [hhead n (by omega) (by omega) (by omega), if_pos rfl]
      · have hb := bounds_of_mem_placed hmem
        have hle := le_of_mem_placed hmem hne
        rw [hhead x (by omega) (by omega) (by omega), if_neg (by omega), if_neg (by omega)]
  · rw [hextent, hA.length, hjoin]
    rfl
  · rw [hjoin]
    exact hA.inside
  · rw [hjoin]
    exact hA.start
  · intro c hc
    have hsizes := hA.sizes
    simp only [List.mem_append, List.mem_cons] at hc hsizes
    rcases hc with hc | rfl | hc
    · exact hsizes c (.inl hc)
    · have ha := hsizes a (.inr (.inl rfl))
      have hb := hsizes b (.inr (.inr (.inl rfl)))
      simp only
      omega
    · exact hsizes c (.inr (.inr (.inr hc)))
  · rw [hjoin]
    have hsplit : l ++ ⟨a.size + (12 + b.size), a.used⟩ :: r =
        (l ++ [⟨a.size + (12 + b.size), a.used⟩]) ++ r := by simp
    have hend' : h.heapPtr.toNat + extent 12 (l ++ ⟨a.size + (12 + b.size), a.used⟩ :: r) <
        2 ^ 32 := by
      rw [hextent]
      simp only [extent_append, extent_cons]
      omega
    -- Either assignment goes to a header that is still one, and so to no room.
    have hfirst := keeps_modify (f := fun m => { m with next := UInt32.ofNat n }) hend'
    rw [hp] at hfirst
    rw [hsplit] at hend' hfirst ⊢
    have hplace : extent 12 (l ++ [⟨a.size + (12 + b.size), a.used⟩]) = n := by
      simp only [extent_append, extent_cons, extent_nil]
      omega
    have hsecond := keeps_modify (h := h.modify (UInt32.ofNat p) fun m =>
      { m with next := UInt32.ofNat n }) (f := fun m => { m with prev := UInt32.ofNat p }) hend'
    rw [hplace] at hsecond
    exact hfirst.trans hsecond
  · rw [hjoin]
    rfl
  · rw [hjoin]
    rfl

theorem heapEnd_eq (h : Heap) : h.heapEnd = UInt32.ofNat (h.memSizeAligned.toNat + 12) := by
  rw [heapEnd, UInt32.ofNat_add, UInt32.ofNat_toNat]
  rfl

/-- Marking a block. -/
theorem arena_setUsed {f : HeapMem → HeapMem} {u : Bool} (hA : Arena h (l ++ b :: r))
    (hp : p = extent 12 l) (hf : f (h.head p) = { h.head p with used := if u then 1 else 0 }) :
    Arena (h.modify (UInt32.ofNat p) f) (l ++ ⟨b.size, u⟩ :: r) ∧
      Keeps (live 12 0 (l ++ ⟨b.size, u⟩ :: r)) h (h.modify (UInt32.ofNat p) f) := by
  subst hp
  have hend := hA.end_le
  simp only [extent_cons] at hend
  have hhead : ∀ x, (x = extent 12 l ∨ extent 12 l + 12 ≤ x ∨ x + 12 ≤ extent 12 l) →
      h.heapPtr.toNat + x < 2 ^ 32 → (h.modify (UInt32.ofNat (extent 12 l)) f).head x =
        if x = extent 12 l then { h.head x with used := if u then 1 else 0 } else h.head x := by
    intro x hxp hx
    rw [head_modify (by omega) hx hxp, hf]
    split
    · rename_i heq
      rw [heq]
    · rfl
  -- The mark is part of the header and takes no room.
  have hextent : extent 12 (l ++ ⟨b.size, u⟩ :: r) = extent 12 (l ++ b :: r) := by
    simp only [extent_append, extent_cons]
  refine ⟨⟨?_, ?_, hA.inside, hA.start, ?_⟩, ?_⟩
  · rcases linked_append.mp hA.linked with ⟨hl, hr⟩
    rw [Nat.zero_add] at hr
    refine linked_append.mpr ⟨linked_congr (fun x c hmem => ?_) hl, ?_⟩
    · have hb := bounds_of_mem_placed hmem
      rw [hhead x (by omega) (by omega), if_neg (by omega)]
    · rw [Nat.zero_add]
      refine ⟨?_, linked_congr (fun x c hmem => ?_) hr.2⟩
      · rw [hhead _ (.inl rfl) (by omega), if_pos rfl, hr.1]
      · have hb := bounds_of_mem_placed hmem
        simp only at hb
        rw [hhead x (by omega) (by omega), if_neg (by omega)]
  · rw [hextent]
    exact hA.length
  · intro c hc
    have hsizes := hA.sizes
    simp only [List.mem_append, List.mem_cons] at hc hsizes
    rcases hc with hc | rfl | hc
    · exact hsizes c (.inl hc)
    · exact hsizes b (.inr (.inl rfl))
    · exact hsizes c (.inr (.inr hc))
  · refine keeps_modify ?_
    rw [hextent]
    simp only [extent_append, extent_cons]
    omega

/-- The new header of a block that is cut, and the one in front of it. -/
def withCut (h : Heap) (p p2 n : Nat) : Heap :=
  (h.modify (UInt32.ofNat p2) fun _ => ⟨heapMagic, 0, UInt32.ofNat n, UInt32.ofNat p⟩).modify
    (UInt32.ofNat p) fun m => { m with next := UInt32.ofNat p2 }

/-- Cutting assigns to these two headers and to the one behind the block, if it is not the
    last one. -/
theorem cut_eq {p2 : Nat} (hA : Arena h (l ++ b :: r)) (hp : p = extent 12 l)
    (hp2 : p2 = p + (12 + s)) (hfit : s + 12 ≤ b.size) :
    h.cut (UInt32.ofNat p) (UInt32.ofNat p2) =
      if r = [] then withCut h p p2 (p + (12 + b.size))
      else (withCut h p p2 (p + (12 + b.size))).modify (UInt32.ofNat (p + (12 + b.size)))
        fun m => { m with prev := UInt32.ofNat p2 } := by
  subst hp
  have hend := hA.end_le
  have hlength := hA.length
  have hpos := hA.head_eq
  simp only [extent_append, extent_cons] at hend hlength
  generalize hn : extent 12 l + (12 + b.size) = n at hpos
  have hnext : (withCut h (extent 12 l) p2 n).head p2 =
      ⟨heapMagic, 0, UInt32.ofNat n, UInt32.ofNat (extent 12 l)⟩ := by
    rw [withCut, head_modify_modify (by omega) (by omega) (by omega) (.inl rfl) (by omega)
      (by omega), if_neg (by omega), if_pos rfl]
  -- There is a header to be told about the new one unless the block is the last.
  have hlast : UInt32.ofNat n ≠ (withCut h (extent 12 l) p2 n).heapEnd ↔ r ≠ [] := by
    have hmem : (withCut h (extent 12 l) p2 n).memSizeAligned = h.memSizeAligned := rfl
    rw [heapEnd_eq, hmem, Ne, ofNat_eq_iff (by omega) (by omega)]
    cases r with
    | nil =>
        rw [extent_nil] at hlength
        exact iff_of_false (fun hne => hne (by omega)) (fun hne => hne rfl)
    | cons c r =>
        rw [extent_cons] at hlength
        exact iff_of_true (by omega) (List.cons_ne_nil c r)
  unfold head at hpos hnext
  unfold withCut at hnext hlast
  simp only [cut, hpos, hnext, withCut, hlast, ne_eq, ite_not]

/-- The two headers are not in the room of the blocks there are afterwards. -/
theorem keeps_withCut {p2 n : Nat} {t : Nat} {u : Bool} (hp : p = extent 12 l)
    (hp2 : p2 = p + (12 + s))
    (hbelow : h.heapPtr.toNat + extent 12 (l ++ ⟨s, u⟩ :: ⟨t, false⟩ :: r) < 2 ^ 32) :
    Keeps (live 12 0 (l ++ ⟨s, u⟩ :: ⟨t, false⟩ :: r)) h (withCut h p p2 n) := by
  subst hp
  -- The new header is in front of the second of the two blocks.
  have hsplit : l ++ ⟨s, u⟩ :: ⟨t, false⟩ :: r = (l ++ [⟨s, u⟩]) ++ ⟨t, false⟩ :: r := by simp
  have hplace : extent 12 (l ++ [⟨s, u⟩]) = p2 := by
    simp only [extent_append, extent_cons, extent_nil]
    omega
  have hbelow' := hbelow
  rw [hsplit] at hbelow'
  have hfirst := keeps_modify (h := h)
    (f := fun _ => ⟨heapMagic, 0, UInt32.ofNat n, UInt32.ofNat (extent 12 l)⟩) hbelow'
  rw [hplace, ← hsplit] at hfirst
  have hsecond := keeps_modify (h := h.modify (UInt32.ofNat p2) fun _ =>
      ⟨heapMagic, 0, UInt32.ofNat n, UInt32.ofNat (extent 12 l)⟩)
    (f := fun m => { m with next := UInt32.ofNat p2 }) hbelow
  exact hfirst.trans hsecond

/-- Cutting a block in two. -/
theorem arena_cut {p2 : Nat} (hA : Arena h (l ++ b :: r)) (hp : p = extent 12 l)
    (hp2 : p2 = p + (12 + s)) (hfit : s + 12 ≤ b.size) (hs : s % 4 = 0) :
    Arena (h.cut (UInt32.ofNat p) (UInt32.ofNat p2))
        (l ++ ⟨s, b.used⟩ :: ⟨b.size - (s + 12), false⟩ :: r) ∧
      Keeps (live 12 0 (l ++ ⟨s, b.used⟩ :: ⟨b.size - (s + 12), false⟩ :: r)) h
        (h.cut (UInt32.ofNat p) (UInt32.ofNat p2)) ∧
      (h.cut (UInt32.ofNat p) (UInt32.ofNat p2)).lfree = h.lfree ∧
      (h.cut (UInt32.ofNat p) (UInt32.ofNat p2)).usedMem = h.usedMem := by
  have hcut := cut_eq hA hp hp2 hfit
  have hend := hA.end_le
  -- The links from the block on, which are those that change.
  have hhigh := (linked_append.mp hA.linked).2
  simp only [extent_cons] at hend
  rw [Nat.zero_add, ← hp] at hhigh
  have hextent : extent 12 (l ++ ⟨s, b.used⟩ :: ⟨b.size - (s + 12), false⟩ :: r) =
      extent 12 (l ++ b :: r) := by
    simp only [extent_append, extent_cons]
    omega
  have hbelow : h.heapPtr.toNat +
      extent 12 (l ++ ⟨s, b.used⟩ :: ⟨b.size - (s + 12), false⟩ :: r) < 2 ^ 32 := by
    rw [hextent]
    simp only [extent_append, extent_cons]
    omega
  have hkeeps := keeps_withCut (n := p + (12 + b.size)) hp hp2 hbelow
  generalize hn : p + (12 + b.size) = n at hcut hkeeps
  have hvars : (h.cut (UInt32.ofNat p) (UInt32.ofNat p2)).heapPtr = h.heapPtr ∧
      (h.cut (UInt32.ofNat p) (UInt32.ofNat p2)).memSizeAligned = h.memSizeAligned ∧
      (h.cut (UInt32.ofNat p) (UInt32.ofNat p2)).lfree = h.lfree ∧
      (h.cut (UInt32.ofNat p) (UInt32.ofNat p2)).usedMem = h.usedMem := by
    rw [hcut]
    split
    · exact ⟨rfl, rfl, rfl, rfl⟩
    · exact ⟨rfl, rfl, rfl, rfl⟩
  have hhead : ∀ x, (x = p ∨ p + 12 ≤ x ∨ x + 12 ≤ p) → (x = p2 ∨ p2 + 12 ≤ x ∨ x + 12 ≤ p2) →
      (x = n ∨ n + 12 ≤ x ∨ x + 12 ≤ n) → h.heapPtr.toNat + x < 2 ^ 32 →
      (h.cut (UInt32.ofNat p) (UInt32.ofNat p2)).head x =
        if x = n ∧ r ≠ [] then { h.head n with prev := UInt32.ofNat p2 }
        else if x = p then { h.head p with next := UInt32.ofNat p2 }
        else if x = p2 then ⟨heapMagic, 0, UInt32.ofNat n, UInt32.ofNat p⟩ else h.head x := by
    intro x hxp hxp2 hxn hx
    -- First the two assignments that are always made.
    have hhead2 : ∀ y, (y = p ∨ p + 12 ≤ y ∨ y + 12 ≤ p) →
        (y = p2 ∨ p2 + 12 ≤ y ∨ y + 12 ≤ p2) → h.heapPtr.toNat + y < 2 ^ 32 →
        (withCut h p p2 n).head y = if y = p then { h.head p with next := UInt32.ofNat p2 }
          else if y = p2 then ⟨heapMagic, 0, UInt32.ofNat n, UInt32.ofNat p⟩ else h.head y := by
      intro y hyp hyp2 hy
      exact head_modify_modify (by omega) (by omega) hy hyp2 hyp (by omega)
    rw [hcut]
    split
    · rename_i hr
      have hno : ¬ (x = n ∧ r ≠ []) := fun hc => hc.2 hr
      rw [if_neg hno]
      exact hhead2 x hxp hxp2 hx
    · rename_i hr
      have hptr : (withCut h p p2 n).heapPtr = h.heapPtr := rfl
      rw [head_modify (by rw [hptr]; omega) (by rw [hptr]; exact hx) hxn,
        hhead2 x hxp hxp2 hx, hhead2 n (by omega) (by omega) (by omega),
        if_neg (by omega : ¬ n = p), if_neg (by omega : ¬ n = p2)]
      simp only [hr, ne_eq, not_false_eq_true, and_true]
  refine ⟨⟨?_, ?_, ?_, ?_, ?_⟩, ?_, hvars.2.2.1, hvars.2.2.2⟩
  · refine linked_append.mpr ⟨linked_congr (fun x c hmem => ?_) (linked_append.mp hA.linked).1, ?_⟩
    · have hb := bounds_of_mem_placed hmem
      rw [hhead x (by omega) (by omega) (by omega) (by omega), if_neg (by omega),
        if_neg (by omega), if_neg (by omega)]
    · rw [Nat.zero_add, ← hp]
      refine linked_cut hp2 hn.symm hfit ?_ ?_ (fun hr => ?_) (fun x c hmem hne => ?_) hhigh
      · rw [hhead p (.inl rfl) (by omega) (by omega) (by omega), if_neg (by omega), if_pos rfl]
      · rw [hhead p2 (by omega) (.inl rfl) (by omega) (by omega), if_neg (by omega),
          if_neg (by omega), if_pos rfl]
      · rw [hhead n (by omega) (by omega) (.inl rfl) (by omega), if_pos ⟨rfl, hr⟩]
      · have hb := bounds_of_mem_placed hmem
        have hle := le_of_mem_placed hmem hne
        rw [hhead x (by omega) (by omega) (by omega) (by omega), if_neg (by omega),
          if_neg (by omega), if_neg (by omega)]
  · rw [hextent, hA.length, hvars.2.1]
  · rw [hvars.1, hvars.2.1]
    exact hA.inside
  · rw [hvars.1]
    exact hA.start
  · intro c hc
    have hsizes := hA.sizes
    have hb := hsizes b (by simp)
    simp only [List.mem_append, List.mem_cons] at hc hsizes
    rcases hc with hc | rfl | rfl | hc
    · exact hsizes c (.inl hc)
    · exact hs
    · simp only
      omega
    · exact hsizes c (.inr (.inr hc))
  · rw [hcut]
    split
    · exact hkeeps
    · -- The header behind the block is that of the first one of `r`.
      have hsplit : l ++ ⟨s, b.used⟩ :: ⟨b.size - (s + 12), false⟩ :: r =
          (l ++ [⟨s, b.used⟩, ⟨b.size - (s + 12), false⟩]) ++ r := by simp
      have hplace : extent 12 (l ++ [⟨s, b.used⟩, ⟨b.size - (s + 12), false⟩]) = n := by
        simp only [extent_append, extent_cons, extent_nil]
        omega
      have hbelow' : (withCut h p p2 n).heapPtr.toNat +
          extent 12 (l ++ ⟨s, b.used⟩ :: ⟨b.size - (s + 12), false⟩ :: r) < 2 ^ 32 := hbelow
      rw [hsplit] at hkeeps hbelow' ⊢
      have hthird := keeps_modify (f := fun m => { m with prev := UInt32.ofNat p2 }) hbelow'
      rw [hplace] at hthird
      exact hkeeps.trans hthird

end Steps

end Heap

end Firmware
