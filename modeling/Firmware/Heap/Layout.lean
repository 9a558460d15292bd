import Firmware.Heap.Client

/-!
# What the Headers Say

The blocks of a heap, read off its headers, and what is true of them whatever has been
allocated and given back.

`Heap.blocks` follows the headers as the allocator does. Everything the allocator is there
for can be said of the list it gives: no byte of the heap is lost, whatever is free is one
block as long as nothing in use lies between, `used_mem` is what is in use, and a heap of
which everything has been given back is as it was at the beginning. `Accounted` says so.

Whether `rt_malloc` finds a block that is free depends on `lfree`, for it begins to search
there. `rt_realloc` cuts off the end of a block without lowering `lfree`, and what it cuts
off in front of it is not found until a block further in front is given back, or the one
`lfree` points to. `lowest_iff` says that there is no other way to lose a free block, and
`malloc_complete` that one that is not lost is given away, unless it is the last one and
would be filled completely.

## Main definitions

* `Heap.blocks`: The blocks as the headers have them.
* `Accounted`: Nothing of the heap is lost.
* `Complete`: What is free can be allocated.

## Theorems

* `blocks_eq`: The list of an `Arena` is the one that is read.
* `heap_accounts`: Every run keeps account of every block.
* `lowest_iff`: The runs that lose no free block.
* `malloc_complete`: What such a run can allocate.
-/

namespace Firmware

open Blocks

namespace Heap

/-- The blocks whose headers follow from an offset on, up to `heap_end`. -/
def blocksFrom (h : Heap) : Nat → UInt32 → List Block
  | 0, _ => []
  | fuel + 1, ptr =>
      if ptr = h.heapEnd then []
      else
        let mem := h.header ptr
        ⟨(mem.next - ptr - sizeofStructMem).toNat, mem.used ≠ 0⟩ :: h.blocksFrom fuel mem.next

/-- The blocks as the headers have them. -/
def blocks (h : Heap) : List Block := h.blocksFrom h.turns 0

/-- Nothing of the heap is lost: the blocks fill it, those in use are those that have been
    given away, and if there are none the heap is as it was at the beginning. -/
structure Accounted (s : HeapUse) : Prop where
  covers : extent 12 s.heap.blocks = s.heap.memSizeAligned.toNat + 12
  settled : Settled s.heap.blocks
  usedMem : s.heap.usedMem.toNat = usedExtent 12 s.heap.blocks
  inUse : ∀ p, (∃ d, s.view p = some d) ↔
    ∃ o n, (o, n) ∈ live 12 0 s.heap.blocks ∧ p.toNat = s.heap.heapPtr.toNat + o + 12
  idle : (∀ p, s.view p = none) → s.heap.blocks = [⟨s.heap.memSizeAligned.toNat, false⟩] ∧
    s.heap.lfree = 0 ∧ s.heap.usedMem = 0

/-- What is free can be allocated: `rt_malloc` gives nothing only if nothing is asked for or
    no free block has enough room, apart from one that would be filled to the end of the
    heap. -/
def Complete (s : HeapUse) : Prop :=
  ∀ size, (∃ h, s.heap.rtMalloc size = some (rtNull, h)) ↔
    size = 0 ∨ ∀ q n, (q, ⟨n, false⟩) ∈ placed 12 0 s.heap.blocks → need size ≤ n →
      n = need size ∧ q + n = s.heap.memSizeAligned.toNat

section Walk

variable {h : Heap} {l r bs : List Block}

/-- The walk along the headers. The induction is on the blocks that are still ahead. -/
theorem blocksFrom_eq {fuel : Nat} (hA : Arena h (l ++ r)) (hfuel : r.length < fuel) :
    h.blocksFrom fuel (UInt32.ofNat (extent 12 l)) = r := by
  induction r generalizing l fuel with
  | nil =>
      have hlength := hA.length
      rw [List.append_nil] at hlength
      cases fuel with
      | zero => exact absurd hfuel (Nat.not_lt_zero _)
      | succ fuel => rw [blocksFrom, heapEnd_eq, hlength, if_pos rfl]
  | cons b r ih =>
      cases fuel with
      | zero => exact absurd hfuel (Nat.not_lt_zero _)
      | succ fuel =>
          have hend := hA.end_le
          have hlength := hA.length
          have hpos := hA.head_eq
          unfold head at hpos
          rw [extent_append, extent_cons] at hlength
          rw [extent_cons] at hend
          -- A header that is not the last one is in front of it.
          have hne : UInt32.ofNat (extent 12 l) ≠ h.heapEnd := by
            rw [heapEnd_eq, Ne, ofNat_eq_iff (by omega) (by omega)]
            omega
          have hplace : extent 12 l + (12 + b.size) = extent 12 (l ++ [b]) := by
            rw [extent_append, extent_cons, extent_nil, Nat.add_zero]
          have hrest := ih (l := l ++ [b]) (by rwa [List.append_assoc])
            (Nat.lt_of_succ_lt_succ hfuel)
          rw [blocksFrom, if_neg hne]
          simp only [hpos, size_eq, toNat_ofNat (by omega : b.size < 2 ^ 32)]
          rw [hplace, hrest]
          congr 1
          rcases b with ⟨n, _ | _⟩
          · rfl
          · rfl

/-- The list of an `Arena` is the one that is read. -/
theorem Arena.blocks_eq (hA : Arena h bs) : h.blocks = bs :=
  blocksFrom_eq (l := []) hA (Arena.length_lt_turns (l := []) hA)

end Walk

section Counts

variable {s : HeapUse} {bs : List Block}

/-- The blocks in use are not longer than the heap. -/
theorem Holds.toNat_usedMem {h : Heap} (hh : Holds h bs) :
    h.usedMem.toNat = usedExtent 12 bs := by
  have hle : usedExtent 12 bs ≤ extent 12 bs := usedExtent_le bs
  have hlength := hh.length
  have hinside := hh.inside
  rw [hh.usedMem, toNat_ofNat (by omega)]

/-- Nothing of the heap is lost. -/
theorem Represents.accounted (hR : Represents s bs) : Accounted s := by
  have hblocks := hR.holds.toArena.blocks_eq
  have hused := hR.holds.toNat_usedMem
  refine ⟨?_, ?_, ?_, fun p => ?_, fun hnone => ?_⟩
  · rw [hblocks]
    exact hR.holds.length
  · rw [hblocks]
    exact hR.holds.settled
  · rw [hblocks]
    exact hused
  · rw [hblocks]
    constructor
    · intro ⟨d, hd⟩
      rcases hR.owned p d hd with ⟨o, n, ho, rfl, -⟩
      exact ⟨o, n, ho, (hR.holds.toNat_addr ho).1⟩
    · intro ⟨o, n, ho, hp⟩
      have haddr := (hR.holds.toNat_addr ho).1
      have hpo : p = UInt32.ofNat (s.heap.heapPtr.toNat + o + 12) := by
        rw [← UInt32.toNat_inj, hp, haddr]
      rw [hpo]
      exact hR.given o n ho
  · -- A block in use would be known to somebody.
    have hnil : live 12 0 bs = [] := by
      refine List.eq_nil_iff_forall_not_mem.mpr fun ⟨o, n⟩ ho => ?_
      rcases hR.given o n ho with ⟨d, hd⟩
      rw [hnone] at hd
      exact absurd hd (by simp)
    have hbs := hR.holds.eq_of_idle hnil
    refine ⟨by rw [hblocks, hbs], hR.idle hnil, ?_⟩
    rw [← UInt32.toNat_inj, hused, hbs]
    rfl

/-- What is free can be allocated if `lfree` is not behind it. -/
theorem Represents.complete (hR : Represents s bs) (hlow : Lowest 12 bs s.heap.lfree.toNat) :
    Complete s := by
  intro size
  have hlength := hR.holds.length
  rw [hR.holds.toArena.blocks_eq]
  -- A block that would end with the heap has no byte more than is asked for.
  have hno : NoFit s.heap bs size ↔ ∀ q n, (q, ⟨n, false⟩) ∈ placed 12 0 bs → need size ≤ n →
      n = need size ∧ q + n = s.heap.memSizeAligned.toNat := by
    constructor
    · intro hno q n hmem hfit
      have hb := bounds_of_mem_placed hmem
      have hle := hno q n hmem (hlow q n hmem) hfit
      simp only at hb
      omega
    · intro hlast q n hmem _ hfit
      rcases hlast q n hmem hfit with ⟨hn, hq⟩
      omega
  rw [← hno]
  rcases rtMalloc_spec hR.holds hR.room size with
    ⟨a, h', bs', hcall, hh, hk, -, ⟨rfl, rfl, rfl, hnull⟩ | ⟨o, n, L, R, rfl, -, -, hL', hne, hfit⟩⟩
  · exact iff_of_true ⟨_, hcall⟩ hnull
  · refine iff_of_false (fun ⟨h, hc⟩ => ?_) (not_or.mpr ⟨hne, hfit⟩)
    have haddr := hh.toNat_addr (o := o) (n := n) (by rw [hL']; simp)
    rw [hk.heapPtr] at haddr
    rw [hcall, Option.some.injEq, Prod.mk.injEq, ← UInt32.toNat_inj, haddr.1] at hc
    exact absurd hc.1 (Nat.succ_ne_zero _)

end Counts

section Runs

variable {ram : Memory UInt8} {beginAddr endAddr : UInt32} {h₀ : Heap} {events : List HeapEvent}

/-- Every run keeps account of every block. -/
theorem heap_accounts (hinit : rtSystemHeapInit ram beginAddr endAddr = some h₀)
    (hroom : 12 ≤ h₀.memSizeAligned.toNat)
    (hl : Along useStep Legal ⟨h₀, fun _ => none⟩ events) :
    Always useStep Accounted ⟨h₀, fun _ => none⟩ events := by
  refine always_of_invariant useStep (fun s => ∃ bs, Represents s bs) use_keeps ?_
    ⟨_, represents_init hinit hroom⟩ hl
  intro s ⟨bs, hR⟩
  exact hR.accounted

theorem heap_accounts_someUse :
    Always useStep Accounted ⟨smallHeap, fun _ => none⟩ someUse :=
  heap_accounts smallHeap_init smallHeap_room someUse_legal

/-- One step and the first free block. -/
theorem lowest_step {s s' : HeapUse} {e : HeapEvent} (hI : ∃ bs, Represents s bs)
    (hl : Legal s e) (hs : useStep s e = some s')
    (hlow : Lowest 12 s.heap.blocks s.heap.lfree.toNat) :
    Lowest 12 s'.heap.blocks s'.heap.lfree.toNat ↔ NoHole s e := by
  rcases hI with ⟨bs, hR⟩
  rcases use_step hR hl with ⟨t, bs', ht, hR', -, hiff⟩
  rw [ht, Option.some.injEq] at hs
  rw [hR.holds.toArena.blocks_eq] at hlow
  rw [← hs, hR'.holds.toArena.blocks_eq]
  exact hiff hlow

theorem lowest_init (hinit : rtSystemHeapInit ram beginAddr endAddr = some h₀) :
    Lowest 12 h₀.blocks h₀.lfree.toNat := by
  intro q n _
  rw [(holds_init hinit).2]
  exact Nat.zero_le q

/-- `lfree` points to the first free block throughout a run exactly if no block is cut off
    in front of it. -/
theorem lowest_iff (hinit : rtSystemHeapInit ram beginAddr endAddr = some h₀)
    (hroom : 12 ≤ h₀.memSizeAligned.toNat)
    (hl : Along useStep Legal ⟨h₀, fun _ => none⟩ events) :
    Along useStep NoHole ⟨h₀, fun _ => none⟩ events ↔
      Always useStep (fun s => Lowest 12 s.heap.blocks s.heap.lfree.toNat)
        ⟨h₀, fun _ => none⟩ events := by
  have h0 : ∃ bs, Represents ⟨h₀, fun _ => none⟩ bs := ⟨_, represents_init hinit hroom⟩
  rcases use_total h0 hl with ⟨t, ht⟩
  refine along_iff_always useStep use_keeps ?_ ?_ h0 (lowest_init hinit) hl ht
  · intro s e s' hI hlow hle hno hs
    exact (lowest_step hI hle hs hlow).mpr hno
  · intro s e s' hI hlow hle hhole hs hlow'
    exact hhole ((lowest_step hI hle hs hlow).mp hlow')

theorem lowest_iff_someUse :
    Along useStep NoHole ⟨smallHeap, fun _ => none⟩ someUse ↔
      Always useStep (fun s => Lowest 12 s.heap.blocks s.heap.lfree.toNat)
        ⟨smallHeap, fun _ => none⟩ someUse :=
  lowest_iff smallHeap_init smallHeap_room someUse_legal

/-- A run that loses no free block can allocate what is free. -/
theorem malloc_complete (hinit : rtSystemHeapInit ram beginAddr endAddr = some h₀)
    (hroom : 12 ≤ h₀.memSizeAligned.toNat)
    (hl : Along useStep Legal ⟨h₀, fun _ => none⟩ events)
    (hno : Along useStep NoHole ⟨h₀, fun _ => none⟩ events) :
    Always useStep Complete ⟨h₀, fun _ => none⟩ events := by
  refine always_of_invariant useStep (fun s => (∃ bs, Represents s bs) ∧
    Lowest 12 s.heap.blocks s.heap.lfree.toNat) ?_ ?_
      ⟨⟨_, represents_init hinit hroom⟩, lowest_init hinit⟩ (along_and useStep hl hno)
  · intro s e s' ⟨hI, hlow⟩ ⟨hle, hnohole⟩ hs
    exact ⟨use_keeps s e s' hI hle hs, (lowest_step hI hle hs hlow).mpr hnohole⟩
  · intro s ⟨⟨bs, hR⟩, hlow⟩
    rw [hR.holds.toArena.blocks_eq] at hlow
    exact hR.complete hlow

/-- Two blocks that are given back in the order in which they were allocated. -/
def inOrder : List HeapEvent := [.malloc 40, .malloc 20, .free 0x100c, .free 0x1040]

theorem malloc_complete_inOrder : Always useStep Complete ⟨smallHeap, fun _ => none⟩ inOrder :=
  malloc_complete smallHeap_init smallHeap_room (by decide +kernel)
    ⟨trivial, fun _ _ => ⟨trivial, fun _ _ => ⟨trivial, fun _ _ => ⟨trivial, fun _ _ => trivial⟩⟩⟩⟩

end Runs

end Heap

end Firmware
