import Firmware.Heap.Layout
import Firmware.Heap.Realloc

/-!
# The Most That Was in Use

`max_mem`, by which a developer decides how large the heap has to be.

Only `rt_malloc` raises it, in the branch that adds to `used_mem`, and nothing lowers it.
That makes it the most that was in use at any time only because `used_mem` grows nowhere
else: `rt_free` and `rt_realloc` take away from it, and what they take away is there, so it
does not wrap around. `maxMem_peak` is about the states between the calls of all threads.

## Main definitions

* `peak`: The largest value of `used_mem` in the states of a run.

## Theorems

* `rtMalloc_maxMem`, `rtFree_maxMem`, `resize_maxMem`: What the calls do to `max_mem`.
* `maxMem_step`: One step of each kind.
* `maxMem_peak`: `max_mem` behind a run.
-/

namespace Firmware

open Blocks

namespace Heap

/-- The largest value of `used_mem` in the states of a run. -/
def peak : HeapUse → List HeapEvent → Nat
  | s, [] => s.heap.usedMem.toNat
  | s, e :: events =>
      match useStep s e with
      | none => s.heap.usedMem.toNat
      | some s' => max s.heap.usedMem.toNat (peak s' events)

section Calls

variable {h h' : Heap}

theorem cut_counters (ptr ptr2 : UInt32) :
    (h.cut ptr ptr2).usedMem = h.usedMem ∧ (h.cut ptr ptr2).maxMem = h.maxMem := by
  unfold cut
  simp only
  split
  · exact ⟨rfl, rfl⟩
  · exact ⟨rfl, rfl⟩

theorem plugForward_maxMem (mem : UInt32) : (h.plugForward mem).maxMem = h.maxMem := by
  unfold plugForward
  simp only
  split
  · split
    · rfl
    · rfl
  · rfl

theorem plugBackward_maxMem (mem : UInt32) : (h.plugBackward mem).maxMem = h.maxMem := by
  unfold plugBackward
  simp only
  split
  · split
    · rfl
    · rfl
  · rfl

theorem plugHoles_maxMem {mem : UInt32} (hp : h.plugHoles mem = some h') :
    h'.maxMem = h.maxMem := by
  unfold plugHoles at hp
  split at hp
  · rw [Option.some.injEq] at hp
    rw [← hp, plugBackward_maxMem, plugForward_maxMem]
  · exact absurd hp (by simp)

theorem rtFree_maxMem {rmem : UInt32} (hf : h.rtFree rmem = some h') :
    h'.maxMem = h.maxMem := by
  -- The header is written and `used_mem` lowered before the holes are plugged.
  have hrelease : ∀ mem, (h.release mem).maxMem = h.maxMem := by
    intro mem
    unfold release
    simp only
    split
    · rfl
    · rfl
  unfold rtFree at hf
  split at hf
  · rw [Option.some.injEq] at hf
    rw [hf]
  · split at hf
    · simp only at hf
      split at hf
      · rw [plugHoles_maxMem hf, hrelease]
      · exact absurd hf (by simp)
    · exact absurd hf (by simp)

theorem resize_maxMem {rmem newsize : UInt32} {d : Bool}
    (hr : h.resize rmem newsize = some (d, h')) : h'.maxMem = h.maxMem := by
  unfold resize at hr
  simp only at hr
  -- The size is the old one, the block is cut, or it has to be moved.
  split at hr
  · rw [Option.some.injEq, Prod.mk.injEq] at hr
    rw [hr.2]
  · split at hr
    · rw [Option.some.injEq, Prod.mk.injEq] at hr
      rw [hr.2]
    · split at hr
      · rw [Option.map_eq_some_iff] at hr
        rcases hr with ⟨h₁, hplug, heq⟩
        rw [Prod.mk.injEq] at heq
        rw [← heq.2, plugHoles_maxMem hplug, (cut_counters _ _).2]
      · rw [Option.some.injEq, Prod.mk.injEq] at hr
        rw [hr.2]

/-- Looking for the next free block counts nothing. -/
theorem raiseLfree_counters {fuel : Nat} (hr : raiseLfree fuel h = some h') :
    h'.usedMem = h.usedMem ∧ h'.maxMem = h.maxMem := by
  induction fuel generalizing h with
  | zero => exact absurd hr (by simp [raiseLfree])
  | succ fuel ih =>
      unfold raiseLfree at hr
      split at hr
      · have hrest := ih hr
        exact hrest
      · rw [Option.some.injEq] at hr
        rw [hr]
        exact ⟨rfl, rfl⟩

theorem account_maxMem (h : Heap) (size : UInt32) :
    (h.account size).maxMem.toNat = max h.maxMem.toNat (h.account size).usedMem.toNat := by
  unfold account
  simp only [UInt32.lt_iff_toNat_lt]
  split
  · omega
  · omega

/-- Both branches of `rt_malloc` count the block they take. -/
theorem use_maxMem (mem size : UInt32) :
    (h.use mem size).maxMem.toNat = max h.maxMem.toNat (h.use mem size).usedMem.toNat := by
  have hacc : ∀ (h₁ : Heap) (n : UInt32), h₁.maxMem = h.maxMem →
      (h₁.account n).maxMem.toNat = max h.maxMem.toNat (h₁.account n).usedMem.toNat := by
    intro h₁ n hsame
    rw [account_maxMem, hsame]
  unfold use
  simp only
  split
  · exact hacc _ _ (cut_counters _ _).2
  · exact hacc _ _ rfl

theorem rtMalloc_maxMem {size p : UInt32} (hm : h.rtMalloc size = some (p, h')) :
    h' = h ∨ h'.maxMem.toNat = max h.maxMem.toNat h'.usedMem.toNat := by
  -- Behind the count only `lfree` may still be moved.
  have htake : ∀ mem n, h.take mem n = some (p, h') →
      h'.maxMem.toNat = max h.maxMem.toNat h'.usedMem.toNat := by
    intro mem n ht
    unfold take at ht
    split at ht
    · exact absurd ht (by simp)
    · rename_i h₁ hfound
      have hcount : h₁.usedMem = (h.use mem n).usedMem ∧ h₁.maxMem = (h.use mem n).maxMem := by
        split at hfound
        · exact raiseLfree_counters hfound
        · rw [Option.some.injEq] at hfound
          rw [hfound]
          exact ⟨rfl, rfl⟩
      split at ht
      · rw [Option.some.injEq, Prod.mk.injEq] at ht
        rw [← ht.2, hcount.1, hcount.2]
        exact use_maxMem mem n
      · exact absurd ht (by simp)
  unfold rtMalloc at hm
  simp only at hm
  split at hm
  · rw [Option.some.injEq, Prod.mk.injEq] at hm
    exact .inl hm.2.symm
  · split at hm
    · rw [Option.some.injEq, Prod.mk.injEq] at hm
      exact .inl hm.2.symm
    · split at hm
      · exact absurd hm (by simp)
      · rw [Option.some.injEq, Prod.mk.injEq] at hm
        exact .inl hm.2.symm
      · exact .inr (htake _ _ hm)

end Calls

section Steps

variable {s s' : HeapUse} {bs : List Block}

/-- What takes the place of a block is not longer, so less is in use than before. -/
theorem Holds.usedMem_le {h h' : Heap} {bs' : List Block} {p n : Nat} {L M R : List (Nat × Nat)}
    (hh : Holds h bs) (hh' : Holds h' bs') (hL : live 12 0 bs = L ++ (p, n) :: R)
    (hL' : live 12 0 bs' = L ++ (M ++ R)) (hM : (M.map fun x => 12 + x.2).sum ≤ 12 + n) :
    h'.usedMem.toNat ≤ h.usedMem.toNat := by
  -- Both counters are sums over the blocks in use, which differ in one block.
  rw [hh.toNat_usedMem, hh'.toNat_usedMem, usedExtent_eq_sum 0 bs, usedExtent_eq_sum 0 bs', hL,
    hL']
  simp only [List.map_append, List.map_cons, List.sum_append, List.sum_cons]
  omega

/-- One step: `max_mem` is raised to what is in use. -/
theorem maxMem_step (hR : Represents s bs) {e : HeapEvent} (hl : Legal s e)
    (hs : useStep s e = some s') (hle : s.heap.usedMem.toNat ≤ s.heap.maxMem.toNat) :
    s'.heap.maxMem.toNat = max s.heap.maxMem.toNat s'.heap.usedMem.toNat := by
  cases e with
  | malloc size =>
      rcases malloc_cases hs with ⟨p, h, hcall, hcase⟩
      have hheap : s'.heap = h := by
        rcases hcase with ⟨-, rfl⟩ | ⟨-, rfl⟩
        · rfl
        · rfl
      rw [hheap]
      rcases rtMalloc_maxMem hcall with rfl | hmax
      · omega
      · exact hmax
  | free rmem =>
      rcases free_cases hs with ⟨h, hcall, rfl⟩
      have hmax := rtFree_maxMem hcall
      by_cases hnull : rmem = rtNull
      · rw [rtFree, if_pos hnull, Option.some.injEq] at hcall
        simp only [← hcall]
        omega
      · rcases hl.resolve_left hnull with ⟨d, hd⟩
        rcases hR.owned rmem d hd with ⟨o, n, ho, rfl, -⟩
        rcases rtFree_spec hR.holds ho with ⟨h', bs', L, R, hcall', hh', hL, hL', -⟩
        rw [hcall, Option.some.injEq] at hcall'
        subst hcall'
        -- Nothing takes the place of the block.
        have hless := hR.holds.usedMem_le (M := []) hh' hL hL' (Nat.zero_le _)
        simp only [hmax]
        omega
  | resize rmem newsize =>
      have hcall : ∃ b, s.heap.resize rmem newsize = some (b, s'.heap) := by
        rcases resize_cases hs with ⟨h, ⟨hcall, rfl⟩ | ⟨hcall, rfl⟩⟩
        · exact ⟨true, hcall⟩
        · exact ⟨false, hcall⟩
      -- Whether the block has to be moved makes no difference to the counters.
      rcases hcall with ⟨b, hcall⟩
      have hmax := resize_maxMem hcall
      rcases hl with ⟨⟨d, hd⟩, hzero, hmod, hsize⟩
      have hpos : 0 < newsize.toNat := by
        refine Nat.pos_of_ne_zero fun h => hzero ?_
        rw [← UInt32.toNat_inj, h]
        rfl
      rcases hR.owned rmem d hd with ⟨o, n, ho, rfl, -⟩
      have hspec := resize_spec hR.holds ho hpos hmod (UInt32.le_iff_toNat_le.mp hsize)
      rw [UInt32.ofNat_toNat, hcall] at hspec
      -- Unless the block is cut, the heap is as it was.
      rcases hspec with ⟨-, heq⟩ | ⟨-, -, heq⟩ | ⟨hlong, h', bs', L, R, heq, hh', hL, hL', -⟩
      · rw [Option.some.injEq, Prod.mk.injEq] at heq
        rw [heq.2]
        omega
      · rw [Option.some.injEq, Prod.mk.injEq] at heq
        rw [heq.2]
        omega
      · rw [Option.some.injEq, Prod.mk.injEq] at heq
        rw [← heq.2] at hh'
        have hsum : (([(o, newsize.toNat)] : List (Nat × Nat)).map fun x => 12 + x.2).sum ≤
            12 + n := by
          simp only [List.map_cons, List.map_nil, List.sum_cons, List.sum_nil]
          omega
        have hless := hR.holds.usedMem_le hh' hL hL' hsum
        rw [hmax]
        omega
  | store rmem i bytes =>
      rw [useStep, Option.some.injEq] at hs
      rw [← hs]
      simp only
      omega

end Steps

section Runs

variable {ram : Memory UInt8} {beginAddr endAddr : UInt32} {h₀ : Heap} {events : List HeapEvent}
  {t : HeapUse}

theorem le_peak (s : HeapUse) (events : List HeapEvent) :
    s.heap.usedMem.toNat ≤ peak s events := by
  cases events with
  | nil => exact le_refl _
  | cons e events =>
      rw [peak]
      split
      · exact le_refl _
      · exact le_max_left _ _

/-- The induction is on the steps that are still ahead. -/
theorem run_maxMem {s : HeapUse} (hI : ∃ bs, Represents s bs)
    (hle : s.heap.usedMem.toNat ≤ s.heap.maxMem.toNat) (hl : Along useStep Legal s events)
    (ht : run useStep s events = some t) :
    t.heap.maxMem.toNat = max s.heap.maxMem.toNat (peak s events) := by
  induction events generalizing s with
  | nil =>
      rw [run_nil, Option.some.injEq] at ht
      rw [← ht, peak]
      omega
  | cons e events ih =>
      rcases run_cons_some useStep ht with ⟨s', hs, hr⟩
      rcases hI with ⟨bs, hR⟩
      -- `used_mem` is at most `max_mem` in every state, which carries the induction.
      have hstep := maxMem_step hR hl.1 hs hle
      have hrest := ih (use_keeps s e s' ⟨bs, hR⟩ hl.1 hs) (by omega) (hl.2 s' hs) hr
      have hnext := le_peak s' events
      have hpeak : peak s (e :: events) = max s.heap.usedMem.toNat (peak s' events) := by
        simp only [peak, hs]
      rw [hrest, hpeak]
      omega

/-- `max_mem` is the most that has been in use. -/
theorem maxMem_peak (hinit : rtSystemHeapInit ram beginAddr endAddr = some h₀)
    (hroom : 12 ≤ h₀.memSizeAligned.toNat)
    (hl : Along useStep Legal ⟨h₀, fun _ => none⟩ events)
    (ht : run useStep ⟨h₀, fun _ => none⟩ events = some t) :
    t.heap.maxMem.toNat = peak ⟨h₀, fun _ => none⟩ events := by
  -- A new heap has counted nothing.
  have hzero : h₀.usedMem = 0 ∧ h₀.maxMem = 0 := by
    unfold rtSystemHeapInit at hinit
    simp only at hinit
    split at hinit
    · rw [Option.some.injEq] at hinit
      rw [← hinit]
      exact ⟨rfl, rfl⟩
    · exact absurd hinit (by simp)
  have hmax := run_maxMem ⟨_, represents_init hinit hroom⟩ (by rw [hzero.1, hzero.2]) hl ht
  simp only [hzero.2] at hmax
  rw [hmax]
  exact Nat.zero_max _

theorem maxMem_peak_someUse : ∃ t, run useStep ⟨smallHeap, fun _ => none⟩ someUse = some t ∧
    t.heap.maxMem.toNat = peak ⟨smallHeap, fun _ => none⟩ someUse := by
  rcases use_total ⟨_, represents_init smallHeap_init smallHeap_room⟩ someUse_legal with ⟨t, ht⟩
  exact ⟨t, ht, maxMem_peak smallHeap_init smallHeap_room someUse_legal ht⟩

end Runs

end Heap

end Firmware
