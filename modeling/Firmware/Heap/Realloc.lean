import Firmware.Heap.Client

/-!
# Reallocating and Clearing

`rt_realloc` and `rt_calloc`, which are made of the other calls.

`rt_realloc` gives the heap semaphore back before it allocates a new block, copies what is
in the old one without it, and takes it again to give the old block back. What it does is a
run of steps that a thread may take itself, with the steps of other threads in between, and
`realloc_spec` says what such a run does to the blocks if none come: a block that is
shortened stays where it is, and one that is moved takes its contents along. `NULL` is
returned only if `rt_malloc` refuses a block of the rounded size, and nothing has changed
then.

A size that is rounded up to nothing is another matter: `rt_realloc` takes the last three
for zero, and gives the block back.

## Main definitions

* `Refuses`: `rt_malloc` has no block of a size.
* `Reallocated`: What `rt_realloc` does to the blocks.
* `Cleared`: What `rt_calloc` does to them.

## Theorems

* `malloc_cases`, `free_cases`, `resize_cases`: What a step says about its call.
* `refuses_of_null`: Where `rt_malloc` gives `NULL`, nothing has changed.
* `move_spec`, `resize_move_spec`: The block is copied to a new one, if it has to be.
* `realloc_spec`, `calloc_spec`: The calls as runs of steps.
* `realloc_serves`: `rt_realloc` after any run.
* `calloc_serves`: `rt_calloc` after any run.
-/

namespace Firmware

open Blocks

namespace Heap

/-- `rt_malloc` has no block of this size, and gives `NULL` without a trace. -/
def Refuses (h : Heap) (size : UInt32) : Prop := h.rtMalloc size = some (rtNull, h)

/-- What `rt_realloc` does to the heap and to what is known of its blocks. -/
def Reallocated (s : HeapUse) (rmem newsize p : UInt32) (s' : HeapUse) : Prop :=
  if newsize = 0 then p = rtNull ∧ s'.view = Function.update s.view rmem none
  else (p = rtNull ∧ s' = s ∧ Refuses s.heap (rtAlign newsize)) ∨
    (p ≠ rtNull ∧ (p = rmem ∨ s.view p = none) ∧
      ∃ d', s'.view = Function.update (Function.update s.view rmem none) p (some d') ∧
        newsize.toNat ≤ d'.length ∧ ∀ d, s.view rmem = some d → ∀ i < newsize.toNat, ∀ x,
          d[i]? = some (some x) → d'[i]? = some (some x))

/-- What `rt_calloc` does to them. -/
def Cleared (s : HeapUse) (n : Nat) (p : UInt32) (s' : HeapUse) : Prop :=
  (p = rtNull ∧ s' = s ∧ Refuses s.heap (UInt32.ofNat n)) ∨ (p ≠ rtNull ∧ s.view p = none ∧
    s'.view = Function.update s.view p (some (List.replicate n (some 0))))

section Cases

variable {s s' : HeapUse} {bs : List Block}

theorem malloc_cases {size : UInt32} (hs : useStep s (.malloc size) = some s') :
    ∃ p h, s.heap.rtMalloc size = some (p, h) ∧
      ((p = rtNull ∧ s' = ⟨h, s.view⟩) ∨ (p ≠ rtNull ∧
        s' = ⟨h, Function.update s.view p (some (List.replicate size.toNat none))⟩)) := by
  simp only [useStep] at hs
  split at hs
  · exact absurd hs (by simp)
  · rename_i p h hcall
    refine ⟨p, h, hcall, ?_⟩
    split at hs
    · rename_i hnull
      exact .inl ⟨hnull, (Option.some.inj hs).symm⟩
    · rename_i hne
      exact .inr ⟨hne, (Option.some.inj hs).symm⟩

theorem free_cases {rmem : UInt32} (hs : useStep s (.free rmem) = some s') :
    ∃ h, s.heap.rtFree rmem = some h ∧
      s' = ⟨h, if rmem = rtNull then s.view else Function.update s.view rmem none⟩ := by
  simp only [useStep] at hs
  split at hs
  · exact absurd hs (by simp)
  · rename_i h hcall
    refine ⟨h, hcall, ?_⟩
    split at hs
    · rename_i hnull
      rw [if_pos hnull]
      exact (Option.some.inj hs).symm
    · rename_i hne
      rw [if_neg hne]
      exact (Option.some.inj hs).symm

theorem resize_cases {rmem newsize : UInt32} (hs : useStep s (.resize rmem newsize) = some s') :
    ∃ h, (s.heap.resize rmem newsize = some (true, h) ∧ s' =
        ⟨h, Function.update s.view rmem ((s.view rmem).map (fitted newsize.toNat))⟩) ∨
      (s.heap.resize rmem newsize = some (false, h) ∧ s' = ⟨h, s.view⟩) := by
  simp only [useStep] at hs
  split at hs
  · exact absurd hs (by simp)
  · rename_i h hcall
    exact ⟨h, .inl ⟨hcall, (Option.some.inj hs).symm⟩⟩
  · rename_i h hcall
    exact ⟨h, .inr ⟨hcall, (Option.some.inj hs).symm⟩⟩

/-- `rt_malloc` gives `NULL` only without touching anything. -/
theorem refuses_of_null {size : UInt32} {h : Heap} (hR : Represents s bs)
    (hcall : s.heap.rtMalloc size = some (rtNull, h)) : h = s.heap ∧ Refuses s.heap size := by
  rcases rtMalloc_spec hR.holds hR.room size with
    ⟨a, h', bs', hcall', hh, hkeeps, -, ⟨rfl, rfl, rfl, -⟩ | ⟨o, n, L, R, rfl, -, -, hL', -⟩⟩
  · rw [hcall', Option.some.injEq, Prod.mk.injEq] at hcall
    exact ⟨hcall.2.symm, hcall'⟩
  · -- The blocks that are given away have an address.
    have hmem : (o, n) ∈ live 12 0 bs' := by
      rw [hL']
      simp
    have haddr := (hh.toNat_addr hmem).1
    rw [hkeeps.heapPtr] at haddr
    rw [hcall', Option.some.injEq, Prod.mk.injEq] at hcall
    rw [hcall.1] at haddr
    exact absurd haddr.symm (Nat.succ_ne_zero _)

/-- `rt_malloc` refuses a size or gives a block that was not in use. -/
theorem malloc_spec (hR : Represents s bs) {size : UInt32} (hl : Legal s (.malloc size)) :
    ∃ p s' bs', s.heap.rtMalloc size = some (p, s'.heap) ∧ useStep s (.malloc size) = some s' ∧
      Represents s' bs' ∧ ((p = rtNull ∧ s' = s ∧ Refuses s.heap size) ∨
        (p ≠ rtNull ∧ s.view p = none ∧
          s'.view = Function.update s.view p (some (List.replicate size.toNat none)))) := by
  rcases use_step hR hl with ⟨s', bs', hs, hR', hfresh, -⟩
  rcases malloc_cases hs with ⟨p, h, hcall, ⟨rfl, rfl⟩ | ⟨hp, rfl⟩⟩
  · rcases refuses_of_null hR hcall with ⟨rfl, hrefuses⟩
    exact ⟨rtNull, s, bs', hcall, hs, hR', .inl ⟨rfl, rfl, hrefuses⟩⟩
  · exact ⟨p, _, bs', hcall, hs, hR', .inr ⟨hp, (hfresh p h hcall hp).1, rfl⟩⟩

/-- A size that is rounded up already is refused if the heap is not as long. -/
theorem refuses_of_lt {h : Heap} {size : UInt32} (hsize : size.toNat + 3 < 2 ^ 32)
    (hlt : h.memSizeAligned < rtAlign size) : Refuses h (rtAlign size) := by
  have hround := toNat_rtAlign size
  have hagain := toNat_rtAlign (rtAlign size)
  have hsame : rtAlign (rtAlign size) = rtAlign size := UInt32.toNat_inj.mp (by omega)
  have hne : rtAlign size ≠ 0 := by
    intro heq
    rw [heq, UInt32.lt_iff_toNat_lt] at hlt
    exact absurd hlt (Nat.not_lt_zero _)
  unfold Refuses rtMalloc
  rw [if_neg hne, hsame]
  exact if_pos hlt

/-- The first lock of `rt_realloc` changes nothing if a new block is needed. -/
theorem resize_false {h h' : Heap} {rmem m : UInt32} (hcall : h.resize rmem m = some (false, h')) :
    h' = h := by
  unfold resize at hcall
  split at hcall
  · simp at hcall
  · dsimp only at hcall
    split at hcall
    · simp at hcall
    · split at hcall
      · simp at hcall
      · rw [Option.some.injEq, Prod.mk.injEq] at hcall
        exact hcall.2.symm

/-- There is no block at `NULL`. -/
theorem Represents.view_null (hR : Represents s bs) : s.view rtNull = none := by
  refine Option.eq_none_iff_forall_ne_some.mpr fun d hd => ?_
  rcases hR.owned rtNull d hd with ⟨o, n, ho, hp, -⟩
  have haddr := (hR.holds.toNat_addr ho).1
  rw [← hp] at haddr
  exact absurd haddr.symm (Nat.succ_ne_zero _)

/-- A block that is known of has an address. -/
theorem Represents.ne_null {rmem : UInt32} {d : List (Option UInt8)} (hR : Represents s bs)
    (hd : s.view rmem = some d) : rmem ≠ rtNull := by
  intro heq
  rw [heq, hR.view_null] at hd
  exact absurd hd (by simp)

/-- The header in front of a block says how much room there is. -/
theorem Represents.length_le_room {rmem : UInt32} {d : List (Option UInt8)}
    (hR : Represents s bs) (hd : s.view rmem = some d) :
    d.length ≤ ((s.heap.header (s.heap.headerOf rmem)).next - s.heap.headerOf rmem -
      sizeofStructMem).toNat := by
  rcases hR.owned rmem d hd with ⟨o, n, ho, rfl, hlen, -⟩
  have haddr := hR.holds.toNat_addr ho
  have hinside := hR.holds.inside
  -- The header says where the next block begins, so the room is what it says.
  rcases live_split ho with ⟨l, r, rfl, hp, -⟩
  rw [Nat.zero_add] at hp
  have hpos := hR.holds.head_eq
  unfold head at hpos
  rw [← hp] at hpos
  simp only [headerOf_eq, hpos, size_eq]
  rw [toNat_ofNat (by omega)]
  exact hlen

end Cases

section Bytes

variable {i n : Nat} {xs : List UInt8} {d : List (Option UInt8)} {x : UInt8}

/-- What is known of a block is still known when it has another size, as far as it goes. -/
theorem getElem?_fitted (hi : i < n) (hx : d[i]? = some (some x)) :
    (fitted n d)[i]? = some (some x) := by
  rcases List.getElem?_eq_some_iff.mp hx with ⟨hlt, -⟩
  rw [fitted, List.getElem?_take_of_lt hi, List.getElem?_append_left hlt]
  exact hx

/-- What is written from the beginning on. -/
theorem getElem?_written (hi : i < xs.length) : (written 0 xs d)[i]? = some (some xs[i]) := by
  rw [written, List.take_zero, List.nil_append, List.getElem?_append_left (by simpa using hi),
    List.getElem?_map, List.getElem?_eq_getElem hi, Option.map_some]

/-- Writing to all of a block. -/
theorem written_replicate (n : Nat) (x : UInt8) (d : List (Option UInt8)) (hd : d.length = n) :
    written 0 (List.replicate n x) d = List.replicate n (some x) := by
  rw [written, List.take_zero, List.nil_append, List.map_replicate, List.length_replicate,
    Nat.zero_add, List.drop_eq_nil_of_le (by omega), List.append_nil]

end Bytes

section Move

variable {s : HeapUse} {bs : List Block} {rmem p m size : UInt32} {d e : List (Option UInt8)}

/-- Copying the beginning of a block to another one. -/
theorem copy_step (hR : Represents s bs) (hp : s.view p = some e) (hr : s.view rmem = some d)
    {n : Nat} (hn : n ≤ e.length) :
    ∃ s' d', useStep s (.store p 0 (s.heap.ram.read rmem.toNat n)) = some s' ∧
      Represents s' bs ∧ Legal s (.store p 0 (s.heap.ram.read rmem.toNat n)) ∧
      s'.heap = { s.heap with ram := s.heap.ram.store p.toNat (s.heap.ram.read rmem.toNat n) } ∧
      s'.view = Function.update s.view p (some d') ∧ d'.length = e.length ∧
      ∀ i < n, ∀ x, d[i]? = some (some x) → d'[i]? = some (some x) := by
  generalize hbytes : s.heap.ram.read rmem.toNat n = bytes
  have hlen : bytes.length = n := by rw [← hbytes, Memory.length_read]
  have hl : Legal s (.store p 0 bytes) := ⟨e, hp, by omega⟩
  rcases store_step hR hl with ⟨s', hs, hR', -⟩
  refine ⟨s', written 0 bytes e, hs, hR', hl, ?_, ?_, length_written (by omega),
    fun i hi x hx => ?_⟩
  · rw [useStep, Option.some.injEq] at hs
    rw [← hs]
    simp only [Nat.cast_zero, add_zero]
  · rw [useStep, Option.some.injEq] at hs
    rw [← hs, hp, Option.map_some]
  · -- What is known of the old block is in memory, so it is what has been read.
    have hval := hR.sound.contents rmem d i x hr hx
    have hin : i < bytes.length := by omega
    rw [Nat.cast_add] at hval
    rw [getElem?_written hin]
    simp only [← hbytes, Memory.getElem_read, hval]

/-- The block is copied to a new one, if there is one, and given back. -/
theorem move_spec (hR : Represents s bs) (hd : s.view rmem = some d) (hm : m.toNat + 3 < 2 ^ 32)
    (hlen : d.length ≤ size.toNat) :
    ∃ p s' more, s.heap.move rmem m size = some (p, s'.heap) ∧ Along useStep Legal s more ∧
      run useStep s more = some s' ∧
      ((p = rtNull ∧ s' = s ∧ Refuses s.heap m) ∨ (p ≠ rtNull ∧ s.view p = none ∧
        ∃ d', s'.view = Function.update (Function.update s.view rmem none) p (some d') ∧
          d'.length = m.toNat ∧ ∀ i < m.toNat, ∀ x,
            d[i]? = some (some x) → d'[i]? = some (some x))) := by
  have hlm : Legal s (.malloc m) := hm
  unfold move
  rcases malloc_spec hR hlm with
    ⟨p, s₁, bs₁, hcall, hs₁, hR₁, ⟨rfl, rfl, hrefuses⟩ | ⟨hp, hvp, hview⟩⟩
  · -- There is no room, and the old block is still there.
    refine ⟨rtNull, s₁, [.malloc m], ?_, along_cons useStep hs₁ hlm trivial, ?_,
      .inl ⟨rfl, rfl, hrefuses⟩⟩
    · simp only [hcall, ne_eq, not_true_eq_false, if_false]
    · rw [run_cons useStep hs₁, run_nil]
  · -- The new block was not in use, so it is another one.
    have hne : p ≠ rmem := by
      intro heq
      rw [heq, hd] at hvp
      exact absurd hvp (by simp)
    have hrmem : rmem ≠ rtNull := hR.ne_null hd
    have hp₁ : s₁.view p = some (List.replicate m.toNat none) := by
      rw [hview, Function.update_self]
    have hr₁ : s₁.view rmem = some d := by
      rw [hview, Function.update_of_ne (Ne.symm hne), hd]
    -- The smaller one of the two sizes is copied.
    generalize hn : (if size < m then size else m) = n
    have hnm : n.toNat ≤ m.toNat := by
      rw [← hn]
      split
      · rename_i hlt
        exact le_of_lt (UInt32.lt_iff_toNat_lt.mp hlt)
      · exact le_refl _
    have hfit : n.toNat ≤ (List.replicate m.toNat (none : Option UInt8)).length := by
      rwa [List.length_replicate]
    rcases copy_step hR₁ hp₁ hr₁ hfit with
      ⟨s₂, d', hs₂, hR₂, hl₂, hheap₂, hview₂, hlen', hknown⟩
    -- The old block is still there, and is given back.
    have hr₂ : s₂.view rmem = some d := by rw [hview₂, Function.update_of_ne (Ne.symm hne), hr₁]
    have hl₃ : Legal s₂ (.free rmem) := .inr ⟨d, hr₂⟩
    rcases use_step hR₂ hl₃ with ⟨s₃, bs₃, hs₃, -⟩
    rcases free_cases hs₃ with ⟨h₃, hfree, hs₃'⟩
    have hheap₃ : s₃.heap = h₃ := by rw [hs₃']
    refine ⟨p, s₃, [.malloc m, .store p 0 (s₁.heap.ram.read rmem.toNat n.toNat),
      .free rmem], ?_, along_cons useStep hs₁ hlm (along_cons useStep hs₂ hl₂
        (along_cons useStep hs₃ hl₃ trivial)), ?_, .inr ⟨hp, hvp, d', ?_, ?_, ?_⟩⟩
    · rw [hheap₂] at hfree
      simp only [hcall, hp, ne_eq, not_false_eq_true, if_true, hfree, Option.map_some, hheap₃]
    · rw [run_cons useStep hs₁, run_cons useStep hs₂, run_cons useStep hs₃, run_nil]
    · simp only [hs₃', if_neg hrmem, hview₂, hview]
      -- The view is written three times, once for each step, at two places.
      rw [Function.update_idem, Function.update_comm hne]
    · rw [hlen', List.length_replicate]
    · intro i hi x hx
      rcases List.getElem?_eq_some_iff.mp hx with ⟨hlt, -⟩
      refine hknown i ?_ x hx
      rw [← hn]
      split
      · omega
      · exact hi

/-- A block in use gets another size, where it is or elsewhere. -/
theorem resize_move_spec (hR : Represents s bs) (hd : s.view rmem = some d) (hne : m ≠ 0)
    (hm4 : m.toNat % 4 = 0) (hle : m ≤ s.heap.memSizeAligned) (hlen : d.length ≤ size.toNat) :
    ∃ p s' more, (match s.heap.resize rmem m with
        | none => none
        | some (true, h) => some (rmem, h)
        | some (false, h) => h.move rmem m size) = some (p, s'.heap) ∧
      Along useStep Legal s more ∧ run useStep s more = some s' ∧
      ((p = rtNull ∧ s' = s ∧ Refuses s.heap m) ∨
        (p ≠ rtNull ∧ (p = rmem ∨ s.view p = none) ∧
        ∃ d', s'.view = Function.update (Function.update s.view rmem none) p (some d') ∧
          d'.length = m.toNat ∧ ∀ i < m.toNat, ∀ x,
            d[i]? = some (some x) → d'[i]? = some (some x))) := by
  have hinside := hR.holds.inside
  have hmle := UInt32.le_iff_toNat_le.mp hle
  have hl : Legal s (.resize rmem m) := ⟨⟨d, hd⟩, hne, hm4, hle⟩
  rcases use_step hR hl with ⟨s₁, bs₁, hs₁, hR₁, -⟩
  rcases resize_cases hs₁ with ⟨h₁, ⟨hcall, hs₁'⟩ | ⟨hcall, hs₁'⟩⟩
  · -- The block is done with under the first lock.
    have hheap : s₁.heap = h₁ := by rw [hs₁']
    refine ⟨rmem, s₁, [.resize rmem m], by rw [hcall, hheap],
      along_cons useStep hs₁ hl trivial, ?_, .inr ⟨hR.ne_null hd, .inl rfl, fitted m.toNat d, ?_,
        length_fitted _ _, fun i hi x hx => getElem?_fitted hi hx⟩⟩
    · rw [run_cons useStep hs₁, run_nil]
    · simp only [hs₁', hd, Option.map_some]
      rw [Function.update_idem]
  · -- A new block is needed, and so far nothing has changed.
    have hsame : s₁ = s := by rw [hs₁', resize_false hcall]
    subst hsame
    have hm : m.toNat + 3 < 2 ^ 32 := by omega
    rcases move_spec hR hd hm hlen with ⟨p, s', more, hmove, halong, hrun, hcase⟩
    rw [← resize_false hcall] at hmove
    refine ⟨p, s', .resize rmem m :: more, by rw [hcall]; exact hmove,
      along_cons useStep hs₁ hl halong, by rw [run_cons useStep hs₁, hrun], ?_⟩
    exact hcase.imp id fun ⟨hp, hv, hrest⟩ => ⟨hp, .inr hv, hrest⟩

end Move

section Calls

variable {s : HeapUse} {bs : List Block} {rmem newsize : UInt32}

/-- `rt_realloc`, if nobody comes between its steps. -/
theorem realloc_spec (hR : Represents s bs) (hrmem : rmem = rtNull ∨ ∃ d, s.view rmem = some d)
    (hsize : newsize.toNat + 3 < 2 ^ 32) :
    ∃ p s' more, s.heap.rtRealloc rmem newsize = some (p, s'.heap) ∧
      Along useStep Legal s more ∧ run useStep s more = some s' ∧
      Reallocated s rmem newsize p s' := by
  have hround := toNat_rtAlign newsize
  have hinside := hR.holds.inside
  have hzero : rtAlign newsize = 0 ↔ newsize = 0 := by
    rw [← UInt32.toNat_inj, ← UInt32.toNat_inj, hround]
    change _ = 0 ↔ _ = 0
    omega
  have hrefuses := refuses_of_lt (h := s.heap) hsize
  unfold rtRealloc Reallocated
  generalize hm : rtAlign newsize = m at hround hzero hrefuses
  simp only
  by_cases hbig : s.heap.memSizeAligned < m
  · -- The heap is not as long as that.
    have hne : newsize ≠ 0 := by
      intro heq
      rw [hzero.mpr heq, UInt32.lt_iff_toNat_lt] at hbig
      exact absurd hbig (Nat.not_lt_zero _)
    refine ⟨rtNull, s, [], by rw [if_pos hbig], trivial, rfl, ?_⟩
    rw [if_neg hne]
    exact .inl ⟨rfl, rfl, hrefuses hbig⟩
  · rw [if_neg hbig]
    have hle : m.toNat ≤ s.heap.memSizeAligned.toNat :=
      UInt32.le_iff_toNat_le.mp (UInt32.not_lt.mp hbig)
    by_cases hnew : newsize = 0
    · -- Nothing is left of the block.
      have hl : Legal s (.free rmem) := hrmem
      rcases use_step hR hl with ⟨s', bs', hs, -⟩
      rcases free_cases hs with ⟨h', hfree, hs'⟩
      rw [if_pos (hzero.mpr hnew), hfree]
      refine ⟨rtNull, s', [.free rmem], by rw [hs']; rfl, along_cons useStep hs hl trivial, ?_, ?_⟩
      · rw [run_cons useStep hs, run_nil]
      · rw [if_pos hnew, hs']
        refine ⟨rfl, ?_⟩
        dsimp only
        split
        · rename_i hnull
          rw [hnull]
          exact (Function.update_eq_self_iff.mpr hR.view_null.symm).symm
        · rfl
    · have hmne : m ≠ 0 := fun h => hnew (hzero.mp h)
      have hnm : newsize.toNat ≤ m.toNat := by omega
      rw [if_neg hmne]
      simp only [if_neg hnew]
      by_cases hnull : rmem = rtNull
      · -- A new block, of which nothing has to be kept.
        have hl : Legal s (.malloc m) := show m.toNat + 3 < 2 ^ 32 by omega
        rcases malloc_spec hR hl with ⟨p, s', bs', hcall, hs, -, hcase⟩
        refine ⟨p, s', [.malloc m], by rw [if_pos hnull, hcall],
          along_cons useStep hs hl trivial, ?_, hcase.imp id ?_⟩
        · rw [run_cons useStep hs, run_nil]
        · intro ⟨hp, hfresh, hview⟩
          refine ⟨hp, .inr hfresh, List.replicate m.toNat none, ?_, ?_, fun d hd => ?_⟩
          · have hself : Function.update s.view rtNull none = s.view :=
              Function.update_eq_self_iff.mpr hR.view_null.symm
            rw [hview, hnull, hself]
          · rw [List.length_replicate]
            exact hnm
          · rw [hnull, hR.view_null] at hd
            exact absurd hd (by simp)
      · rcases hrmem.resolve_left hnull with ⟨d, hd⟩
        rw [if_neg hnull]
        -- A block in use, and a size that the heap is long enough for.
        have hm4 : m.toNat % 4 = 0 := by omega
        rcases resize_move_spec hR hd hmne hm4 (UInt32.not_lt.mp hbig) (hR.length_le_room hd) with
          ⟨p, s', more, hcall, halong, hrun, hcase⟩
        refine ⟨p, s', more, hcall, halong, hrun, hcase.imp id ?_⟩
        intro ⟨hp, hv, d', hv', hlen, hknown⟩
        refine ⟨hp, hv, d', hv', by omega, fun e he i hi x hx => ?_⟩
        rw [hd, Option.some.injEq] at he
        rw [← he] at hx
        exact hknown i (by omega) x hx

/-- `rt_calloc`: all bytes of the block are zero. -/
theorem calloc_spec (hR : Represents s bs) {count size : UInt32}
    (hsize : count.toNat * size.toNat + 3 < 2 ^ 32) :
    ∃ p s' more, s.heap.rtCalloc count size = some (p, s'.heap) ∧
      Along useStep Legal s more ∧ run useStep s more = some s' ∧
      Cleared s (count.toNat * size.toNat) p s' := by
  have hn : (count * size).toNat = count.toNat * size.toNat := by
    rw [UInt32.toNat_mul, Nat.mod_eq_of_lt (by omega)]
  unfold rtCalloc Cleared
  rw [← hn] at hsize ⊢
  rw [UInt32.ofNat_toNat]
  generalize count * size = n at hsize
  have hl : Legal s (.malloc n) := hsize
  rcases malloc_spec hR hl with
    ⟨p, s₁, bs₁, hcall, hs₁, hR₁, ⟨rfl, rfl, hrefuses⟩ | ⟨hp, hvp, hview⟩⟩
  · refine ⟨rtNull, s₁, [.malloc n], ?_, along_cons useStep hs₁ hl trivial, ?_,
      .inl ⟨rfl, rfl, hrefuses⟩⟩
    · simp only [hcall, ne_eq, not_true_eq_false, if_false]
    · rw [run_cons useStep hs₁, run_nil]
  · -- The block is as long as the product, so all of it can be written.
    have hp₁ : s₁.view p = some (List.replicate n.toNat none) := by
      rw [hview, Function.update_self]
    have hl₂ : Legal s₁ (.store p 0 (List.replicate n.toNat 0)) :=
      ⟨_, hp₁, by rw [List.length_replicate, List.length_replicate, Nat.zero_add]⟩
    rcases store_step hR₁ hl₂ with ⟨s₂, hs₂, hR₂, -⟩
    have hs₂' := hs₂
    rw [useStep, Option.some.injEq, hp₁, Option.map_some,
      written_replicate _ _ _ (by rw [List.length_replicate])] at hs₂'
    refine ⟨p, s₂, [.malloc n, .store p 0 (List.replicate n.toNat 0)], ?_,
      along_cons useStep hs₁ hl (along_cons useStep hs₂ hl₂ trivial), ?_, .inr ⟨hp, hvp, ?_⟩⟩
    · rw [← hs₂']
      simp only [hcall, hp, ne_eq, not_false_eq_true, if_true, Nat.cast_zero, add_zero]
    · rw [run_cons useStep hs₁, run_cons useStep hs₂, run_nil]
    · simp only [← hs₂', hview]
      rw [Function.update_idem]

end Calls

section Runs

variable {ram : Memory UInt8} {beginAddr endAddr : UInt32} {h₀ : Heap} {events : List HeapEvent}
  {t : HeapUse}

/-- The blocks in use are those of the view after any run. -/
theorem run_represents (hinit : rtSystemHeapInit ram beginAddr endAddr = some h₀)
    (hroom : 12 ≤ h₀.memSizeAligned.toNat)
    (hl : Along useStep Legal ⟨h₀, fun _ => none⟩ events)
    (ht : run useStep ⟨h₀, fun _ => none⟩ events = some t) : ∃ bs, Represents t bs :=
  run_invariant_along useStep Legal (fun s => ∃ bs, Represents s bs) use_keeps
    ⟨_, represents_init hinit hroom⟩ hl ht

/-- `rt_realloc` after any run is a run of legal steps. It moves a block only to where none
    is, keeps what the block contains as far as the new size goes, and leaves all other
    blocks alone. It gives `NULL` only if `rt_malloc` refuses the rounded size, and nothing
    has changed then. -/
theorem realloc_serves (hinit : rtSystemHeapInit ram beginAddr endAddr = some h₀)
    (hroom : 12 ≤ h₀.memSizeAligned.toNat)
    (hl : Along useStep Legal ⟨h₀, fun _ => none⟩ events)
    (ht : run useStep ⟨h₀, fun _ => none⟩ events = some t) {rmem newsize : UInt32}
    (hrmem : rmem = rtNull ∨ ∃ d, t.view rmem = some d) (hsize : newsize.toNat + 3 < 2 ^ 32) :
    ∃ p t' more, t.heap.rtRealloc rmem newsize = some (p, t'.heap) ∧
      Along useStep Legal t more ∧ run useStep t more = some t' ∧
      Reallocated t rmem newsize p t' := by
  rcases run_represents hinit hroom hl ht with ⟨bs, hR⟩
  exact realloc_spec hR hrmem hsize

/-- A block of 40 bytes, with two of them written. -/
def oneBlock : List HeapEvent := [.malloc 40, .store 0x100c 0 [1, 2]]

/-- It is moved behind where it was, since it needs more room, and takes its bytes along. -/
theorem realloc_serves_moved :
    ∃ t, run useStep ⟨smallHeap, fun _ => none⟩ oneBlock = some t ∧ ∃ t' more,
      t.heap.rtRealloc 0x100c 60 = some (0x1040, t'.heap) ∧ Along useStep Legal t more ∧
        run useStep t more = some t' ∧ t'.view 0x100c = none ∧ ∃ d', t'.view 0x1040 = some d' ∧
          60 ≤ d'.length ∧ d'[0]? = some (some 1) ∧ d'[1]? = some (some 2) := by
  have hrun : (run useStep ⟨smallHeap, fun _ => none⟩ oneBlock).any (fun t =>
      (t.heap.rtRealloc 0x100c 60).map Prod.fst = some 0x1040 ∧
        (t.view 0x100c).map (fun d : List (Option UInt8) => (d[0]?, d[1]?)) =
          some (some (some (1 : UInt8)), some (some (2 : UInt8)))) = true := by
    decide +kernel
  rcases (Option.any_eq_true _ _).mp hrun with ⟨t, ht, hv⟩
  rw [decide_eq_true_eq] at hv
  rcases hv with ⟨hplace, hbytes⟩
  rcases Option.map_eq_some_iff.mp hbytes with ⟨d, hd, hpair⟩
  rw [Prod.mk.injEq] at hpair
  rcases realloc_serves smallHeap_init smallHeap_room (by decide +kernel) ht
    (.inr ⟨d, hd⟩) (by decide : (60 : UInt32).toNat + 3 < 2 ^ 32) with
    ⟨p, t', more, hcall, halong, hmore, hdone⟩
  rw [hcall, Option.map_some, Option.some.injEq] at hplace
  subst hplace
  -- The call has not returned `NULL`, so it has moved the block.
  rw [Reallocated, if_neg (by decide)] at hdone
  rcases hdone with ⟨hnull, -⟩ | ⟨-, -, d', hv', hlen, hknown⟩
  · exact absurd hnull (by decide)
  · refine ⟨t, ht, t', more, hcall, halong, hmore, ?_, d', ?_, hlen, ?_, ?_⟩
    · rw [hv', Function.update_of_ne (by decide), Function.update_self]
    · rw [hv', Function.update_self]
    · exact hknown d hd 0 (by decide) 1 hpair.1
    · exact hknown d hd 1 (by decide) 2 hpair.2

/-- `rt_calloc` after any run. -/
theorem calloc_serves (hinit : rtSystemHeapInit ram beginAddr endAddr = some h₀)
    (hroom : 12 ≤ h₀.memSizeAligned.toNat)
    (hl : Along useStep Legal ⟨h₀, fun _ => none⟩ events)
    (ht : run useStep ⟨h₀, fun _ => none⟩ events = some t) {count size : UInt32}
    (hsize : count.toNat * size.toNat + 3 < 2 ^ 32) :
    ∃ p t' more, t.heap.rtCalloc count size = some (p, t'.heap) ∧
      Along useStep Legal t more ∧ run useStep t more = some t' ∧
      Cleared t (count.toNat * size.toNat) p t' := by
  rcases run_represents hinit hroom hl ht with ⟨bs, hR⟩
  exact calloc_spec hR hsize

/-- Ten words behind a block that is there already. -/
theorem calloc_serves_second :
    ∃ t, run useStep ⟨smallHeap, fun _ => none⟩ [.malloc 100] = some t ∧ ∃ t' more,
      t.heap.rtCalloc 4 10 = some (0x107c, t'.heap) ∧ Along useStep Legal t more ∧
        run useStep t more = some t' ∧ t'.view 0x107c = some (List.replicate 40 (some 0)) := by
  have hrun : (run useStep ⟨smallHeap, fun _ => none⟩ [.malloc 100]).any (fun t =>
      (t.heap.rtCalloc 4 10).map Prod.fst = some 0x107c) = true := by decide +kernel
  rcases (Option.any_eq_true _ _).mp hrun with ⟨t, ht, hplace⟩
  rw [decide_eq_true_eq] at hplace
  have hsize : (4 : UInt32).toNat * (10 : UInt32).toNat + 3 < 2 ^ 32 := by decide
  rcases calloc_serves smallHeap_init smallHeap_room (by decide +kernel) ht hsize with
    ⟨p, t', more, hcall, halong, hmore, hdone⟩
  rw [hcall, Option.map_some, Option.some.injEq] at hplace
  subst hplace
  rcases hdone with ⟨hnull, -⟩ | ⟨-, -, hv'⟩
  · exact absurd hnull (by decide)
  · refine ⟨t, ht, t', more, hcall, halong, hmore, ?_⟩
    rw [hv', Function.update_self]
    rfl

end Runs

end Heap

end Firmware
