import Firmware.Heap.Plug

/-!
# The Calls of the Heap

What `rt_system_heap_init`, `rt_malloc`, `rt_free` and the first part of `rt_realloc` do to
the list of blocks.

`Holds` is what all of them keep: the headers are those of a settled list, `lfree` points
to a free block or to the end, and `used_mem` is the length of the blocks in use. Each call
is described by what becomes of the blocks in use, their room and `lfree`; together with
`Holds` this says where the free blocks are.

`lfree` is where `rt_malloc` begins to search, so free blocks in front of it are lost to
it. `rt_malloc` and `rt_free` see to it that there are none. The search also ends early: a
block that would be filled up to the very end of the heap is not looked at.

## Main definitions

* `Holds`: What the calls keep.
* `need`: The room that `rt_malloc` looks for.
* `NoFit`: The search finds no block.

## Theorems

* `search_eq`, `raiseLfree_eq`: The loops are searches in the list.
* `holds_init`: The heap at the beginning.
* `rtMalloc_spec`, `rtFree_spec`, `resize_spec`: The calls.
-/

namespace Firmware

open Blocks

namespace Heap

/-- What the calls of the heap keep. -/
structure Holds (h : Heap) (bs : List Block) : Prop extends Arena h bs where
  settled : Settled bs
  freeAt : FreeAt 12 bs h.lfree.toNat
  usedMem : h.usedMem = UInt32.ofNat (usedExtent 12 bs)
  rooms : ∀ x ∈ live 12 0 bs, 0 < x.2

/-- The room `rt_malloc` looks for. -/
def need (size : UInt32) : Nat := max 12 (rtAlign size).toNat

/-- The heap has no block at or behind `lfree` that has enough room and does not end with
    the heap when it is filled. -/
def NoFit (h : Heap) (bs : List Block) (size : UInt32) : Prop :=
  ∀ q n, (q, ⟨n, false⟩) ∈ placed 12 0 bs → h.lfree.toNat ≤ q → need size ≤ n →
    h.memSizeAligned.toNat - need size ≤ q

section Words

theorem toNat_alignDown (x : UInt32) : (x &&& ~~~(rtAlignSize - 1)).toNat = x.toNat / 4 * 4 := by
  have hmask : (~~~(rtAlignSize - 1) : UInt32).toNat = 2 ^ 32 - 1 - (2 ^ 2 - 1) := by decide
  have hshift : x.toNat / 4 * 4 = (x.toNat >>> 2) <<< 2 := by
    rw [Nat.shiftRight_eq_div_pow, Nat.shiftLeft_eq]
  rw [UInt32.toNat_and, hmask, hshift]
  -- Bit by bit: the two lowest ones are cleared and the others kept.
  refine Nat.eq_of_testBit_eq fun i => ?_
  rw [Nat.testBit_and, Nat.testBit_shiftLeft, Nat.testBit_shiftRight]
  by_cases h2 : 2 ≤ i
  · rw [Nat.add_sub_of_le h2, decide_eq_true h2, Bool.true_and]
    by_cases hi : i < 32
    · have hbit : ∀ j < 32, 2 ≤ j → (2 ^ 32 - 1 - (2 ^ 2 - 1) : Nat).testBit j = true := by
        decide
      rw [hbit i hi h2, Bool.and_true]
    · have hlt : x.toNat < 2 ^ i :=
        lt_of_lt_of_le x.toNat_lt (Nat.pow_le_pow_right (by omega) (by omega))
      rw [Nat.testBit_lt_two_pow hlt, Bool.false_and]
  · have hbit : ∀ j < 2, (2 ^ 32 - 1 - (2 ^ 2 - 1) : Nat).testBit j = false := by decide
    rw [hbit i (by omega), decide_eq_false h2, Bool.and_false, Bool.false_and]

theorem toNat_and_low (x : UInt32) : (x &&& (rtAlignSize - 1)).toNat = x.toNat % 4 := by
  have hmask : (rtAlignSize - 1 : UInt32).toNat = 2 ^ 2 - 1 := by decide
  rw [UInt32.toNat_and, hmask, Nat.and_two_pow_sub_one_eq_mod]

theorem toNat_rtAlign (x : UInt32) : (rtAlign x).toNat = (x.toNat + 3) % 2 ^ 32 / 4 * 4 := by
  have hsum : x + rtAlignSize - 1 = x + 3 := by
    rw [UInt32.sub_eq_add_neg, UInt32.add_assoc]
    rfl
  rw [rtAlign, toNat_alignDown, hsum, UInt32.toNat_add]
  rfl

theorem need_mod (size : UInt32) : need size % 4 = 0 := by
  rw [need, toNat_rtAlign]
  omega

/-- A size whose rounding does not wrap around is not rounded down. -/
theorem le_need {size : UInt32} (h : size.toNat + 3 < 2 ^ 32) : size.toNat ≤ need size := by
  rw [need, toNat_rtAlign, Nat.mod_eq_of_lt h]
  omega

/-- The room of a block is what is left behind its header. -/
theorem room_eq (p s : Nat) :
    UInt32.ofNat (p + (12 + s)) - (UInt32.ofNat p + sizeofStructMem) = UInt32.ofNat s := by
  have hsum : UInt32.ofNat (p + (12 + s)) =
      UInt32.ofNat s + (UInt32.ofNat p + sizeofStructMem) := by
    have hnat : p + (12 + s) = s + (p + 12) := by omega
    rw [hnat, UInt32.ofNat_add, UInt32.ofNat_add]
    rfl
  rw [hsum, UInt32.add_sub_cancel]

theorem length_eq (p s : Nat) : UInt32.ofNat (p + s) - UInt32.ofNat p = UInt32.ofNat s := by
  rw [UInt32.ofNat_add, UInt32.add_comm, UInt32.add_sub_cancel]

/-- The room as `rt_realloc` computes it. -/
theorem size_eq (p s : Nat) :
    UInt32.ofNat (p + (12 + s)) - UInt32.ofNat p - sizeofStructMem = UInt32.ofNat s := by
  rw [length_eq, Nat.add_comm 12 s, UInt32.ofNat_add]
  exact UInt32.add_sub_cancel _ _

/-- What a block must be longer than to be cut. -/
theorem limit_eq (k : Nat) :
    UInt32.ofNat k + sizeofStructMem + minSizeAligned = UInt32.ofNat (k + 24) := by
  rw [UInt32.add_assoc, UInt32.ofNat_add]
  rfl

/-- Where the next header is if a block has `k` bytes. -/
theorem behind_eq (p k : Nat) :
    UInt32.ofNat p + sizeofStructMem + UInt32.ofNat k = UInt32.ofNat (p + (12 + k)) := by
  rw [UInt32.ofNat_add, UInt32.ofNat_add, ← UInt32.add_assoc]
  rfl

end Words

section Loops

variable {h : Heap} {l r bs : List Block}

theorem Arena.length_lt_turns (hA : Arena h (l ++ r)) : r.length < h.turns := by
  have hle := length_le_extent 12 r
  have hlength := hA.length
  rw [extent_append] at hlength
  unfold turns
  omega

/-- The loop of `rt_malloc` is a search in the list. -/
theorem search_eq {k : Nat} (hA : Arena h (l ++ r)) (hk : k ≤ h.memSizeAligned.toNat)
    {fuel : Nat} (hfuel : r.length < fuel) :
    h.search (UInt32.ofNat k) fuel (UInt32.ofNat (extent 12 l)) =
      some ((firstFit 12 (h.memSizeAligned.toNat - k) k (extent 12 l) r).map UInt32.ofNat) := by
  have hinside := hA.inside
  have hlimit : h.memSizeAligned - UInt32.ofNat k =
      UInt32.ofNat (h.memSizeAligned.toNat - k) := by
    rw [UInt32.ofNat_sub hk, UInt32.ofNat_toNat]
  induction r generalizing l fuel with
  | nil =>
      have hlength := hA.length
      rw [List.append_nil] at hlength
      cases fuel with
      | zero => exact absurd hfuel (Nat.not_lt_zero _)
      | succ fuel =>
          unfold search
          rw [hlimit, if_neg]
          · rfl
          · -- The end of the heap is behind every limit.
            rw [ofNat_lt_iff (by omega) (by omega)]
            omega
  | cons b r ih =>
      have hend := hA.end_le
      rw [extent_cons] at hend
      have hpos : h.header (UInt32.ofNat (extent 12 l)) = _ := hA.head_eq
      have hsplit : l ++ b :: r = (l ++ [b]) ++ r := by simp
      have hplace : extent 12 (l ++ [b]) = extent 12 l + (12 + b.size) := by simp
      rw [List.length_cons] at hfuel
      cases fuel with
      | zero => exact absurd hfuel (Nat.not_lt_zero _)
      | succ fuel =>
          -- Each test of the loop is the test of the search, as nothing wraps around.
          have hbelow : UInt32.ofNat (extent 12 l) < h.memSizeAligned - UInt32.ofNat k ↔
              extent 12 l < h.memSizeAligned.toNat - k := by
            rw [hlimit, ofNat_lt_iff (by omega) (by omega)]
          unfold search firstFit
          simp only [hbelow]
          split
          · have hfit : ((h.header (UInt32.ofNat (extent 12 l))).used = 0 ∧
                UInt32.ofNat k ≤ (h.header (UInt32.ofNat (extent 12 l))).next -
                  (UInt32.ofNat (extent 12 l) + sizeofStructMem)) ↔
                b.used = false ∧ k ≤ b.size := by
              rw [hpos]
              simp only [room_eq]
              rw [ofNat_le_iff (by omega) (by omega)]
              rcases b.used with _ | _
              · simp
              · simp
            simp only [hfit]
            split
            · rfl
            · have hrest := ih (l := l ++ [b]) (hsplit ▸ hA) (by omega : r.length < fuel)
              rw [hplace] at hrest
              rw [hpos]
              exact hrest
          · rfl

/-- The loop that raises `lfree` is one, too. -/
theorem raiseLfree_eq (hA : Arena h (l ++ r)) (hlfree : h.lfree = UInt32.ofNat (extent 12 l))
    {fuel : Nat} (hfuel : r.length < fuel) :
    raiseLfree fuel h =
      some { h with lfree := UInt32.ofNat (firstFree 12 (extent 12 l) r) } := by
  induction r generalizing l h fuel with
  | nil =>
      have hlength := hA.length
      rw [List.append_nil] at hlength
      cases fuel with
      | zero => exact absurd hfuel (Nat.not_lt_zero _)
      | succ fuel =>
          -- The loop stops at the last header, though it is in use.
          have hend : h.lfree = h.heapEnd := by rw [hlfree, heapEnd_eq, hlength]
          unfold raiseLfree
          rw [if_neg (by simp [hend]), firstFree, ← hlfree]
  | cons b r ih =>
      have hpos := hA.head_eq
      have hend := hA.heapEnd_ne
      unfold head at hpos
      rw [← hlfree] at hpos hend
      have hsplit : l ++ b :: r = (l ++ [b]) ++ r := by simp
      have hplace : extent 12 (l ++ [b]) = extent 12 l + (12 + b.size) := by simp
      rw [List.length_cons] at hfuel
      cases fuel with
      | zero => exact absurd hfuel (Nat.not_lt_zero _)
      | succ fuel =>
          unfold raiseLfree firstFree
          rcases hused : b.used with _ | _
          · rw [if_neg (by simp [hpos, hused]), if_neg (by simp), ← hlfree]
          · rw [if_pos ⟨by simp [hpos, hused], hend⟩]
            have hA' : Arena { h with lfree := (h.header h.lfree).next } ((l ++ [b]) ++ r) :=
              (hsplit ▸ hA).congr rfl rfl rfl
            have hrest := ih hA' (by rw [hpos, hplace]) (by omega : r.length < fuel)
            rw [hplace] at hrest
            exact hrest

end Loops

section Malloc

variable {h : Heap} {l r bs : List Block} {n k : Nat}

@[simp] theorem account_usedMem (h : Heap) (c : UInt32) :
    (h.account c).usedMem = h.usedMem + c := rfl

/-- The mark, the count and the magic number of a block that is given away. -/
theorem mark_spec {b : Block} (hA : Arena h (l ++ b :: r)) (c : UInt32) :
    Arena (((h.modify (UInt32.ofNat (extent 12 l)) fun m => { m with used := 1 }).account c).modify
        (UInt32.ofNat (extent 12 l)) fun m => { m with magic := heapMagic })
        (l ++ ⟨b.size, true⟩ :: r) ∧
      Keeps (live 12 0 (l ++ ⟨b.size, true⟩ :: r)) h
        (((h.modify (UInt32.ofNat (extent 12 l)) fun m => { m with used := 1 }).account c).modify
          (UInt32.ofNat (extent 12 l)) fun m => { m with magic := heapMagic }) := by
  rcases arena_setUsed (u := true) (f := fun m => { m with used := 1 }) hA rfl rfl with
    ⟨hA₁, hkeeps₁⟩
  generalize h.modify (UInt32.ofNat (extent 12 l)) (fun m => { m with used := 1 }) = h₁
    at hA₁ hkeeps₁ ⊢
  have hA₂ : Arena (h₁.account c) _ := hA₁.congr rfl rfl rfl
  have hkeeps₂ : Keeps (live 12 0 (l ++ ⟨b.size, true⟩ :: r)) h₁ (h₁.account c) :=
    keeps_of_eq _ rfl rfl rfl
  -- The magic number has been there all the time.
  have hmagic : (h₁.account c).head (extent 12 l) = _ := hA₂.head_eq
  rcases arena_setUsed (u := true) (f := fun m => { m with magic := heapMagic }) hA₂ rfl
    (by rw [hmagic]) with ⟨hA₃, hkeeps₃⟩
  exact ⟨hA₃, (hkeeps₁.trans hkeeps₂).trans hkeeps₃⟩

/-- What `rt_malloc` writes: the block is in use, and what it does not need is a free block
    of its own if that is worth a header. -/
theorem use_spec (hh : Holds h (l ++ ⟨n, false⟩ :: r)) (hk : k ≤ n) (hk4 : k % 4 = 0) :
    ∃ s r', k ≤ s ∧ Settled (l ++ ⟨s, true⟩ :: r') ∧
      Arena (h.use (UInt32.ofNat (extent 12 l)) (UInt32.ofNat k)) (l ++ ⟨s, true⟩ :: r') ∧
      Keeps (live 12 0 (l ++ ⟨n, false⟩ :: r)) h
        (h.use (UInt32.ofNat (extent 12 l)) (UInt32.ofNat k)) ∧
      (h.use (UInt32.ofNat (extent 12 l)) (UInt32.ofNat k)).lfree = h.lfree ∧
      (h.use (UInt32.ofNat (extent 12 l)) (UInt32.ofNat k)).usedMem =
        UInt32.ofNat (usedExtent 12 (l ++ ⟨s, true⟩ :: r')) ∧
      (∀ x ∈ placed 12 (extent 12 l + (12 + n)) r, x ∈ placed 12 (extent 12 l + (12 + s)) r') ∧
      live 12 (extent 12 l + (12 + s)) r' = live 12 (extent 12 l + (12 + n)) r := by
  have hpos : h.header (UInt32.ofNat (extent 12 l)) = _ := hh.head_eq
  have hend := hh.end_le
  have hused := hh.usedMem
  rcases hh.settled.parts with ⟨hl, hr, hbefore, hbehind⟩
  simp only [extent_cons] at hend hpos
  simp only [usedExtent_append, usedExtent_cons, Bool.false_eq_true, if_false,
    Nat.zero_add] at hused
  have hroom : UInt32.ofNat k + sizeofStructMem + minSizeAligned ≤
      UInt32.ofNat (extent 12 l + (12 + n)) - (UInt32.ofNat (extent 12 l) + sizeofStructMem) ↔
        k + 24 ≤ n := by
    rw [limit_eq, room_eq, ofNat_le_iff (by omega) (by omega)]
  unfold use
  simp only [hpos, hroom]
  split
  · rename_i hsplit
    have hplace : extent 12 l + (12 + k) + (12 + (n - (k + 12))) = extent 12 l + (12 + n) := by
      omega
    rw [behind_eq]
    rcases arena_cut (s := k) hh.toArena rfl rfl (by simp only; omega) hk4 with
      ⟨hA, hkeeps, hlfree, hum⟩
    generalize h.cut (UInt32.ofNat (extent 12 l)) (UInt32.ofNat (extent 12 l + (12 + k))) = h₁
      at hA hkeeps hlfree hum ⊢
    rcases mark_spec hA (UInt32.ofNat k + sizeofStructMem) with ⟨hA', hkeeps'⟩
    -- The block that is cut off is free, so nothing in use has changed.
    have hsame : live 12 0 (l ++ ⟨k, false⟩ :: ⟨n - (k + 12), false⟩ :: r) =
        live 12 0 (l ++ ⟨n, false⟩ :: r) := by
      simp [hplace]
    have hkeeps₂ := hkeeps.trans (hkeeps'.mono (live_subset_taken l k _))
    rw [hsame] at hkeeps₂
    refine ⟨k, ⟨n - (k + 12), false⟩ :: r, le_refl k, ?_, hA', hkeeps₂, hlfree, ?_, ?_, ?_⟩
    · refine settled_append_cons hl (List.isChain_cons.mpr ⟨?_, hr⟩) (fun a _ => .inr rfl)
        fun c _ => .inl rfl
      exact hbehind
    · have hcount : UInt32.ofNat k + sizeofStructMem = UInt32.ofNat (12 + k) := by
        rw [Nat.add_comm, UInt32.ofNat_add]
        rfl
      rw [modify_usedMem, account_usedMem, modify_usedMem, hum, hused, hcount,
        ← UInt32.ofNat_add]
      congr 1
      simp only [usedExtent_append, usedExtent_cons, Bool.false_eq_true, if_false, if_true]
      omega
    · intro x hx
      rw [placed_cons, hplace]
      exact List.mem_cons_of_mem _ hx
    · rw [live_cons, hplace]
      rfl
  · -- The whole block is given away, and counted as it is.
    have hcount : UInt32.ofNat (extent 12 l + (12 + n)) - UInt32.ofNat (extent 12 l) =
        UInt32.ofNat (12 + n) := length_eq _ _
    rcases mark_spec hh.toArena (UInt32.ofNat (12 + n)) with ⟨hA', hkeeps'⟩
    rw [hcount]
    refine ⟨n, r, hk, ?_, hA', hkeeps'.mono fun x hx => ?_, rfl, ?_, fun x hx => hx, rfl⟩
    · exact settled_append_cons hl hr (fun a _ => .inr rfl) fun c _ => .inl rfl
    · exact live_subset_taken l n r x hx
    · rw [modify_usedMem, account_usedMem, modify_usedMem, hused, ← UInt32.ofNat_add]
      congr 1
      simp only [usedExtent_append, usedExtent_cons, if_true]
      omega

/-- The places of blocks are aligned. -/
theorem Arena.extent_mod (hA : Arena h (l ++ r)) : extent 12 l % 4 = 0 := by
  have hsizes : ∀ b ∈ l, b.size % 4 = 0 := fun b hb => hA.sizes b (List.mem_append_left r hb)
  clear hA
  induction l with
  | nil => rfl
  | cons b l ih =>
      have hb := hsizes b List.mem_cons_self
      have hl := ih fun c hc => hsizes c (List.mem_cons_of_mem b hc)
      rw [extent_cons]
      omega

/-- Raising `lfree` from the block that is taken. -/
theorem raise_spec {h₁ : Heap} {s : Nat} {r' : List Block} (hh : Holds h (l ++ ⟨n, false⟩ :: r))
    (hA : Arena h₁ (l ++ ⟨s, true⟩ :: r')) (hmem : h₁.memSizeAligned = h.memSizeAligned)
    (hlfree : h₁.lfree = h.lfree)
    (hsup : ∀ x ∈ placed 12 (extent 12 l + (12 + n)) r, x ∈ placed 12 (extent 12 l + (12 + s)) r') :
    ∃ f, (if UInt32.ofNat (extent 12 l) = h.lfree then raiseLfree h.turns h₁ else some h₁) =
        some { h₁ with lfree := UInt32.ofNat f } ∧ FreeAt 12 (l ++ ⟨s, true⟩ :: r') f ∧
      (Lowest 12 (l ++ ⟨n, false⟩ :: r) h.lfree.toNat → Lowest 12 (l ++ ⟨s, true⟩ :: r') f) := by
  have hend := hh.end_le
  split
  · rename_i hat
    -- `lfree` was at the block that is taken and goes on to the next free one.
    have hf : h.lfree.toNat = extent 12 l := by rw [← hat, toNat_ofNat (by omega)]
    have hturns := hA.length_lt_turns
    unfold turns at hturns
    rw [hmem] at hturns
    refine ⟨_, raiseLfree_eq hA (hlfree.trans hat.symm) hturns, freeAt_raised, fun hlow => ?_⟩
    rw [hf] at hlow
    exact lowest_raised (by omega) hlow
  · rename_i hat
    have hf : h.lfree.toNat ≠ extent 12 l := by
      intro hf
      exact hat (by rw [← hf, UInt32.ofNat_toNat])
    -- `lfree` is at another block, which is still there and still free.
    have hlen : extent 12 (l ++ ⟨s, true⟩ :: r') = extent 12 (l ++ ⟨n, false⟩ :: r) := by
      rw [hA.length, hh.length, hmem]
    refine ⟨h.lfree.toNat, ?_, freeAt_taken hh.freeAt hf hlen hsup, lowest_taken⟩
    rw [UInt32.ofNat_toNat, ← hlfree]

/-- What `rt_malloc` does with the block it has found. -/
theorem take_spec (hh : Holds h (l ++ ⟨n, false⟩ :: r)) (hpos : 0 < k) (hk : k ≤ n)
    (hk4 : k % 4 = 0) :
    ∃ h' s r', h.take (UInt32.ofNat (extent 12 l)) (UInt32.ofNat k) =
        some (UInt32.ofNat (h.heapPtr.toNat + extent 12 l + 12), h') ∧ k ≤ s ∧
      Holds h' (l ++ ⟨s, true⟩ :: r') ∧ Keeps (live 12 0 (l ++ ⟨n, false⟩ :: r)) h h' ∧
      live 12 (extent 12 l + (12 + s)) r' = live 12 (extent 12 l + (12 + n)) r ∧
      (Lowest 12 (l ++ ⟨n, false⟩ :: r) h.lfree.toNat →
        Lowest 12 (l ++ ⟨s, true⟩ :: r') h'.lfree.toNat) := by
  have hend := hh.end_le
  have hlength := hh.length
  have hstart := hh.start
  have hmod := hh.extent_mod
  simp only [extent_append, extent_cons] at hend hlength
  rcases use_spec hh hk hk4 with ⟨s, r', hs, hsettled, hA, hkeeps, hlfree, hum, hsup, hlive⟩
  unfold take
  generalize h.use (UInt32.ofNat (extent 12 l)) (UInt32.ofNat k) = h₁ at hA hkeeps hlfree hum ⊢
  rcases raise_spec hh hA hkeeps.memSizeAligned hlfree hsup with ⟨f, hraise, hfree, hlow⟩
  have hA₂ : Arena { h₁ with lfree := UInt32.ofNat f } _ := hA.congr rfl rfl rfl
  have hkeeps₂ : Keeps (live 12 0 (l ++ ⟨n, false⟩ :: r)) h
      { h₁ with lfree := UInt32.ofNat f } :=
    hkeeps.trans (keeps_of_eq _ rfl rfl rfl)
  have hf : ({ h₁ with lfree := UInt32.ofNat f } : Heap).lfree.toNat = f :=
    toNat_ofNat (hA.freeAt_lt hfree)
  have hum₂ : ({ h₁ with lfree := UInt32.ofNat f } : Heap).usedMem = h₁.usedMem := rfl
  rw [hraise]
  generalize { h₁ with lfree := UInt32.ofNat f } = h₂ at hA₂ hkeeps₂ hf hum₂ ⊢
  have hptr := hkeeps₂.heapPtr
  -- The assertions.
  have haddr : h₂.addr (UInt32.ofNat (extent 12 l)) + sizeofStructMem =
      UInt32.ofNat (h.heapPtr.toNat + extent 12 l + 12) := by
    rw [addr_ofNat, hptr, UInt32.ofNat_add _ 12]
    rfl
  have hbelow : UInt32.ofNat (h.heapPtr.toNat + extent 12 l + 12) + UInt32.ofNat k ≤
      h₂.addr h₂.heapEnd := by
    rw [heapEnd_eq, addr_ofNat, hptr, hkeeps₂.memSizeAligned, ← UInt32.ofNat_add,
      ofNat_le_iff (by omega) (by omega)]
    omega
  have hrem : UInt32.ofNat (h.heapPtr.toNat + extent 12 l + 12) % rtAlignSize = 0 := by
    rw [← UInt32.toNat_inj, UInt32.toNat_mod, toNat_ofNat (by omega)]
    change (h.heapPtr.toNat + extent 12 l + 12) % 4 = 0
    omega
  have hand : h₂.addr (UInt32.ofNat (extent 12 l)) &&& (rtAlignSize - 1) = 0 := by
    rw [← UInt32.toNat_inj, toNat_and_low, toNat_addr (by rw [hptr]; omega), hptr]
    change (h.heapPtr.toNat + extent 12 l) % 4 = 0
    omega
  simp only [haddr, if_pos (And.intro hbelow (And.intro hrem hand))]
  refine ⟨h₂, s, r', rfl, hs, ⟨hA₂, hsettled, ?_, hum₂.trans hum, fun x hx => ?_⟩, hkeeps₂, hlive,
    ?_⟩
  · rw [hf]
    exact hfree
  · have hrooms := hh.rooms
    simp only [live_append, live_cons, Nat.zero_add, hlive, Bool.false_eq_true, if_false, if_true,
      List.nil_append, List.mem_append, List.mem_singleton] at hx hrooms
    rcases hx with hx | rfl | hx
    · exact hrooms x (.inl hx)
    · exact lt_of_lt_of_le hpos hs
    · exact hrooms x (.inr hx)
  · rw [hf]
    exact hlow

/-- The place of a free block cuts the list in two, and the end is behind the list. -/
theorem FreeAt.split {f : Nat} (hfree : FreeAt 12 bs f) :
    ∃ l r, bs = l ++ r ∧ f = extent 12 l := by
  rcases hfree with hend | ⟨n, hmem⟩
  · exact ⟨bs, [], by simp, hend⟩
  · rcases mem_placed_iff.mp hmem with ⟨l, r, hbs, hf⟩
    exact ⟨l, _, hbs, by omega⟩

/-- `rt_malloc`: it gives away a free block with enough room, or nothing has changed and
    there is none that it looks at. -/
theorem rtMalloc_spec (hh : Holds h bs) (hroom : 12 ≤ h.memSizeAligned.toNat) (size : UInt32) :
    ∃ a h' bs', h.rtMalloc size = some (a, h') ∧ Holds h' bs' ∧ Keeps (live 12 0 bs) h h' ∧
      (Lowest 12 bs h.lfree.toNat → Lowest 12 bs' h'.lfree.toNat) ∧
      ((a = rtNull ∧ h' = h ∧ bs' = bs ∧ (size = 0 ∨ NoFit h bs size)) ∨
        ∃ p s L R, a = UInt32.ofNat (h.heapPtr.toNat + p + 12) ∧ need size ≤ s ∧
          live 12 0 bs = L ++ R ∧ live 12 0 bs' = L ++ (p, s) :: R ∧ size ≠ 0 ∧
          ¬ NoFit h bs size) := by
  have hlength := hh.length
  unfold rtMalloc
  split
  · rename_i hzero
    exact ⟨_, _, bs, rfl, hh, .refl _ h, id, .inl ⟨rfl, rfl, rfl, .inl hzero⟩⟩
  · -- The size is rounded up before it is compared with anything.
    rename_i hne
    have hneed : (if rtAlign size < minSizeAligned then minSizeAligned else rtAlign size) =
        UInt32.ofNat (need size) := by
      have hmin : minSizeAligned.toNat = 12 := rfl
      unfold need
      split
      · rename_i hlt
        rw [UInt32.lt_iff_toNat_lt, hmin] at hlt
        rw [max_eq_left (by omega)]
        rfl
      · rename_i hge
        rw [UInt32.lt_iff_toNat_lt, hmin] at hge
        rw [max_eq_right (by omega), UInt32.ofNat_toNat]
    simp only [hneed]
    split
    · rename_i hbig
      rw [UInt32.lt_iff_toNat_lt] at hbig
      refine ⟨_, _, bs, rfl, hh, .refl _ h, id, .inl ⟨rfl, rfl, rfl, .inr ?_⟩⟩
      intro q n hmem _ hfit
      -- No block of the heap is as long as that.
      have hb := bounds_of_mem_placed hmem
      have hle : (rtAlign size).toNat ≤ need size := le_max_right _ _
      simp only at hb
      omega
    · rename_i hsmall
      have hle : need size ≤ h.memSizeAligned.toNat := by
        rw [UInt32.lt_iff_toNat_lt] at hsmall
        unfold need
        omega
      -- The search begins at `lfree`, which cuts the list in two.
      rcases FreeAt.split hh.freeAt with ⟨l, r, rfl, hf⟩
      have hlfree : h.lfree = UInt32.ofNat (extent 12 l) := by rw [← hf, UInt32.ofNat_toNat]
      have hsearch := search_eq hh.toArena hle hh.length_lt_turns
      rw [← hlfree] at hsearch
      rcases hfound : firstFit 12 (h.memSizeAligned.toNat - need size) (need size) (extent 12 l) r
        with _ | p
      · rw [hfound, Option.map_none] at hsearch
        rw [hsearch]
        refine ⟨_, _, l ++ r, rfl, hh, .refl _ h, id, .inl ⟨rfl, rfl, rfl, .inr ?_⟩⟩
        intro q n hmem hq hfit
        -- What is in front of `lfree` is none of the blocks that `NoFit` speaks of.
        rw [placed_append, List.mem_append, Nat.zero_add] at hmem
        rcases hmem with hmem | hmem
        · have hb := bounds_of_mem_placed hmem
          omega
        · exact firstFit_none.mp hfound q _ hmem rfl hfit
      · rw [hfound, Option.map_some] at hsearch
        rcases firstFit_some hfound with ⟨l', ⟨n, u⟩, r', rfl, rfl, hlimit, hfree, hfit⟩
        simp only at hfree hfit
        subst hfree
        have hplace : extent 12 l + extent 12 l' = extent 12 (l ++ l') := by rw [extent_append]
        have hh' : Holds h ((l ++ l') ++ ⟨n, false⟩ :: r') := by
          rw [List.append_assoc]
          exact hh
        have hpos : 0 < need size := lt_of_lt_of_le (by omega) (le_max_left 12 _)
        rcases take_spec hh' hpos hfit (need_mod size) with
          ⟨h', s, r₂, htake, hs, hh₂, hkeeps, hlive, hlow⟩
        rw [hsearch, hplace]
        rw [List.append_assoc] at hkeeps hlow
        refine ⟨_, _, _, htake, hh₂, hkeeps, hlow, .inr ⟨extent 12 (l ++ l'), s,
          live 12 0 (l ++ l'), live 12 (extent 12 (l ++ l') + (12 + n)) r', rfl, hs, ?_, ?_, hne,
          fun hno => ?_⟩⟩
        · rw [← List.append_assoc, live_append, Nat.zero_add]
          rfl
        · rw [live_append, Nat.zero_add, live_cons, ← hlive]
          rfl
        · have hmem : (extent 12 (l ++ l'), (⟨n, false⟩ : Block)) ∈
              placed 12 0 ((l ++ l') ++ ⟨n, false⟩ :: r') :=
            mem_placed_append_cons.mpr (.inr (.inl ⟨by omega, rfl⟩))
          rw [List.append_assoc] at hmem
          have hle := hno _ n hmem (by rw [hf, extent_append]; omega) hfit
          omega

end Malloc

section Free

variable {h : Heap} {bs : List Block} {p s : Nat}

/-- The header in front of an address. -/
theorem headerOf_eq (h : Heap) (p : Nat) :
    h.headerOf (UInt32.ofNat (h.heapPtr.toNat + p + 12)) = UInt32.ofNat p := by
  have hsum : UInt32.ofNat (h.heapPtr.toNat + p + 12) =
      UInt32.ofNat p + h.heapPtr + sizeofStructMem := by
    rw [UInt32.ofNat_add, UInt32.ofNat_add, UInt32.ofNat_toNat, UInt32.add_comm h.heapPtr]
    rfl
  rw [headerOf, hsum, UInt32.add_sub_cancel, UInt32.add_sub_cancel]

/-- The address of a block is one of the heap. -/
theorem rmem_cases {l r : List Block} {b : Block} (hA : Arena h (l ++ b :: r)) (hb : 0 < b.size) :
    UInt32.ofNat (h.heapPtr.toNat + extent 12 l + 12) ≠ rtNull ∧
      UInt32.ofNat (h.heapPtr.toNat + extent 12 l + 12) &&& (rtAlignSize - 1) = 0 ∧
      h.heapPtr ≤ UInt32.ofNat (h.heapPtr.toNat + extent 12 l + 12) ∧
      UInt32.ofNat (h.heapPtr.toNat + extent 12 l + 12) < h.addr h.heapEnd := by
  have hend := hA.end_le
  have hlength := hA.length
  have hstart := hA.start
  have hmod := hA.extent_mod
  simp only [extent_append, extent_cons] at hend hlength
  have hnat : (UInt32.ofNat (h.heapPtr.toNat + extent 12 l + 12)).toNat =
      h.heapPtr.toNat + extent 12 l + 12 := toNat_ofNat (by omega)
  refine ⟨?_, ?_, ?_, ?_⟩
  · rw [Ne, ← UInt32.toNat_inj, hnat]
    exact Nat.succ_ne_zero _
  · rw [← UInt32.toNat_inj, toNat_and_low, hnat]
    change (h.heapPtr.toNat + extent 12 l + 12) % 4 = 0
    omega
  · rw [UInt32.le_iff_toNat_le, hnat]
    omega
  · rw [heapEnd_eq, addr_ofNat, ofNat_lt_iff (by omega) (by omega)]
    omega

/-- The block is free, `lfree` is not behind it, and it is no longer counted. -/
theorem release_spec {l r : List Block} (hh : Holds h (l ++ ⟨s, true⟩ :: r)) {f : Nat}
    (hf : f = if extent 12 l < h.lfree.toNat then extent 12 l else h.lfree.toNat) :
    Arena (h.release (UInt32.ofNat (extent 12 l))) (l ++ ⟨s, false⟩ :: r) ∧
      Keeps (live 12 0 (l ++ ⟨s, false⟩ :: r)) h (h.release (UInt32.ofNat (extent 12 l))) ∧
      (h.release (UInt32.ofNat (extent 12 l))).lfree = UInt32.ofNat f ∧
      (h.release (UInt32.ofNat (extent 12 l))).usedMem =
        UInt32.ofNat (usedExtent 12 (l ++ ⟨s, false⟩ :: r)) := by
  have hend := hh.end_le
  have hpos := hh.head_eq
  have hle := hh.freeAt_le hh.freeAt
  have hlength := hh.length
  have hinside := hh.inside
  have hused := hh.usedMem
  simp only [extent_cons] at hend
  rcases arena_setUsed (u := false) (f := fun m => { m with used := 0, magic := heapMagic })
    hh.toArena rfl (by rw [hpos]; rfl) with ⟨hA, hkeeps⟩
  have hpos₁ := hA.head_eq
  unfold head at hpos₁
  have hptr := hkeeps.heapPtr
  generalize hh₁ : h.modify (UInt32.ofNat (extent 12 l)) (fun m =>
    { m with used := 0, magic := heapMagic }) = h₁ at hA hkeeps hpos₁ hptr
  have hlfree₁ : h₁.lfree = h.lfree := by rw [← hh₁]; rfl
  have hused₁ : h₁.usedMem = h.usedMem := by rw [← hh₁]; rfl
  -- The source compares addresses; the heap begins in front of both places.
  have hbelow : h₁.addr (UInt32.ofNat (extent 12 l)) < h₁.addr h₁.lfree ↔
      extent 12 l < h.lfree.toNat := by
    have haddr := addr_ofNat h₁ h.lfree.toNat
    rw [UInt32.ofNat_toNat] at haddr
    rw [hlfree₁, haddr, addr_ofNat, hptr, ofNat_lt_iff (by omega) (by omega)]
    omega
  -- What is taken away from `used_mem` is one of the lengths it is the sum of.
  have hcount : h.usedMem - (UInt32.ofNat (extent 12 l + (12 + s)) - UInt32.ofNat (extent 12 l)) =
      UInt32.ofNat (usedExtent 12 (l ++ ⟨s, false⟩ :: r)) := by
    have hsum : usedExtent 12 (l ++ ⟨s, true⟩ :: r) =
        usedExtent 12 (l ++ ⟨s, false⟩ :: r) + (12 + s) := by
      simp only [usedExtent_append, usedExtent_cons, if_true, Bool.false_eq_true, if_false]
      omega
    rw [length_eq, hused, hsum, UInt32.ofNat_add _ (12 + s), UInt32.add_sub_cancel]
  unfold release
  simp only [hh₁]
  split
  · rename_i hlt
    rw [if_pos (hbelow.mp hlt)] at hf
    refine ⟨hA.congr rfl rfl rfl, hkeeps.trans (keeps_of_eq _ rfl rfl rfl), by rw [hf], ?_⟩
    have hhead : ({ h₁ with lfree := UInt32.ofNat (extent 12 l) } : Heap).header
        (UInt32.ofNat (extent 12 l)) = h₁.header (UInt32.ofNat (extent 12 l)) := rfl
    rw [hhead, hpos₁, hused₁]
    exact hcount
  · rename_i hge
    rw [if_neg (fun hlt => hge (hbelow.mpr hlt))] at hf
    refine ⟨hA.congr rfl rfl rfl, hkeeps.trans (keeps_of_eq _ rfl rfl rfl), ?_, ?_⟩
    · rw [hf, UInt32.ofNat_toNat]
      exact hlfree₁
    · rw [hpos₁, hused₁]
      exact hcount

/-- `rt_free` of a block in use: it is joined with its free neighbours, and `lfree` points
    to a free block. -/
theorem rtFree_spec (hh : Holds h bs) (hlive : (p, s) ∈ live 12 0 bs) :
    ∃ h' bs' L R, h.rtFree (UInt32.ofNat (h.heapPtr.toNat + p + 12)) = some h' ∧ Holds h' bs' ∧
      live 12 0 bs = L ++ (p, s) :: R ∧ live 12 0 bs' = L ++ R ∧ Keeps (L ++ R) h h' ∧
      (∃ n, (h'.lfree.toNat, ⟨n, false⟩) ∈ placed 12 0 bs') ∧
      (Lowest 12 bs h.lfree.toNat → Lowest 12 bs' h'.lfree.toNat) := by
  have hs : 0 < s := hh.rooms _ hlive
  rcases live_split hlive with ⟨l, r, rfl, hp, hsplit⟩
  rw [Nat.zero_add] at hp
  subst hp
  have hend := hh.end_le
  have hpos := hh.head_eq
  unfold head at hpos
  simp only [extent_cons] at hend
  rcases rmem_cases hh.toArena hs with ⟨hne, hand, hge, hlt⟩
  rcases hh.settled.parts with ⟨hl, hr, -, -⟩
  generalize hf : (if extent 12 l < h.lfree.toNat then extent 12 l else h.lfree.toNat) = f
  have hfree : FreeAt 12 (l ++ ⟨s, false⟩ :: r) f := hf ▸ freeAt_released hh.freeAt
  rcases release_spec hh hf.symm with ⟨hA, hkeeps, hlfree, hused⟩
  -- On both sides of the block free ones are apart, as they were before.
  rcases plugHoles_spec hA hl hr hlfree hfree with
    ⟨h', bs', p', s', hplug, hple, hmem, hsettled, -, hJ⟩
  have hsame : live 12 0 (l ++ ⟨s, false⟩ :: r) =
      live 12 0 l ++ live 12 (extent 12 l + (12 + s)) r := by simp
  have hf' : h'.lfree.toNat = into 12 p' s' f := by
    rw [hJ.lfree, toNat_ofNat (hJ.arena.freeAt_lt hJ.freeAt)]
  refine ⟨h', bs', live 12 0 l, live 12 (extent 12 l + (12 + s)) r, ?_,
    ⟨hJ.arena, hsettled, ?_, ?_, ?_⟩, hsplit, ?_, ?_, ?_, fun hlow => ?_⟩
  · unfold rtFree
    rw [if_neg hne, if_pos ⟨hand, hge, hlt⟩]
    simp only [headerOf_eq, hpos, if_true]
    rw [if_pos (by decide)]
    exact hplug
  · rw [hf']
    exact hJ.freeAt
  · rw [hJ.usedMem, hused, hJ.usedExtent]
  · intro x hx
    rw [hJ.live, hsame, List.mem_append] at hx
    refine hh.rooms x ?_
    rw [hsplit, List.mem_append, List.mem_cons]
    exact hx.imp id .inr
  · rw [hJ.live, hsame]
  · rw [← hsame]
    exact hkeeps.trans hJ.keeps
  · -- The pointer is not behind the block that has become free, so it is not the end.
    rw [hf']
    rcases hJ.freeAt with hlast | hat
    · have hle : f ≤ extent 12 l := by
        rw [← hf]
        split
        · exact le_refl _
        · omega
      have hinto : into 12 p' s' f ≤ f := into_le p' s' f
      have hlen : extent 12 bs' = extent 12 (l ++ ⟨s, false⟩ :: r) := by
        rw [hJ.arena.length, hA.length, hJ.keeps.memSizeAligned]
      simp only [extent_append, extent_cons] at hlen
      omega
    · exact hat
  · rw [hf']
    exact hJ.lowest f (hf ▸ lowest_released hlow)

end Free

section Realloc

variable {h : Heap} {bs : List Block} {p s m : Nat}

/-- Cutting off what a block in use no longer needs. `lfree` is not lowered, so what is cut
    off in front of it is lost to the search, unless it is joined with the block that
    `lfree` points to. -/
theorem shrink_spec (hh : Holds h bs) (hlive : (p, s) ∈ live 12 0 bs) (hpos : 0 < m)
    (hm : m % 4 = 0) (hfit : m + 24 < s) :
    ∃ h' bs' L R, (({ h with usedMem := h.usedMem - (UInt32.ofNat s - UInt32.ofNat m) } :
          Heap).cut (UInt32.ofNat p) (UInt32.ofNat (p + (12 + m)))).plugHoles
            (UInt32.ofNat (p + (12 + m))) = some h' ∧ Holds h' bs' ∧
      live 12 0 bs = L ++ (p, s) :: R ∧ live 12 0 bs' = L ++ (p, m) :: R ∧
      Keeps (L ++ (p, m) :: R) h h' ∧
      (Lowest 12 bs h.lfree.toNat → (Lowest 12 bs' h'.lfree.toNat ↔
        h.lfree.toNat ≤ p + (12 + m) ∨
          (h.lfree.toNat = p + (12 + s) ∧ h.lfree.toNat ≠ extent 12 bs))) := by
  rcases live_split hlive with ⟨l, r, rfl, hp, hsplit⟩
  rw [Nat.zero_add] at hp
  subst hp
  rcases hh.settled.parts with ⟨hl, hr, -, -⟩
  have hend := hh.end_le
  have hused := hh.usedMem
  simp only [extent_cons] at hend
  -- The count goes down before the block is cut, which makes no difference.
  generalize hh₀ : ({ h with usedMem := h.usedMem - (UInt32.ofNat s - UInt32.ofNat m) } : Heap) = h₀
  have hA₀ : Arena h₀ (l ++ ⟨s, true⟩ :: r) := by
    rw [← hh₀]
    exact hh.toArena.congr rfl rfl rfl
  have hkeeps₀ : ∀ rooms, Keeps rooms h h₀ := by
    intro rooms
    rw [← hh₀]
    exact keeps_of_eq _ rfl rfl rfl
  have hlfree₀ : h₀.lfree = h.lfree := by rw [← hh₀]
  have hused₀ : h₀.usedMem = h.usedMem - (UInt32.ofNat s - UInt32.ofNat m) := by rw [← hh₀]
  rcases arena_cut (s := m) hA₀ rfl rfl (by simp only; omega) hm with ⟨hA, hkeeps, hlfree, hum⟩
  simp only at hA hkeeps hlfree hum
  generalize h₀.cut (UInt32.ofNat (extent 12 l)) (UInt32.ofNat (extent 12 l + (12 + m))) = h₁
    at hA hkeeps hlfree hum ⊢
  generalize ht : s - (m + 12) = t at hA hkeeps
  have hs : s = m + (12 + t) := by omega
  have hcut : l ++ ⟨m, true⟩ :: ⟨t, false⟩ :: r = (l ++ [⟨m, true⟩]) ++ ⟨t, false⟩ :: r := by simp
  have hplace : extent 12 (l ++ [⟨m, true⟩]) = extent 12 l + (12 + m) := by simp
  have hplace₂ : extent 12 l + (12 + m) + (12 + t) = extent 12 l + (12 + s) := by omega
  have hfree : FreeAt 12 (l ++ ⟨m, true⟩ :: ⟨t, false⟩ :: r) h.lfree.toNat :=
    freeAt_cut hs hh.freeAt
  have hlfree₁ : h₁.lfree = UInt32.ofNat h.lfree.toNat := by
    rw [hlfree, hlfree₀, UInt32.ofNat_toNat]
  -- In front of what is cut off there is a block in use, so nothing is joined there.
  have hl' : Settled (l ++ [⟨m, true⟩]) :=
    settled_append_cons hl List.isChain_nil (fun a _ => .inr rfl) fun c hc => absurd hc (by simp)
  have hlive' : live 12 0 (l ++ ⟨m, true⟩ :: ⟨t, false⟩ :: r) =
      live 12 0 l ++ (extent 12 l, m) :: live 12 (extent 12 l + (12 + s)) r := by
    simp [hplace₂]
  rw [hcut] at hA
  have hfree' := hfree
  rw [hcut] at hfree'
  rcases plugHoles_spec hA hl' hr hlfree₁ hfree' with
    ⟨h', bs', p', s', hplug, -, hmem, hsettled, hlast, hJ⟩
  -- Hence the free block begins where it was cut off.
  rcases hlast (by simp) with ⟨rfl, hs'⟩
  rw [← hcut] at hJ
  rw [hplace] at hplug hmem hJ
  have hf' : h'.lfree.toNat = into 12 (extent 12 l + (12 + m)) s' h.lfree.toNat := by
    rw [hJ.lfree, toNat_ofNat (hJ.arena.freeAt_lt hJ.freeAt)]
  refine ⟨h', bs', live 12 0 l, live 12 (extent 12 l + (12 + s)) r, hplug,
    ⟨hJ.arena, hsettled, ?_, ?_, ?_⟩, hsplit, ?_, ?_, fun hlow => ?_⟩
  · rw [hf']
    exact hJ.freeAt
  · have hsum : usedExtent 12 (l ++ ⟨s, true⟩ :: r) =
        usedExtent 12 (l ++ ⟨m, true⟩ :: ⟨t, false⟩ :: r) + (12 + t) := by
      simp only [usedExtent_append, usedExtent_cons, if_true, Bool.false_eq_true, if_false]
      omega
    rw [hJ.usedMem, hum, hused₀, hused, hJ.usedExtent, hs, length_eq, ← hs, hsum,
      UInt32.ofNat_add _ (12 + t), UInt32.add_sub_cancel]
  · intro x hx
    rw [hJ.live, hlive', List.mem_append, List.mem_cons] at hx
    have hrooms := hh.rooms
    rw [hsplit] at hrooms
    rcases hx with hx | rfl | hx
    · exact hrooms x (List.mem_append_left _ hx)
    · exact hpos
    · exact hrooms x (List.mem_append_right _ (List.mem_cons_of_mem _ hx))
  · rw [hJ.live, hlive']
  · rw [← hlive']
    exact ((hkeeps₀ _).trans hkeeps).trans hJ.keeps
  · -- `lfree` is corrected by the join alone, and then compared with the new free block.
    rw [hf']
    constructor
    · intro hlow'
      have hle := hlow' _ s' hmem
      unfold into at hle
      split at hle
      · rename_i hin
        -- The pointer is to a free block, so it is to one of the two that are joined.
        by_cases hlt : h.lfree.toNat < extent 12 l + (12 + s)
        · have hat := hfree'.eq_of_inside (by omega) (by rw [hplace]; exact hin.1)
            (by rw [hplace]; simp only; omega)
          exact .inl (by omega)
        · rcases hs' with ⟨hs', -⟩ | ⟨t₂, r', rfl, hs'⟩
          · omega
          · have hcut₂ : l ++ ⟨m, true⟩ :: ⟨t, false⟩ :: ⟨t₂, false⟩ :: r' =
                (l ++ [⟨m, true⟩, ⟨t, false⟩]) ++ ⟨t₂, false⟩ :: r' := by simp
            have hplace₃ : extent 12 (l ++ [⟨m, true⟩, ⟨t, false⟩]) =
                extent 12 l + (12 + s) := by
              simp only [extent_append, extent_cons, extent_nil]
              omega
            rw [hcut₂] at hfree
            have hat := hfree.eq_of_inside (by omega) (by rw [hplace₃]; omega)
              (by rw [hplace₃]; simp only; omega)
            rw [hplace₃] at hat
            refine .inr ⟨hat.1, ?_⟩
            simp only [extent_append, extent_cons]
            omega
      · exact .inl hle
    · rintro (hle | ⟨hat, hne⟩)
      · exact hJ.lowest _ (lowest_cut hlow hle)
      · -- `lfree` points to the block behind, which is joined with what is cut off.
        have hbehind : ∃ t₂ r', r = ⟨t₂, false⟩ :: r' := by
          rcases hh.freeAt with hlast | ⟨k, hk⟩
          · exact absurd hlast hne
          · rcases mem_placed_append_cons.mp hk with hk | ⟨heq, -⟩ | hk
            · have hb := bounds_of_mem_placed hk
              omega
            · omega
            · rcases r with _ | ⟨c, r'⟩
              · exact absurd hk List.not_mem_nil
              · rcases List.mem_cons.mp hk with heq | hk
                · rw [Prod.mk.injEq] at heq
                  exact ⟨k, r', by rw [heq.2]⟩
                · have hb := bounds_of_mem_placed hk
                  simp only at hb
                  omega
        rcases hbehind with ⟨t₂, r', rfl⟩
        rcases hs' with ⟨-, hhead⟩ | ⟨t₃, r'', heq, hs'⟩
        · exact absurd (hhead _ rfl) (by simp)
        · rw [List.cons.injEq, Block.mk.injEq] at heq
          have hlow₂ : Lowest 12 (l ++ ⟨s, true⟩ :: ⟨t₂, false⟩ :: r') (extent 12 l + (12 + m)) :=
            fun q k hk => le_trans (by omega) (hlow q k hk)
          have hjoined := hJ.lowest _ (lowest_cut hlow₂ (le_refl _))
          have hself : into 12 (extent 12 l + (12 + m)) s' (extent 12 l + (12 + m)) =
              extent 12 l + (12 + m) := by
            rw [into, if_pos (by omega)]
          have hin : into 12 (extent 12 l + (12 + m)) s' h.lfree.toNat =
              extent 12 l + (12 + m) := by
            rw [into, if_pos (by omega)]
          rw [hin]
          rw [hself] at hjoined
          exact hjoined

/-- `rt_realloc` under its first lock: the block has the size already, or it is long enough
    to be cut, or nothing is done. -/
theorem resize_spec (hh : Holds h bs) (hlive : (p, s) ∈ live 12 0 bs) (hpos : 0 < m)
    (hm : m % 4 = 0) (hle : m ≤ h.memSizeAligned.toNat) :
    (m = s ∧ h.resize (UInt32.ofNat (h.heapPtr.toNat + p + 12)) (UInt32.ofNat m) =
        some (true, h)) ∨
      (m ≠ s ∧ s ≤ m + 24 ∧ h.resize (UInt32.ofNat (h.heapPtr.toNat + p + 12)) (UInt32.ofNat m) =
        some (false, h)) ∨
      (m + 24 < s ∧ ∃ h' bs' L R,
        h.resize (UInt32.ofNat (h.heapPtr.toNat + p + 12)) (UInt32.ofNat m) = some (true, h') ∧
        Holds h' bs' ∧ live 12 0 bs = L ++ (p, s) :: R ∧ live 12 0 bs' = L ++ (p, m) :: R ∧
        Keeps (L ++ (p, m) :: R) h h' ∧
        (Lowest 12 bs h.lfree.toNat → (Lowest 12 bs' h'.lfree.toNat ↔
          h.lfree.toNat ≤ p + (12 + m) ∨
            (h.lfree.toNat = p + (12 + s) ∧ h.lfree.toNat ≠ extent 12 bs)))) := by
  have hs : 0 < s := hh.rooms _ hlive
  rcases live_split hlive with ⟨l, r, hbs, hp, -⟩
  rw [Nat.zero_add] at hp
  have hA := hh.toArena
  rw [hbs] at hA
  have hend := hA.end_le
  have hlength := hA.length
  have hinside := hA.inside
  have hpos' := hA.head_eq
  unfold head at hpos'
  simp only [extent_append, extent_cons] at hend hlength hpos'
  rcases rmem_cases hA hs with ⟨-, -, hge, hlt⟩
  have hin : ¬ (UInt32.ofNat (h.heapPtr.toNat + extent 12 l + 12) < h.heapPtr ∨
      h.addr h.heapEnd ≤ UInt32.ofNat (h.heapPtr.toNat + extent 12 l + 12)) := by
    rw [not_or]
    exact ⟨UInt32.not_lt.mpr hge, UInt32.not_le.mpr hlt⟩
  have hcond : UInt32.ofNat m + sizeofStructMem + minSizeAligned < UInt32.ofNat s ↔
      m + 24 < s := by
    rw [limit_eq, ofNat_lt_iff (by omega) (by omega)]
  have hresize : h.resize (UInt32.ofNat (h.heapPtr.toNat + extent 12 l + 12)) (UInt32.ofNat m) =
      if s = m then some (true, h)
      else if m + 24 < s then
        ((({ h with usedMem := h.usedMem - (UInt32.ofNat s - UInt32.ofNat m) } : Heap).cut
          (UInt32.ofNat (extent 12 l)) (UInt32.ofNat (extent 12 l + (12 + m)))).plugHoles
            (UInt32.ofNat (extent 12 l + (12 + m)))).map fun h => (true, h)
      else some (false, h) := by
    unfold resize
    rw [if_neg hin]
    simp only [headerOf_eq, hpos', size_eq, ofNat_eq_iff (by omega : s < 2 ^ 32)
      (by omega : m < 2 ^ 32), hcond, behind_eq]
  subst hp
  rw [hresize]
  by_cases heq : m = s
  · exact .inl ⟨heq, by rw [if_pos heq.symm]⟩
  · right
    rw [if_neg (Ne.symm heq)]
    by_cases hcut : m + 24 < s
    · right
      rcases shrink_spec hh hlive hpos hm hcut with ⟨h', bs', L, R, hplug, hrest⟩
      refine ⟨hcut, h', bs', L, R, ?_, hrest⟩
      rw [if_pos hcut, hplug]
      rfl
    · exact .inl ⟨heq, by omega, by rw [if_neg hcut]⟩

end Realloc

section Init

/-- The heap at the beginning: one free block. -/
theorem holds_init {ram : Memory UInt8} {beginAddr endAddr : UInt32} {h : Heap}
    (hinit : rtSystemHeapInit ram beginAddr endAddr = some h) :
    Holds h [⟨h.memSizeAligned.toNat, false⟩] ∧ h.lfree = 0 := by
  unfold rtSystemHeapInit at hinit
  simp only at hinit
  split at hinit
  · rename_i hroom
    have hbegin := toNat_rtAlign beginAddr
    have hend : (rtAlignDown endAddr).toNat = endAddr.toNat / 4 * 4 := toNat_alignDown endAddr
    have hlt := endAddr.toNat_lt
    generalize rtAlign beginAddr = b at hinit hroom hbegin
    generalize rtAlignDown endAddr = e at hinit hroom hend
    have htwo : (2 * sizeofStructMem : UInt32).toNat = 24 := rfl
    have htwo_le : 2 * sizeofStructMem ≤ e := UInt32.le_of_lt hroom.1
    have hle := hroom.2
    rw [UInt32.le_iff_toNat_le, UInt32.toNat_sub_of_le _ _ htwo_le, htwo] at hle
    have h24 := hroom.1
    rw [UInt32.lt_iff_toNat_lt, htwo] at h24
    -- There is room for two headers between the ends, so no difference wraps around.
    have hbe : b ≤ e := by
      rw [UInt32.le_iff_toNat_le]
      omega
    have hsub : (e - b).toNat = e.toNat - b.toNat := UInt32.toNat_sub_of_le _ _ hbe
    have htwo_le' : 2 * sizeofStructMem ≤ e - b := by
      rw [UInt32.le_iff_toNat_le, htwo, hsub]
      omega
    have hsize : (e - b - 2 * sizeofStructMem).toNat = e.toNat - b.toNat - 24 := by
      rw [UInt32.toNat_sub_of_le _ _ htwo_le', hsub, htwo]
    generalize e - b - 2 * sizeofStructMem = size at hinit hsize
    have hlast : size + sizeofStructMem = UInt32.ofNat (size.toNat + 12) := by
      rw [UInt32.ofNat_add, UInt32.ofNat_toNat]
      rfl
    generalize hh₀ : (⟨ram, b, size, 0, 0, 0⟩ : Heap) = h₀ at hinit
    have hptr₀ : h₀.heapPtr = b := by rw [← hh₀]
    have hsize₀ : h₀.memSizeAligned = size := by rw [← hh₀]
    have hlfree₀ : h₀.lfree = 0 := by rw [← hh₀]
    have hused₀ : h₀.usedMem = 0 := by rw [← hh₀]
    rw [Option.some.injEq, hlast] at hinit
    have hhead : h.head 0 = ⟨heapMagic, 0, UInt32.ofNat (size.toNat + 12), 0⟩ := by
      rw [← hinit]
      have hzero : (0 : UInt32) = UInt32.ofNat 0 := rfl
      -- The header at the end is behind the first one and does not touch it.
      rw [hzero, head_modify_modify (by rw [hptr₀]; omega) (by rw [hptr₀]; omega)
        (by rw [hptr₀]; omega) (.inl rfl) (.inr (.inr (by omega))) (by omega),
        if_neg (by omega), if_pos rfl]
    have hptr : h.heapPtr = b := by rw [← hinit]; exact hptr₀
    have hmem : h.memSizeAligned = size := by rw [← hinit]; exact hsize₀
    have hlfree : h.lfree = 0 := by rw [← hinit]; exact hlfree₀
    have hused : h.usedMem = 0 := by rw [← hinit]; exact hused₀
    refine ⟨⟨⟨⟨?_, trivial⟩, ?_, ?_, ?_, ?_⟩, List.isChain_singleton _, ?_, ?_, ?_⟩, hlfree⟩
    · rw [hhead, hmem, Nat.zero_add, Nat.add_comm 12]
      rfl
    · simp only [extent_cons, extent_nil]
      omega
    · rw [hptr, hmem]
      omega
    · rw [hptr]
      omega
    · intro c hc
      rw [List.mem_singleton.mp hc, hmem]
      simp only
      omega
    · exact .inr ⟨h.memSizeAligned.toNat, by simp [hlfree]⟩
    · rw [hused]
      rfl
    · intro x hx
      exact absurd hx (by simp)
  · exact absurd hinit (by simp)

end Init

end Heap

end Firmware
