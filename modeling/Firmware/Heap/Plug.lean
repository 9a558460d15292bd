import Firmware.Heap.Chain

/-!
# Plugging Holes

`plug_holes` joins a block that has become free with the free block behind it and with the
one in front of it, so that two free blocks are never next to each other.

`lfree` may point to one of the blocks that are joined. Each half of the function corrects
it for the header it takes out, and together that is `Blocks.into`: a pointer into what is
now one block points to the beginning of it.

## Main definitions

* `Joined`: What joining free blocks has changed.

## Theorems

* `Arena.congr`: Variables that are not headers.
* `joined_join`: Joining two free blocks.
* `plugForward_spec`: The block behind.
* `plugBackward_spec`: The block in front.
* `plugHoles_spec`: Both.
-/

namespace Firmware

open Blocks

namespace Heap

variable {h h' : Heap} {l r bs : List Block} {p s f : Nat}

/-- The headers are in the memory and nowhere else. -/
theorem Arena.congr (hA : Arena h bs) (hram : h'.ram = h.ram) (hptr : h'.heapPtr = h.heapPtr)
    (hmem : h'.memSizeAligned = h.memSizeAligned) : Arena h' bs := by
  have hhead : h'.head = h.head := by
    funext x
    simp only [head, header, addr, hram, hptr]
  refine ⟨?_, ?_, ?_, ?_, hA.sizes⟩
  · rw [hhead]
    exact hA.linked
  · rw [hmem]
    exact hA.length
  · rw [hptr, hmem]
    exact hA.inside
  · rw [hptr]
    exact hA.start

theorem keeps_of_eq (rooms : List (Nat × Nat)) (hram : h'.ram = h.ram)
    (hptr : h'.heapPtr = h.heapPtr) (hmem : h'.memSizeAligned = h.memSizeAligned) :
    Keeps rooms h h' :=
  ⟨hptr, hmem, fun p n _ i _ => by rw [hram]⟩

/-- The block a header belongs to is not the last one. -/
theorem Arena.heapEnd_ne {b : Block} (hA : Arena h (l ++ b :: r)) :
    UInt32.ofNat (extent 12 l) ≠ h.heapEnd := by
  have hlength := hA.length
  have hinside := hA.inside
  rw [extent_append, extent_cons] at hlength
  rw [heapEnd_eq, Ne, ofNat_eq_iff (by omega) (by omega)]
  omega

/-- A pointer to a free block that is not inside a block it does not begin. -/
theorem FreeAt.into_eq {b : Block} (h : FreeAt 12 (l ++ b :: r) f) :
    into 12 (extent 12 l) b.size f = f := by
  unfold into
  split
  · rename_i hin
    exact (h.eq_of_inside (by omega) hin.1 hin.2).1.symm
  · rfl

theorem into_into {hdr p' s' : Nat} (hle : p' ≤ p) (hend : p + (hdr + s) ≤ p' + (hdr + s')) :
    into hdr p' s' (into hdr p s f) = into hdr p' s' f := by
  unfold into
  split
  · rename_i hin
    rw [if_pos (by omega), if_pos (by omega)]
  · rfl

/-- Free blocks of the list `bs` have been joined to the one of the list `bs'` at `p` with
    the room `s`. The pointer to a free block, `f`, is corrected. -/
structure Joined (bs bs' : List Block) (p s f : Nat) (h h' : Heap) : Prop where
  arena : Arena h' bs'
  keeps : Keeps (Blocks.live 12 0 bs) h h'
  live : live 12 0 bs' = live 12 0 bs
  usedExtent : usedExtent 12 bs' = usedExtent 12 bs
  usedMem : h'.usedMem = h.usedMem
  lfree : h'.lfree = UInt32.ofNat (into 12 p s f)
  freeAt : FreeAt 12 bs' (into 12 p s f)
  lowest : ∀ g, Lowest 12 bs g → Lowest 12 bs' (into 12 p s g)

theorem Joined.same (hA : Arena h (l ++ ⟨s, false⟩ :: r)) (hlfree : h.lfree = UInt32.ofNat f)
    (hfree : FreeAt 12 (l ++ ⟨s, false⟩ :: r) f) :
    Joined (l ++ ⟨s, false⟩ :: r) (l ++ ⟨s, false⟩ :: r) (extent 12 l) s f h h := by
  -- The pointer is not inside the block, so there is nothing to correct.
  have hinto := FreeAt.into_eq hfree
  simp only at hinto
  refine ⟨hA, .refl _ h, rfl, rfl, rfl, ?_, ?_, fun g hl q n hmem => ?_⟩
  · rw [hinto, hlfree]
  · rw [hinto]
    exact hfree
  · exact le_trans (into_le _ _ _) (hl q n hmem)

theorem Joined.trans {bs' bs'' : List Block} {p' s' : Nat} {h'' : Heap}
    (h₁ : Joined bs bs' p s f h h') (h₂ : Joined bs' bs'' p' s' (into 12 p s f) h' h'')
    (hle : p' ≤ p) (hend : p + (12 + s) ≤ p' + (12 + s')) : Joined bs bs'' p' s' f h h'' := by
  have hinto := into_into (f := f) hle hend
  -- Both joins keep the rooms in use, which are the same ones.
  have hkeeps := h₂.keeps
  rw [h₁.live] at hkeeps
  refine ⟨h₂.arena, h₁.keeps.trans hkeeps, h₂.live.trans h₁.live,
    h₂.usedExtent.trans h₁.usedExtent, h₂.usedMem.trans h₁.usedMem, ?_, ?_, fun g hl => ?_⟩
  · rw [h₂.lfree, hinto]
  · rw [← hinto]
    exact h₂.freeAt
  · rw [← into_into hle hend]
    exact h₂.lowest _ (h₁.lowest g hl)

/-- The place of a free block is one of the heap. -/
theorem Arena.freeAt_le (hA : Arena h bs) (hfree : FreeAt 12 bs f) :
    f ≤ h.memSizeAligned.toNat + 12 := by
  have hlength := hA.length
  rcases hfree with hf | ⟨k, hf⟩
  · omega
  · have hb := bounds_of_mem_placed hf
    omega

theorem Arena.freeAt_lt (hA : Arena h bs) (hfree : FreeAt 12 bs f) : f < 2 ^ 32 := by
  have hle := hA.freeAt_le hfree
  have hinside := hA.inside
  omega

/-- Joining two free blocks, with `lfree` corrected. -/
theorem joined_join {t : Nat} (hA : Arena h (l ++ ⟨s, false⟩ :: ⟨t, false⟩ :: r))
    (hlfree : h.lfree = UInt32.ofNat f)
    (hfree : FreeAt 12 (l ++ ⟨s, false⟩ :: ⟨t, false⟩ :: r) f) :
    Joined (l ++ ⟨s, false⟩ :: ⟨t, false⟩ :: r) (l ++ ⟨s + (12 + t), false⟩ :: r) (extent 12 l)
      (s + (12 + t)) f h
      ((if h.lfree = UInt32.ofNat (extent 12 l + (12 + s)) then
        { h with lfree := UInt32.ofNat (extent 12 l) } else h).join (UInt32.ofNat (extent 12 l))
          (UInt32.ofNat (extent 12 l + (12 + s)))) := by
  have hend := hA.end_le
  simp only [extent_cons] at hend
  have hsplit : l ++ ⟨s, false⟩ :: ⟨t, false⟩ :: r = (l ++ [⟨s, false⟩]) ++ ⟨t, false⟩ :: r := by
    simp
  have hplace : extent 12 (l ++ [⟨s, false⟩]) = extent 12 l + (12 + s) := by simp
  generalize hh1 : (if h.lfree = UInt32.ofNat (extent 12 l + (12 + s)) then
    { h with lfree := UInt32.ofNat (extent 12 l) } else h) = h1
  -- The test of the source, in terms of the place and not of the word.
  have hiff : h.lfree = UInt32.ofNat (extent 12 l + (12 + s)) ↔ f = extent 12 l + (12 + s) := by
    rw [hlfree, ofNat_eq_iff (hA.freeAt_lt hfree) (by omega)]
  have hvars : h1.ram = h.ram ∧ h1.heapPtr = h.heapPtr ∧ h1.memSizeAligned = h.memSizeAligned ∧
      h1.usedMem = h.usedMem := by
    rw [← hh1]
    split
    · exact ⟨rfl, rfl, rfl, rfl⟩
    · exact ⟨rfl, rfl, rfl, rfl⟩
  have hlfree1 : h1.lfree = UInt32.ofNat (into 12 (extent 12 l) (s + (12 + t)) f) := by
    rw [← hh1]
    split
    · rename_i heq
      have hf := hiff.mp heq
      rw [into, if_pos (by omega)]
    · rename_i hneq
      rw [hlfree]
      congr 1
      unfold into
      split
      · rename_i hin
        -- The pointer is to one of the two blocks, and not to the second one.
        by_cases hlow : f < extent 12 l + (12 + s)
        · exact (hfree.eq_of_inside (by omega) hin.1 hlow).1
        · rw [hsplit] at hfree
          have hat := hfree.eq_of_inside (by omega) (by rw [hplace]; omega)
            (by rw [hplace]; simp only; omega)
          rw [hplace] at hat
          exact absurd (hiff.mpr hat.1) hneq
      · rfl
  rcases arena_join (hA.congr hvars.1 hvars.2.1 hvars.2.2.1) rfl rfl with ⟨hA', hkeeps, hlf, hum⟩
  refine ⟨hA', ?_, live_join 0 l s t r, usedExtent_join l s t r, hum.trans hvars.2.2.2,
    hlf.trans hlfree1, freeAt_join (by omega) hfree, fun _ => lowest_join⟩
  rw [← live_join]
  exact (keeps_of_eq _ hvars.1 hvars.2.1 hvars.2.2.1).trans hkeeps

/-- The block behind. -/
theorem plugForward_spec (hA : Arena h (l ++ ⟨s, false⟩ :: r)) (hr : Settled r)
    (hlfree : h.lfree = UInt32.ofNat f) (hfree : FreeAt 12 (l ++ ⟨s, false⟩ :: r) f) :
    ∃ s' r', ((s' = s ∧ ∀ c ∈ r.head?, c.used = true) ∨
        ∃ t r'', r = ⟨t, false⟩ :: r'' ∧ s' = s + (12 + t)) ∧
      Settled r' ∧ (∀ c ∈ r'.head?, c.used = true) ∧
      Joined (l ++ ⟨s, false⟩ :: r) (l ++ ⟨s', false⟩ :: r') (extent 12 l) s' f h
        (h.plugForward (UInt32.ofNat (extent 12 l))) := by
  have hpos : h.header (UInt32.ofNat (extent 12 l)) = _ := hA.head_eq
  have hend := hA.end_le
  simp only [extent_cons] at hend hpos
  rcases r with _ | ⟨⟨n, _ | _⟩, r'⟩
  · -- The last header is never joined.
    have hlast : UInt32.ofNat (extent 12 l + (12 + s)) = h.heapEnd := by
      have hlength := hA.length
      simp only [extent_append, extent_cons, extent_nil] at hlength
      rw [heapEnd_eq, ← hlength]
      rfl
    have hplug : h.plugForward (UInt32.ofNat (extent 12 l)) = h := by
      unfold plugForward
      simp only [hpos, hlast, ne_eq, not_true_eq_false, and_false, if_false]
    rw [hplug]
    exact ⟨s, [], .inl ⟨rfl, by simp⟩, hr, by simp, .same hA hlfree hfree⟩
  · have hnext : h.header (UInt32.ofNat (extent 12 l + (12 + s))) = _ := hA.head_next
    -- The block behind is free: none of the three tests fails.
    have hlast : UInt32.ofNat (extent 12 l + (12 + s)) ≠ h.heapEnd := by
      have hsplit : l ++ ⟨s, false⟩ :: ⟨n, false⟩ :: r' =
          (l ++ [⟨s, false⟩]) ++ ⟨n, false⟩ :: r' := by simp
      have hne := Arena.heapEnd_ne (hsplit ▸ hA)
      rwa [extent_append, extent_cons, extent_nil, Nat.add_zero] at hne
    have hne : UInt32.ofNat (extent 12 l) ≠ UInt32.ofNat (extent 12 l + (12 + s)) := by
      rw [Ne, ofNat_eq_iff (by omega) (by omega)]
      omega
    have hplug : h.plugForward (UInt32.ofNat (extent 12 l)) =
        (if h.lfree = UInt32.ofNat (extent 12 l + (12 + s)) then
          { h with lfree := UInt32.ofNat (extent 12 l) } else h).join (UInt32.ofNat (extent 12 l))
            (UInt32.ofNat (extent 12 l + (12 + s))) := by
      unfold plugForward
      simp only [hpos, hnext, hne, hlast, ne_eq, not_false_eq_true, Bool.false_eq_true, if_false,
        and_self, if_true]
    rw [hplug]
    rcases List.isChain_cons.mp hr with ⟨hhead, hr'⟩
    refine ⟨s + (12 + n), r', .inr ⟨n, r', rfl, rfl⟩, hr', fun c hc => ?_,
      joined_join hA hlfree hfree⟩
    rcases hhead c hc with habs | hused
    · exact absurd habs (by simp)
    · exact hused
  · have hnext : h.header (UInt32.ofNat (extent 12 l + (12 + s))) = _ := hA.head_next
    -- The block behind is in use.
    have hplug : h.plugForward (UInt32.ofNat (extent 12 l)) = h := by
      unfold plugForward
      simp only [hpos, hnext, if_true]
      rw [if_neg (by simp)]
    rw [hplug]
    exact ⟨s, _, .inl ⟨rfl, by simp⟩, hr, by simp, .same hA hlfree hfree⟩

@[simp] theorem lastOf_concat (prev ptr : Nat) (l : List Block) (a : Block) :
    lastOf prev ptr (l ++ [a]) = ptr + extent 12 l := by
  induction l generalizing prev ptr with
  | nil => simp [lastOf]
  | cons b l ih => rw [List.cons_append, lastOf, ih, extent_cons, Nat.add_assoc]

/-- The block in front. -/
theorem plugBackward_spec (hA : Arena h (l ++ ⟨s, false⟩ :: r)) (hl : Settled l)
    (hlfree : h.lfree = UInt32.ofNat f) (hfree : FreeAt 12 (l ++ ⟨s, false⟩ :: r) f) :
    ∃ l' s', extent 12 l' ≤ extent 12 l ∧
      extent 12 l + (12 + s) ≤ extent 12 l' + (12 + s') ∧ Settled l' ∧
      (∀ a ∈ l'.getLast?, a.used = true) ∧
      ((∀ a ∈ l.getLast?, a.used = true) → extent 12 l' = extent 12 l ∧ s' = s) ∧
      Joined (l ++ ⟨s, false⟩ :: r) (l' ++ ⟨s', false⟩ :: r) (extent 12 l') s' f h
        (h.plugBackward (UInt32.ofNat (extent 12 l))) := by
  have hpos : h.header (UInt32.ofNat (extent 12 l)) = _ := hA.head_eq
  have hend := hA.end_le
  simp only [extent_cons] at hend hpos
  rcases List.eq_nil_or_concat' l with rfl | ⟨l', ⟨n, u⟩, rfl⟩
  · -- The first header is its own `prev`.
    have hplug : h.plugBackward (UInt32.ofNat (extent 12 [])) = h := by
      rw [extent_nil] at hpos ⊢
      unfold plugBackward
      simp only [hpos, lastOf, ne_eq, not_true_eq_false, false_and, if_false]
    rw [hplug]
    exact ⟨[], s, le_refl _, le_refl _, hl, by simp, fun _ => ⟨rfl, rfl⟩, .same hA hlfree hfree⟩
  · have hsplit : (l' ++ [⟨n, u⟩]) ++ ⟨s, false⟩ :: r = l' ++ ⟨n, u⟩ :: ⟨s, false⟩ :: r := by simp
    have hplace : extent 12 (l' ++ [⟨n, u⟩]) = extent 12 l' + (12 + n) := by simp
    have hprev : h.header (UInt32.ofNat (extent 12 l')) = _ := Arena.head_eq (hsplit ▸ hA)
    rw [lastOf_concat, Nat.zero_add] at hpos
    rw [hplace] at hend hpos
    -- It is joined with the block in front if that one is free.
    rcases u with _ | _
    · have hne : UInt32.ofNat (extent 12 l') ≠ UInt32.ofNat (extent 12 l' + (12 + n)) := by
        rw [Ne, ofNat_eq_iff (by omega) (by omega)]
        omega
      have hplug : h.plugBackward (UInt32.ofNat (extent 12 (l' ++ [⟨n, false⟩]))) =
          (if h.lfree = UInt32.ofNat (extent 12 l' + (12 + n)) then
            { h with lfree := UInt32.ofNat (extent 12 l') } else h).join
              (UInt32.ofNat (extent 12 l')) (UInt32.ofNat (extent 12 l' + (12 + n))) := by
        rw [hplace]
        unfold plugBackward
        simp only [hpos, hprev, hne, ne_eq, not_false_eq_true, Bool.false_eq_true, if_false,
          and_self, if_true]
      rw [hplug, hsplit]
      rw [hsplit] at hA hfree
      -- The block in front of both is in use, since free ones are never neighbours.
      rcases List.isChain_append.mp hl with ⟨hl', -, hseam⟩
      refine ⟨l', n + (12 + s), by omega, by omega, hl', fun a ha => ?_, fun hused => ?_,
        joined_join hA hlfree hfree⟩
      · rcases hseam a ha ⟨n, false⟩ rfl with hused | habs
        · exact hused
        · exact absurd habs (by simp)
      · have habs := hused ⟨n, false⟩ (by simp)
        simp at habs
    · have hplug : h.plugBackward (UInt32.ofNat (extent 12 (l' ++ [⟨n, true⟩]))) = h := by
        rw [hplace]
        unfold plugBackward
        simp only [hpos, hprev, if_true]
        rw [if_neg (by simp)]
      rw [hplug]
      exact ⟨l' ++ [⟨n, true⟩], s, le_refl _, le_refl _, hl, by simp, fun _ => ⟨rfl, rfl⟩,
        .same hA hlfree hfree⟩

/-- A block that has become free between settled blocks, and its neighbours. -/
theorem plugHoles_spec (hA : Arena h (l ++ ⟨s, false⟩ :: r)) (hl : Settled l) (hr : Settled r)
    (hlfree : h.lfree = UInt32.ofNat f) (hfree : FreeAt 12 (l ++ ⟨s, false⟩ :: r) f) :
    ∃ h' bs' p' s', h.plugHoles (UInt32.ofNat (extent 12 l)) = some h' ∧ p' ≤ extent 12 l ∧
      (p', ⟨s', false⟩) ∈ placed 12 0 bs' ∧ Settled bs' ∧
      ((∀ a ∈ l.getLast?, a.used = true) → p' = extent 12 l ∧
        ((s' = s ∧ ∀ c ∈ r.head?, c.used = true) ∨
          ∃ t r', r = ⟨t, false⟩ :: r' ∧ s' = s + (12 + t))) ∧
      Joined (l ++ ⟨s, false⟩ :: r) bs' p' s' f h h' := by
  -- Forward first: what has been joined by then is what is joined backward.
  rcases plugForward_spec hA hr hlfree hfree with ⟨s₁, r', hs₁, hr', hhead, h₁⟩
  rcases plugBackward_spec h₁.arena hl h₁.lfree h₁.freeAt with
    ⟨l', s', hle, hge, hl', hlast, hsame, h₂⟩
  refine ⟨_, l' ++ ⟨s', false⟩ :: r', extent 12 l', s', ?_, hle, ?_, ?_, fun hused => ?_,
    h₁.trans h₂ hle hge⟩
  · have hend := hA.end_le
    have hlength := hA.length
    simp only [extent_append, extent_cons] at hend hlength
    have hpos : h.header (UInt32.ofNat (extent 12 l)) = _ := hA.head_eq
    have hbegin : h.heapPtr ≤ h.addr (UInt32.ofNat (extent 12 l)) := by
      rw [UInt32.le_iff_toNat_le, toNat_addr (by omega)]
      omega
    have hbelow : h.addr (UInt32.ofNat (extent 12 l)) < h.addr h.heapEnd := by
      rw [heapEnd_eq, UInt32.lt_iff_toNat_lt, toNat_addr (by omega), toNat_addr (by omega)]
      omega
    have hused : (h.header (UInt32.ofNat (extent 12 l))).used = 0 := by
      rw [hpos]
      rfl
    rw [plugHoles, if_pos ⟨hbegin, hbelow, hused⟩]
  · exact mem_placed_append_cons.mpr (.inr (.inl ⟨by omega, rfl⟩))
  · exact settled_append_cons hl' hr' (fun a ha => .inl (hlast a ha))
      fun c hc => .inr (hhead c hc)
  · rw [(hsame hused).2]
    exact ⟨(hsame hused).1, hs₁⟩

end Heap

end Firmware
