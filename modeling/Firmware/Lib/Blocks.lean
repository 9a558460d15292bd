import Mathlib

/-!
# Blocks with Headers

A stretch of memory cut into blocks that lie one behind the other without a gap, each of
them a header and some room, and each in use or free.

Where a block begins follows from the blocks in front of it, so a list of sizes is all
there is to say, and a list can neither overlap nor leave a hole. `placed` gives every
block its place, and `extent` is the length of them all.

An allocator that searches from the front takes the first free block with enough room,
cuts off what is left of it if that is worth a header, and joins a free block with free
neighbours when it gets one back. `Settled` is what the joining is for: no two free blocks
are next to each other, so that when everything is free, there is only one block.

## Main definitions

* `Block`: The room of a block, and whether it is in use.
* `Blocks.extent`: The length of blocks with their headers.
* `Blocks.placed`: The blocks with their places.
* `Blocks.live`: The blocks in use, with their places.
* `Blocks.usedExtent`: The length of the blocks in use.
* `Blocks.Settled`: No free block is next to a free one.
* `Blocks.FreeAt`, `Blocks.Lowest`: A pointer to a free block, and to the first one.
* `Blocks.into`: Where such a pointer is behind a join.
* `Blocks.firstFit`: The first free block below a limit with enough room.
* `Blocks.firstFree`: The first free block.

## Theorems

* `mem_placed_iff`: A block and its place cut the list in two.
* `placed_apart`: Different blocks do not overlap.
* `live_pairwise`: The blocks in use lie one behind the other.
* `mem_live_iff`: The blocks in use are those of the blocks that are.
* `settled_append_cons`: A block between settled blocks.
* `firstFit_some`, `firstFit_none`: What the search has passed.
* `firstFree_cases`: The first free block, or the end.
* `live_join`, `freeAt_join`, `lowest_join`: What joining two free blocks changes.
* `eq_singleton_of_free`: Settled blocks that are all free are one block.
-/

namespace Firmware

/-- A block: its room without the header, and whether it is in use. -/
structure Block where
  size : Nat
  used : Bool
  deriving DecidableEq, Repr

namespace Blocks

variable (hdr : Nat)

/-- The length of the blocks with their headers. -/
def extent : List Block → Nat
  | [] => 0
  | b :: bs => hdr + b.size + extent bs

/-- The blocks with their places, the first one at `o`. -/
def placed : Nat → List Block → List (Nat × Block)
  | _, [] => []
  | o, b :: bs => (o, b) :: placed (o + (hdr + b.size)) bs

/-- The places and the room of the blocks in use. -/
def live : Nat → List Block → List (Nat × Nat)
  | _, [] => []
  | o, b :: bs =>
      (if b.used then [(o, b.size)] else []) ++ live (o + (hdr + b.size)) bs

/-- The length of the blocks in use with their headers. -/
def usedExtent : List Block → Nat
  | [] => 0
  | b :: bs => (if b.used then hdr + b.size else 0) + usedExtent bs

/-- The first free block that begins below the limit and has enough room. -/
def firstFit (limit need : Nat) : Nat → List Block → Option Nat
  | _, [] => none
  | o, b :: bs =>
      if o < limit then
        if b.used = false ∧ need ≤ b.size then some o
        else firstFit limit need (o + (hdr + b.size)) bs
      else none

/-- The place of the first free block, or of the end. -/
def firstFree : Nat → List Block → Nat
  | o, [] => o
  | o, b :: bs => if b.used then firstFree (o + (hdr + b.size)) bs else o

/-- The place of a free block, or the end. -/
def FreeAt (bs : List Block) (f : Nat) : Prop :=
  f = extent hdr bs ∨ ∃ n, (f, ⟨n, false⟩) ∈ placed hdr 0 bs

/-- No free block is in front of the place. -/
def Lowest (bs : List Block) (f : Nat) : Prop :=
  ∀ q n, (q, ⟨n, false⟩) ∈ placed hdr 0 bs → f ≤ q

/-- A place in a block moves to where the block begins. -/
def into (p s f : Nat) : Nat := if p ≤ f ∧ f < p + (hdr + s) then p else f

/-- No free block is next to a free one. -/
def Settled (bs : List Block) : Prop := bs.IsChain fun a b => a.used = true ∨ b.used = true

variable {hdr} {o p q limit need : Nat} {a b c : Block} {l r bs : List Block}

@[simp] theorem extent_nil : extent hdr [] = 0 := rfl

@[simp] theorem extent_cons (b : Block) (bs : List Block) :
    extent hdr (b :: bs) = hdr + b.size + extent hdr bs := rfl

@[simp] theorem extent_append (l r : List Block) :
    extent hdr (l ++ r) = extent hdr l + extent hdr r := by
  induction l with
  | nil => simp
  | cons b l ih =>
      rw [List.cons_append, extent_cons, extent_cons, ih]
      omega

variable (hdr) in
theorem length_le_extent (bs : List Block) : hdr * bs.length ≤ extent hdr bs := by
  induction bs with
  | nil => simp
  | cons b bs ih =>
      rw [List.length_cons, Nat.mul_succ, extent_cons]
      omega

@[simp] theorem placed_nil (o : Nat) : placed hdr o [] = [] := rfl

@[simp] theorem placed_cons (o : Nat) (b : Block) (bs : List Block) :
    placed hdr o (b :: bs) = (o, b) :: placed hdr (o + (hdr + b.size)) bs := rfl

@[simp] theorem placed_append (o : Nat) (l r : List Block) :
    placed hdr o (l ++ r) = placed hdr o l ++ placed hdr (o + extent hdr l) r := by
  induction l generalizing o with
  | nil => simp
  | cons b l ih =>
      rw [List.cons_append, placed_cons, placed_cons, ih, extent_cons, List.cons_append,
        Nat.add_assoc]

@[simp] theorem usedExtent_nil : usedExtent hdr [] = 0 := rfl

@[simp] theorem usedExtent_cons (b : Block) (bs : List Block) :
    usedExtent hdr (b :: bs) = (if b.used then hdr + b.size else 0) + usedExtent hdr bs := rfl

@[simp] theorem usedExtent_append (l r : List Block) :
    usedExtent hdr (l ++ r) = usedExtent hdr l + usedExtent hdr r := by
  induction l with
  | nil => simp
  | cons b l ih =>
      rw [List.cons_append, usedExtent_cons, usedExtent_cons, ih]
      omega

theorem usedExtent_le (bs : List Block) : usedExtent hdr bs ≤ extent hdr bs := by
  induction bs with
  | nil => exact le_refl 0
  | cons b bs ih =>
      rw [usedExtent_cons, extent_cons]
      split
      · omega
      · omega

/-- A block lies between the beginning and the end. -/
theorem bounds_of_mem_placed (h : (p, b) ∈ placed hdr o bs) :
    o ≤ p ∧ p + (hdr + b.size) ≤ o + extent hdr bs := by
  induction bs generalizing o with
  | nil => exact absurd h List.not_mem_nil
  | cons c bs ih =>
      rw [extent_cons]
      rcases List.mem_cons.mp h with heq | hmem
      · rw [Prod.mk.injEq] at heq
        rw [heq.1, heq.2]
        omega
      · have hb := ih hmem
        omega

/-- A block and its place cut the list in two. -/
theorem mem_placed_iff :
    (p, b) ∈ placed hdr o bs ↔ ∃ l r, bs = l ++ b :: r ∧ p = o + extent hdr l := by
  constructor
  · intro h
    induction bs generalizing o with
    | nil => exact absurd h List.not_mem_nil
    | cons c bs ih =>
        -- Either the block is the first one, or the cut is further behind.
        rcases List.mem_cons.mp h with heq | hmem
        · rw [Prod.mk.injEq] at heq
          exact ⟨[], bs, by rw [heq.2, List.nil_append], by rw [heq.1, extent_nil, Nat.add_zero]⟩
        · rcases ih hmem with ⟨l, r, hbs, hp⟩
          refine ⟨c :: l, r, by rw [hbs, List.cons_append], ?_⟩
          rw [hp, extent_cons, Nat.add_assoc]
  · rintro ⟨l, r, rfl, rfl⟩
    simp

/-- What begins behind the first place begins behind its header. -/
theorem le_of_mem_placed (h : (p, b) ∈ placed hdr o bs) (hne : p ≠ o) : o + hdr ≤ p := by
  cases bs with
  | nil => exact absurd h List.not_mem_nil
  | cons c bs =>
      rcases List.mem_cons.mp h with heq | hmem
      · rw [Prod.mk.injEq] at heq
        exact absurd heq.1 hne
      · have hb := bounds_of_mem_placed hmem
        omega

variable (hdr) in
/-- Where one list ends and the other begins there is a block, or the end. -/
theorem end_or_placed (l r : List Block) :
    extent hdr l = extent hdr (l ++ r) ∨ ∃ c, (extent hdr l, c) ∈ placed hdr 0 (l ++ r) := by
  cases r with
  | nil => exact .inl (by rw [List.append_nil])
  | cons c r => exact .inr ⟨c, by simp⟩

/-- Different blocks do not overlap. -/
theorem placed_apart (hp : (p, b) ∈ placed hdr o bs) (hq : (q, c) ∈ placed hdr o bs) :
    (p = q ∧ b = c) ∨ p + (hdr + b.size) ≤ q ∨ q + (hdr + c.size) ≤ p := by
  induction bs generalizing o with
  | nil => exact absurd hp List.not_mem_nil
  | cons a bs ih =>
      -- If one of them is the first block, the other one is behind its end.
      rcases List.mem_cons.mp hp with hp | hp
      · rcases List.mem_cons.mp hq with hq | hq
        · rw [Prod.mk.injEq] at hp hq
          exact .inl ⟨by rw [hp.1, hq.1], by rw [hp.2, hq.2]⟩
        · have hb := bounds_of_mem_placed hq
          rw [Prod.mk.injEq] at hp
          rw [hp.1, hp.2]
          exact .inr (.inl hb.1)
      · rcases List.mem_cons.mp hq with hq | hq
        · have hb := bounds_of_mem_placed hp
          rw [Prod.mk.injEq] at hq
          rw [hq.1, hq.2]
          exact .inr (.inr hb.1)
        · exact ih hp hq

@[simp] theorem live_nil (o : Nat) : live hdr o [] = [] := rfl

@[simp] theorem live_cons (o : Nat) (b : Block) (bs : List Block) :
    live hdr o (b :: bs) =
      (if b.used then [(o, b.size)] else []) ++ live hdr (o + (hdr + b.size)) bs := rfl

@[simp] theorem live_append (o : Nat) (l r : List Block) :
    live hdr o (l ++ r) = live hdr o l ++ live hdr (o + extent hdr l) r := by
  induction l generalizing o with
  | nil => simp
  | cons b l ih =>
      rw [List.cons_append, live_cons, live_cons, ih, extent_cons, List.append_assoc,
        Nat.add_assoc]

/-- The blocks in use are those of the blocks that are. -/
theorem mem_live_iff {n : Nat} : (p, n) ∈ live hdr o bs ↔ (p, ⟨n, true⟩) ∈ placed hdr o bs := by
  induction bs generalizing o with
  | nil => simp
  | cons b bs ih =>
      rw [live_cons, placed_cons, List.mem_append, List.mem_cons, ih]
      refine or_congr ?_ Iff.rfl
      rcases b with ⟨size, _ | _⟩
      · simp
      · simp

variable (hdr) in
/-- The blocks in use lie one behind the other. -/
theorem live_pairwise (o : Nat) (bs : List Block) :
    (live hdr o bs).Pairwise fun x y => x.1 + (hdr + x.2) ≤ y.1 := by
  induction bs generalizing o with
  | nil => exact List.Pairwise.nil
  | cons b bs ih =>
      rw [live_cons]
      split
      · refine List.pairwise_cons.mpr ⟨fun x hx => ?_, ih _⟩
        exact (bounds_of_mem_placed (mem_live_iff.mp hx)).1
      · exact ih _

/-- What is in use besides a block does not overlap it. -/
theorem live_apart {x : Nat × Nat} {L R : List (Nat × Nat)} {n : Nat}
    (h : live hdr o bs = L ++ (p, n) :: R) (hx : x ∈ L ++ R) :
    x.1 + (hdr + x.2) ≤ p ∨ p + (hdr + n) ≤ x.1 := by
  have hpair := live_pairwise hdr o bs
  rw [h] at hpair
  -- In front of the block everything ends before it, and behind it begins after it.
  rcases List.pairwise_append.mp hpair with ⟨-, hright, hseam⟩
  rcases List.mem_append.mp hx with hx | hx
  · exact .inl (hseam x hx (p, n) List.mem_cons_self)
  · exact .inr ((List.pairwise_cons.mp hright).1 x hx)

/-- The length of the blocks in use is that of the list of them. -/
theorem usedExtent_eq_sum (o : Nat) (bs : List Block) :
    usedExtent hdr bs = ((live hdr o bs).map fun x => hdr + x.2).sum := by
  induction bs generalizing o with
  | nil => rfl
  | cons b bs ih =>
      rw [usedExtent_cons, live_cons, List.map_append, List.sum_append, ← ih]
      split
      · simp
      · simp

/-- A block between settled blocks is settled, if it is in use or both its neighbours
    are. -/
theorem settled_append_cons (hl : Settled l) (hr : Settled r)
    (hbefore : ∀ a ∈ l.getLast?, a.used = true ∨ b.used = true)
    (hbehind : ∀ c ∈ r.head?, b.used = true ∨ c.used = true) : Settled (l ++ b :: r) := by
  -- What is left is the seam between the last of `l` and the block.
  refine List.isChain_append.mpr ⟨hl, List.isChain_cons.mpr ⟨hbehind, hr⟩, ?_⟩
  intro a ha c hc
  rw [List.head?_cons, Option.mem_some_iff] at hc
  rw [← hc]
  exact hbefore a ha

/-- The parts of settled blocks are settled. -/
theorem Settled.parts (h : Settled (l ++ b :: r)) :
    Settled l ∧ Settled r ∧ (∀ a ∈ l.getLast?, a.used = true ∨ b.used = true) ∧
      ∀ c ∈ r.head?, b.used = true ∨ c.used = true := by
  rcases List.isChain_append.mp h with ⟨hl, hbr, hseam⟩
  rcases List.isChain_cons.mp hbr with ⟨hbehind, hr⟩
  exact ⟨hl, hr, fun a ha => hseam a ha b rfl, hbehind⟩

/-- What the search finds is free and has enough room, and nothing in front of it has. -/
theorem firstFit_some (h : firstFit hdr limit need o bs = some p) :
    ∃ l b r, bs = l ++ b :: r ∧ p = o + extent hdr l ∧ p < limit ∧ b.used = false ∧
      need ≤ b.size := by
  induction bs generalizing o with
  | nil => exact absurd h (by simp [firstFit])
  | cons b bs ih =>
      unfold firstFit at h
      split at h
      · rename_i hlimit
        split at h
        · rename_i hfit
          rw [Option.some.injEq] at h
          rw [← h]
          exact ⟨[], b, bs, rfl, by simp, hlimit, hfit.1, hfit.2⟩
        · -- The search has gone past the first block.
          rcases ih h with ⟨l, c, r, rfl, rfl, hlt, hfree, hneed⟩
          exact ⟨b :: l, c, r, by simp, by simp [Nat.add_assoc], hlt, hfree, hneed⟩
      · exact absurd h (by simp)

/-- A search without a result has passed no free block with enough room below the limit. -/
theorem firstFit_none :
    firstFit hdr limit need o bs = none ↔
      ∀ q c, (q, c) ∈ placed hdr o bs → c.used = false → need ≤ c.size → limit ≤ q := by
  induction bs generalizing o with
  | nil => simp [firstFit]
  | cons b bs ih =>
      unfold firstFit
      constructor
      · intro h q c hmem hfree hneed
        have hbounds := bounds_of_mem_placed hmem
        split at h
        · split at h
          · exact absurd h (by simp)
          · rename_i hno
            rcases List.mem_cons.mp hmem with heq | hrest
            · rw [Prod.mk.injEq] at heq
              rw [heq.2] at hfree hneed
              exact absurd ⟨hfree, hneed⟩ hno
            · exact ih.mp h q c hrest hfree hneed
        · -- Behind the limit the search is over, and every block begins behind it.
          omega
      · intro h
        split
        · rename_i hlimit
          split
          · rename_i hfit
            -- The first block would be a result below the limit.
            have hle := h o b (by simp) hfit.1 hfit.2
            omega
          · exact ih.mpr fun q c hmem => h q c (by simp [hmem])
        · rfl

/-- The first free block is one, and everything in front of it is in use. -/
theorem firstFree_cases (o : Nat) (bs : List Block) :
    (firstFree hdr o bs = o + extent hdr bs ∨
      ∃ b, (firstFree hdr o bs, b) ∈ placed hdr o bs ∧ b.used = false) ∧
      ∀ q c, (q, c) ∈ placed hdr o bs → c.used = false → firstFree hdr o bs ≤ q := by
  induction bs generalizing o with
  | nil => simp [firstFree]
  | cons b bs ih =>
      unfold firstFree
      rcases hused : b.used with _ | _
      · simp only [Bool.false_eq_true, if_false]
        refine ⟨.inr ⟨b, by simp, hused⟩, fun q c hmem _ => ?_⟩
        exact (bounds_of_mem_placed hmem).1
      · simp only [if_true]
        rcases ih (o + (hdr + b.size)) with ⟨hplace, hfirst⟩
        refine ⟨?_, fun q c hmem hfree => ?_⟩
        · rcases hplace with hend | ⟨c, hmem, hfree⟩
          · exact .inl (by rw [hend, extent_cons, Nat.add_assoc])
          · exact .inr ⟨c, by simp [hmem], hfree⟩
        · rcases List.mem_cons.mp hmem with heq | hrest
          · rw [Prod.mk.injEq] at heq
            rw [heq.2, hused] at hfree
            exact absurd hfree (by simp)
          · exact hfirst q c hrest hfree

section Join

variable {s t f : Nat}

theorem into_le (p s f : Nat) : into hdr p s f ≤ f := by
  unfold into
  split
  · omega
  · exact le_refl f

/-- Free blocks that are joined were not in use before. -/
theorem live_join (o : Nat) (l : List Block) (s t : Nat) (r : List Block) :
    live hdr o (l ++ ⟨s + (hdr + t), false⟩ :: r) =
      live hdr o (l ++ ⟨s, false⟩ :: ⟨t, false⟩ :: r) := by
  have hplace : o + extent hdr l + (hdr + (s + (hdr + t))) =
      o + extent hdr l + (hdr + s) + (hdr + t) := by omega
  simp [hplace]

theorem usedExtent_join (l : List Block) (s t : Nat) (r : List Block) :
    usedExtent hdr (l ++ ⟨s + (hdr + t), false⟩ :: r) =
      usedExtent hdr (l ++ ⟨s, false⟩ :: ⟨t, false⟩ :: r) := by
  simp

theorem extent_join (l : List Block) (s t : Nat) (u v w : Bool) (r : List Block) :
    extent hdr (l ++ ⟨s + (hdr + t), u⟩ :: r) = extent hdr (l ++ ⟨s, v⟩ :: ⟨t, w⟩ :: r) := by
  simp only [extent_append, extent_cons]
  omega

/-- The blocks of a list around one of them. -/
theorem mem_placed_append_cons : (p, b) ∈ placed hdr o (l ++ a :: r) ↔
    (p, b) ∈ placed hdr o l ∨ (p = o + extent hdr l ∧ b = a) ∨
      (p, b) ∈ placed hdr (o + extent hdr l + (hdr + a.size)) r := by
  rw [placed_append, placed_cons, List.mem_append, List.mem_cons, Prod.mk.injEq]

/-- A pointer to a free block that is inside a block points to its beginning. -/
theorem FreeAt.eq_of_inside (hpos : 0 < hdr) (h : FreeAt hdr (l ++ b :: r) f)
    (hle : extent hdr l ≤ f) (hlt : f < extent hdr l + (hdr + b.size)) :
    f = extent hdr l ∧ b.used = false := by
  -- The end is behind the block, and so are the blocks that do not begin with it or in front of
  -- it.
  rcases h with hend | ⟨n, hmem⟩
  · rw [extent_append, extent_cons] at hend
    omega
  · rcases mem_placed_append_cons.mp hmem with hmem | ⟨heq, hb⟩ | hmem
    · have hb := bounds_of_mem_placed hmem
      simp only at hb
      omega
    · exact ⟨by omega, by rw [← hb]⟩
    · have hb := bounds_of_mem_placed hmem
      omega

theorem freeAt_join (hpos : 0 < hdr) (h : FreeAt hdr (l ++ ⟨s, false⟩ :: ⟨t, false⟩ :: r) f) :
    FreeAt hdr (l ++ ⟨s + (hdr + t), false⟩ :: r) (into hdr (extent hdr l) (s + (hdr + t)) f) := by
  unfold into
  split
  · exact .inr ⟨s + (hdr + t), mem_placed_append_cons.mpr (.inr (.inl ⟨by omega, rfl⟩))⟩
  · rename_i hout
    -- Outside the joined block nothing has moved.
    rcases h with hend | ⟨n, hmem⟩
    · exact .inl (by rw [hend, extent_join])
    · refine .inr ⟨n, mem_placed_append_cons.mpr ?_⟩
      rcases mem_placed_append_cons.mp hmem with hmem | ⟨heq, -⟩ | hmem
      · exact .inl hmem
      · omega
      · rw [placed_cons, List.mem_cons, Prod.mk.injEq] at hmem
        rcases hmem with ⟨heq, -⟩ | hmem
        · simp only at heq
          omega
        · have hplace : 0 + extent hdr l + (hdr + (s + (hdr + t))) =
              0 + extent hdr l + (hdr + s) + (hdr + t) := by omega
          refine .inr (.inr ?_)
          simp only at hmem ⊢
          rwa [hplace]

theorem lowest_join (h : Lowest hdr (l ++ ⟨s, false⟩ :: ⟨t, false⟩ :: r) f) :
    Lowest hdr (l ++ ⟨s + (hdr + t), false⟩ :: r) (into hdr (extent hdr l) (s + (hdr + t)) f) := by
  -- The pointer was in front of the first of the two, so it stays where it is.
  have hfirst : f ≤ extent hdr l :=
    h _ s (mem_placed_append_cons.mpr (.inr (.inl ⟨by omega, rfl⟩)))
  intro q n hmem
  refine le_trans (into_le _ _ _) ?_
  rcases mem_placed_append_cons.mp hmem with hmem | ⟨heq, -⟩ | hmem
  · exact h q n (mem_placed_append_cons.mpr (.inl hmem))
  · omega
  · have hb := bounds_of_mem_placed hmem
    simp only at hb
    omega

end Join

section Releasing

variable {n f : Nat}

/-- A pointer to a free block stays one, and one to the block that is released is one. -/
theorem freeAt_released (h : FreeAt hdr (l ++ ⟨n, true⟩ :: r) f) :
    FreeAt hdr (l ++ ⟨n, false⟩ :: r) (if extent hdr l < f then extent hdr l else f) := by
  split
  · exact .inr ⟨n, mem_placed_append_cons.mpr (.inr (.inl ⟨by omega, rfl⟩))⟩
  · rcases h with hend | ⟨k, hmem⟩
    · exact .inl (by rw [hend, extent_append, extent_append, extent_cons, extent_cons])
    · refine .inr ⟨k, mem_placed_append_cons.mpr ?_⟩
      rcases mem_placed_append_cons.mp hmem with hmem | ⟨-, hb⟩ | hmem
      · exact .inl hmem
      · exact absurd hb (by simp)
      · exact .inr (.inr hmem)

theorem lowest_released (h : Lowest hdr (l ++ ⟨n, true⟩ :: r) f) :
    Lowest hdr (l ++ ⟨n, false⟩ :: r) (if extent hdr l < f then extent hdr l else f) := by
  intro q k hmem
  rcases mem_placed_append_cons.mp hmem with hmem | ⟨heq, -⟩ | hmem
  · have hle := h q k (mem_placed_append_cons.mpr (.inl hmem))
    split
    · omega
    · exact hle
  · split
    · omega
    · omega
  · have hle := h q k (mem_placed_append_cons.mpr (.inr (.inr hmem)))
    split
    · omega
    · exact hle

/-- A block in use and its place among those in use. -/
theorem live_split (h : (p, n) ∈ live hdr o bs) :
    ∃ l r, bs = l ++ ⟨n, true⟩ :: r ∧ p = o + extent hdr l ∧
      live hdr o bs = live hdr o l ++ (p, n) :: live hdr (p + (hdr + n)) r := by
  rcases mem_placed_iff.mp (mem_live_iff.mp h) with ⟨l, r, rfl, hp⟩
  refine ⟨l, r, rfl, hp, ?_⟩
  rw [live_append, live_cons, hp]
  rfl

end Releasing

section Cutting

variable {m s t f : Nat}

/-- Cutting a block in use leaves the free blocks where they are. -/
theorem freeAt_cut (hs : s = m + (hdr + t)) (h : FreeAt hdr (l ++ ⟨s, true⟩ :: r) f) :
    FreeAt hdr (l ++ ⟨m, true⟩ :: ⟨t, false⟩ :: r) f := by
  rcases h with hend | ⟨k, hmem⟩
  · exact .inl (by rw [hend, hs, extent_join])
  · refine .inr ⟨k, mem_placed_append_cons.mpr ?_⟩
    rcases mem_placed_append_cons.mp hmem with hmem | ⟨-, hb⟩ | hmem
    · exact .inl hmem
    · exact absurd hb (by simp)
    · have hplace : 0 + extent hdr l + (hdr + s) = 0 + extent hdr l + (hdr + m) + (hdr + t) := by
        omega
      simp only [hplace] at hmem
      exact .inr (.inr (List.mem_cons_of_mem _ hmem))

/-- A place is still in front of all free blocks if it is in front of what is cut off. -/
theorem lowest_cut (h : Lowest hdr (l ++ ⟨s, true⟩ :: r) f)
    (hle : f ≤ extent hdr l + (hdr + m)) : Lowest hdr (l ++ ⟨m, true⟩ :: ⟨t, false⟩ :: r) f := by
  intro q k hmem
  rcases mem_placed_append_cons.mp hmem with hmem | ⟨-, hb⟩ | hmem
  · exact h q k (mem_placed_append_cons.mpr (.inl hmem))
  · exact absurd hb (by simp)
  · have hb := bounds_of_mem_placed hmem
    simp only at hb
    omega

end Cutting

section Taking

variable {n s f : Nat} {r' : List Block}

/-- The blocks in use stay so when another one is taken. -/
theorem live_subset_taken (l : List Block) (n : Nat) (r : List Block) :
    ∀ x ∈ live hdr o (l ++ ⟨n, false⟩ :: r), x ∈ live hdr o (l ++ ⟨n, true⟩ :: r) := by
  intro x hx
  simp only [live_append, live_cons, Bool.false_eq_true, if_false, if_true, List.nil_append,
    List.mem_append] at hx ⊢
  rcases hx with hx | hx
  · exact .inl hx
  · exact .inr (.inr hx)

/-- A pointer to another block than the one that is taken. -/
theorem freeAt_taken (h : FreeAt hdr (l ++ ⟨n, false⟩ :: r) f) (hne : f ≠ extent hdr l)
    (hlen : extent hdr (l ++ ⟨s, true⟩ :: r') = extent hdr (l ++ ⟨n, false⟩ :: r))
    (hsup : ∀ x ∈ placed hdr (extent hdr l + (hdr + n)) r,
      x ∈ placed hdr (extent hdr l + (hdr + s)) r') : FreeAt hdr (l ++ ⟨s, true⟩ :: r') f := by
  rcases h with hend | ⟨k, hmem⟩
  · exact .inl (by rw [hlen, hend])
  · refine .inr ⟨k, mem_placed_append_cons.mpr ?_⟩
    rcases mem_placed_append_cons.mp hmem with hmem | ⟨heq, -⟩ | hmem
    · exact .inl hmem
    · omega
    · simp only [Nat.zero_add] at hmem ⊢
      exact .inr (.inr (hsup _ hmem))

theorem lowest_taken (h : Lowest hdr (l ++ ⟨n, false⟩ :: r) f) :
    Lowest hdr (l ++ ⟨s, true⟩ :: r') f := by
  have hle : f ≤ extent hdr l := h _ n (mem_placed_append_cons.mpr (.inr (.inl ⟨by omega, rfl⟩)))
  intro q k hmem
  rcases mem_placed_append_cons.mp hmem with hmem | ⟨-, hb⟩ | hmem
  · exact h q k (mem_placed_append_cons.mpr (.inl hmem))
  · exact absurd hb (by simp)
  · have hb := bounds_of_mem_placed hmem
    omega

/-- A pointer to the block that is taken is raised to the next free one. -/
theorem freeAt_raised : FreeAt hdr (l ++ r') (firstFree hdr (extent hdr l) r') := by
  rcases (firstFree_cases (extent hdr l) r').1 with hend | ⟨⟨k, u⟩, hmem, hu⟩
  · exact .inl (by rw [hend, extent_append])
  · refine .inr ⟨k, ?_⟩
    simp only at hu
    rw [placed_append, List.mem_append, Nat.zero_add, ← hu]
    exact .inr hmem

theorem lowest_raised (hpos : 0 < hdr) (h : Lowest hdr (l ++ b :: r) (extent hdr l)) :
    Lowest hdr (l ++ r') (firstFree hdr (extent hdr l) r') := by
  intro q k hmem
  rw [placed_append, List.mem_append, Nat.zero_add] at hmem
  rcases hmem with hmem | hmem
  · -- In front of the block there was no free one, as the pointer was to the block.
    have hb := bounds_of_mem_placed hmem
    have hle := h q k (mem_placed_append_cons.mpr (.inl hmem))
    omega
  · exact (firstFree_cases (extent hdr l) r').2 q _ hmem rfl

end Taking

/-- Settled blocks that are all free are one block, if there is any. -/
theorem eq_singleton_of_free (h : Settled bs) (hfree : ∀ b ∈ bs, b.used = false) (hne : bs ≠ []) :
    ∃ b, bs = [b] := by
  rcases bs with _ | ⟨a, _ | ⟨b, bs⟩⟩
  · exact absurd rfl hne
  · exact ⟨a, rfl⟩
  · -- Two of them would be next to each other.
    have hab := (List.isChain_cons_cons.mp h).1
    rw [hfree a (by simp), hfree b (by simp)] at hab
    simp at hab

end Blocks

end Firmware
