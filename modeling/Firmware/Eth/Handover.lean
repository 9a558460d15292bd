import Firmware.Lib.Runs
import Firmware.Eth.Transmit

/-!
# The Order of the Hand-Over

The writes of `HAL_ETH_TransmitFrame` from `drivers/test_eth.c`, one by one, with the
DMA at work in between.

The descriptors of a frame are prepared and handed over one after the other, from
the first to the last. Each of them is complete when its `OWN` bit is set and is not
touched any more, so nothing the DMA owns changes under it. But the frame as a whole
is not complete when the DMA gets its first descriptor: it can begin to send while
the rest is still being prepared. Only a frame that fits into one buffer has no rest.

`transmitWrites` lists the writes, and `foldl_transmitWrites` says that without a DMA
they come to what `halEthTransmitFrame` does in one step.

## Main definitions

* `TxWrite`: A write to the current descriptor, or the move to the next one.
* `transmitWrites`: The writes of a call.
* `transferStep`: The next write, or the DMA sends a descriptor.
* `OwnershipOrder`: What the DMA owns is complete and stays so.
* `TxWrite.after`: How far a descriptor has come.

## Theorems

* `foldl_transmitWrites`: The writes make up the call.
* `Underway.step`: The descriptors ahead are the processor's.
* `Underway.steady`: What the DMA owns does not change.
* `ownership_order_iff`: The order is kept exactly for frames of one buffer.
* `not_ownership_order_two`: A frame of two buffers can be begun too early.
-/

namespace Firmware

namespace Eth

/-- A write of `HAL_ETH_TransmitFrame`. -/
inductive TxWrite where
  /-- `Status &= ~(FS | LS)` -/
  | clear
  /-- `Status |= FS` -/
  | first
  /-- `Status |= LS` -/
  | last
  /-- `Status |= FS | LS` -/
  | whole
  /-- `ControlBufferSize = n` -/
  | size (n : Nat)
  /-- `Status |= OWN` -/
  | own
  /-- `heth->TxDesc` moves on. -/
  | next
  deriving DecidableEq, Repr

variable {N B : Nat}

/-- What a write makes of the descriptor. -/
def TxWrite.onDesc (x : TxWrite) (d : TxDesc N) : TxDesc N :=
  match x with
  | clear => { d with fs := false, ls := false }
  | first => { d with fs := true }
  | last => { d with ls := true }
  | whole => { d with fs := true, ls := true }
  | size n => { d with controlBufferSize := n }
  | own => { d with own := true }
  | next => d

/-- What it makes of the ring. -/
def TxRing.write (r : TxRing N B) (x : TxWrite) : TxRing N B :=
  match x with
  -- The only step of the loop that is not a write to a descriptor.
  | .next => { r with txDesc := (r.desc r.txDesc).next }
  | x => { r with desc := Function.update r.desc r.txDesc (x.onDesc (r.desc r.txDesc)) }

/-- The writes of turn `i` of the loop. -/
def segmentWrites (B len count i : Nat) : List TxWrite :=
  [TxWrite.clear] ++ (if i = 0 then [TxWrite.first] else []) ++ [TxWrite.size (tbs1 B)] ++
    (if i = count - 1 then [TxWrite.last, TxWrite.size (tbs1 (len - (count - 1) * B))] else []) ++
    [TxWrite.own, TxWrite.next]

/-- The writes for a frame. -/
def frameWrites (B len : Nat) : List TxWrite :=
  if bufcount B len = 1 then [.whole, .size (tbs1 len), .own, .next]
  else (List.range (bufcount B len)).flatMap (segmentWrites B len (bufcount B len))

/-- The writes of a call of `HAL_ETH_TransmitFrame` that has the lock. -/
def transmitWrites (r : TxRing N B) (len : Nat) : List TxWrite :=
  if len = 0 then []
  else if (r.desc r.txDesc).own then []
  else frameWrites B len

/-- A call in progress: the ring, the descriptor the DMA is at, and the writes to come. -/
structure Transfer (N B : Nat) where
  ring : TxRing N B
  dma : Fin N
  todo : List TxWrite

/-- Who acts next. -/
inductive TransferEvent where
  /-- The processor does the next write. -/
  | cpu
  /-- The DMA is done with the descriptor it is at, with whatever it leaves in the
      status, and goes on to the next one. -/
  | dma (fs ls : Bool)
  deriving DecidableEq, Repr

/-- One step. The DMA acts on descriptors it owns and on no others. -/
def transferStep (s : Transfer N B) : TransferEvent → Option (Transfer N B)
  | .cpu => match s.todo with
    | [] => none
    | x :: xs => some { s with ring := s.ring.write x, todo := xs }
  | .dma fs ls =>
      if (s.ring.desc s.dma).own = true then
        some { s with
          ring := { s.ring with
            desc := Function.update s.ring.desc s.dma
              { s.ring.desc s.dma with own := false, fs := fs, ls := ls } }
          dma := (s.ring.desc s.dma).next }
      else none

/-- While the DMA owns the first descriptor of a frame with its `FS` bit, every other
    descriptor of the frame is the DMA's as well, with the bits and the size it is to
    have; and no write of the processor changes a descriptor the DMA owns. -/
structure OwnershipOrder [NeZero N] (len : Nat) (first : Fin N) (s : Transfer N B) : Prop where
  tail : (s.ring.desc first).own = true → (s.ring.desc first).fs = true →
    ∀ i, 0 < i → i < bufcount B len →
      giveSegment B len (bufcount B len) i (s.ring.desc (slot N (first + i))) =
        s.ring.desc (slot N (first + i))
  steady : ∀ s', transferStep s .cpu = some s' →
    ∀ d, (s.ring.desc d).own = true → s'.ring.desc d = s.ring.desc d

/-- A turn of the loop does to its descriptor what `giveSegment` says. -/
theorem foldl_segmentWrites (r : TxRing N B) (len count i : Nat) :
    (segmentWrites B len count i).foldl TxRing.write r = r.give (giveSegment B len count i) := by
  -- The first segment, the last one, one that is both and one that is neither.
  by_cases hfirst : i = 0
  · subst hfirst
    by_cases hlast : 0 = count - 1
    · simp [segmentWrites, TxRing.write, TxWrite.onDesc, TxRing.give, giveSegment, ← hlast]
    · simp [segmentWrites, TxRing.write, TxWrite.onDesc, TxRing.give, giveSegment, hlast]
  · by_cases hlast : i = count - 1
    · simp [segmentWrites, TxRing.write, TxWrite.onDesc, TxRing.give, giveSegment, ← hlast, hfirst]
    · simp [segmentWrites, TxRing.write, TxWrite.onDesc, TxRing.give, giveSegment, hlast, hfirst]

theorem foldl_segments (r : TxRing N B) (len count m : Nat) :
    ((List.range m).flatMap (segmentWrites B len count)).foldl TxRing.write r =
      r.giveSegments len count m := by
  induction m with
  | zero => rfl
  | succ m ih =>
      rw [List.range_succ, List.flatMap_append, List.foldl_append, ih, List.flatMap_singleton,
        foldl_segmentWrites]
      rfl

theorem foldl_whole (r : TxRing N B) (len : Nat) :
    [.whole, .size (tbs1 len), .own, .next].foldl TxRing.write r = r.give (giveWhole len) := by
  simp [TxRing.write, TxWrite.onDesc, TxRing.give, giveWhole]

/-- The writes make up the call. -/
theorem foldl_transmitWrites (r : TxRing N B) (len : Nat) :
    (transmitWrites r len).foldl TxRing.write r = (halEthTransmitFrame r false len).1 := by
  unfold transmitWrites halEthTransmitFrame frameWrites
  by_cases hlen : len = 0
  · simp [hlen]
  · by_cases hown : (r.desc r.txDesc).own = true
    · simp [hlen, hown]
    · by_cases hone : bufcount B len = 1
      · simp only [hlen, hown, hone, if_false, if_true, Bool.false_eq_true]
        exact foldl_whole r len
      · simp only [hlen, hown, hone, if_false, Bool.false_eq_true]
        exact foldl_segments r len _ _

/-- How far the current descriptor has come. -/
inductive Stage where
  | fresh
  | written
  | handed
  deriving DecidableEq, Repr

/-- A descriptor is written, then handed over, then left. Nothing else is in order. -/
def TxWrite.after : Stage → TxWrite → Option Stage
  | .handed, .next => some .fresh
  | .handed, _ => none
  | _, .next => none
  | _, .own => some .handed
  | _, _ => some .written

theorem after_segmentWrites (len count i : Nat) :
    run TxWrite.after .fresh (segmentWrites B len count i) = some .fresh := by
  unfold segmentWrites
  split
  · split
    · rfl
    · rfl
  · split
    · rfl
    · rfl

theorem after_segments (len count : Nat) (turns : List Nat) :
    run TxWrite.after .fresh (turns.flatMap (segmentWrites B len count)) = some .fresh := by
  induction turns with
  | nil => rfl
  | cons i turns ih =>
      -- Every turn begins and ends with a fresh descriptor, so turns can be put in a row.
      rw [List.flatMap_cons, run_append TxWrite.after (after_segmentWrites len count i)]
      exact ih

/-- Every descriptor a call touches is written, handed over and left. -/
theorem after_transmitWrites (r : TxRing N B) (len : Nat) :
    run TxWrite.after .fresh (transmitWrites r len) = some .fresh := by
  unfold transmitWrites frameWrites
  split
  · rfl
  · split
    · rfl
    · split
      · rfl
      · exact after_segments len _ _

theorem count_segmentWrites (len count i : Nat) :
    (segmentWrites B len count i).count .next = 1 := by
  unfold segmentWrites
  split
  · split <;> simp
  · split <;> simp

theorem count_segments (len count : Nat) (turns : List Nat) :
    (turns.flatMap (segmentWrites B len count)).count .next = turns.length := by
  induction turns with
  | nil => rfl
  | cons i turns ih =>
      rw [List.flatMap_cons, List.count_append, count_segmentWrites, ih, List.length_cons,
        Nat.add_comm]

/-- A call goes on by as many descriptors as the frame has. -/
theorem count_transmitWrites (r : TxRing N B) (len : Nat) :
    (transmitWrites r len).count .next ≤ bufcount B len := by
  unfold transmitWrites frameWrites
  split
  · exact Nat.zero_le _
  · split
    · exact Nat.zero_le _
    · split
      · rename_i hone
        rw [hone]
        exact le_refl 1
      · rw [count_segments, List.length_range]

/-- A descriptor that was begun is left. -/
theorem count_pos_of_after {st : Stage} {xs : List TxWrite}
    (h : run TxWrite.after st xs = some .fresh) (hst : st ≠ .fresh) : 0 < xs.count .next := by
  induction xs generalizing st with
  | nil =>
      rw [run_nil, Option.some.injEq] at h
      exact absurd h hst
  | cons x xs ih =>
      rcases run_cons_some TxWrite.after h with ⟨st', hst', hrest⟩
      by_cases hnext : x = .next
      · rw [hnext, List.count_cons_self]
        exact Nat.succ_pos _
      · -- Only a move leads to a fresh descriptor.
        have hne : st' ≠ .fresh := by
          rintro rfl
          cases st <;> cases x <;> simp [TxWrite.after] at hst' hnext
        exact lt_of_lt_of_le (ih hrest hne) List.count_le_count_cons

theorem after_next {st st' : Stage} (h : TxWrite.after st .next = some st') :
    st = .handed ∧ st' = .fresh := by
  cases st with
  | handed => exact ⟨rfl, (Option.some.inj h).symm⟩
  | _ => cases h

/-- A write goes to a descriptor that is not handed over yet, and does not hand it over
    unless it says so. -/
theorem after_write {st st' : Stage} {x : TxWrite} (hx : x ≠ .next)
    (h : TxWrite.after st x = some st') :
    st ≠ .handed ∧ st' ≠ .fresh ∧ (st' ≠ .handed → ∀ d : TxDesc N, (x.onDesc d).own = d.own) := by
  cases st with
  | handed => cases x <;> simp [TxWrite.after] at h hx
  | _ =>
      cases x with
      | next => exact absurd rfl hx
      | own =>
          rw [← Option.some.inj h]
          exact ⟨nofun, nofun, fun hn => absurd rfl hn⟩
      | _ =>
          rw [← Option.some.inj h]
          exact ⟨nofun, nofun, fun _ _ => rfl⟩

theorem write_of_ne {x : TxWrite} (hx : x ≠ .next) (r : TxRing N B) :
    r.write x =
      { r with desc := Function.update r.desc r.txDesc (x.onDesc (r.desc r.txDesc)) } := by
  cases x with
  | next => exact absurd rfl hx
  | _ => rfl

theorem onDesc_next (x : TxWrite) (d : TxDesc N) : (x.onDesc d).next = d.next := by
  cases x <;> rfl

variable [NeZero N]

/-- The links stay as they are if a descriptor keeps its own. -/
theorem linked_of_update {r : TxRing N B} (h : r.Linked) (i : Fin N) {d : TxDesc N}
    (hd : d.next = (r.desc i).next) :
    ({ r with desc := Function.update r.desc i d } : TxRing N B).Linked := by
  intro k
  by_cases hk : slot N k = i
  · simp only [hk, Function.update_self, hd]
    rw [← hk]
    exact h k
  · simp only [Function.update_of_ne hk]
    exact h k

/-- The call stands at position `p`, whose descriptor has come as far as `st`. The
    descriptors it has still to hand over are the processor's. -/
structure Underway (s : Transfer N B) (p : Nat) (st : Stage) : Prop where
  linked : s.ring.Linked
  txDesc : s.ring.txDesc = slot N p
  stages : run TxWrite.after st s.todo = some .fresh
  room : s.todo.count .next ≤ N
  free : ∀ j, j < s.todo.count .next → (j = 0 → st ≠ .handed) →
    (s.ring.desc (slot N (p + j))).own = false

variable {s s' : Transfer N B} {p : Nat} {st : Stage}

/-- The next write, and how far it takes its descriptor. -/
theorem Underway.cpu_inv (h : Underway s p st) (hs : transferStep s .cpu = some s') :
    ∃ x xs st', s.todo = x :: xs ∧ TxWrite.after st x = some st' ∧
      run TxWrite.after st' xs = some .fresh ∧
      s' = { s with ring := s.ring.write x, todo := xs } := by
  cases htodo : s.todo with
  | nil => simp only [transferStep, htodo, reduceCtorEq] at hs
  | cons x xs =>
      simp only [transferStep, htodo, Option.some.injEq] at hs
      have hstages := h.stages
      rw [htodo] at hstages
      rcases run_cons_some TxWrite.after hstages with ⟨st', hst', hrest⟩
      exact ⟨x, xs, st', rfl, hst', hrest, hs.symm⟩

/-- A descriptor that is written to is the processor's. -/
theorem Underway.own_current (h : Underway s p st) {x : TxWrite} {xs : List TxWrite} {st' : Stage}
    (htodo : s.todo = x :: xs) (hx : x ≠ .next) (hst' : TxWrite.after st x = some st')
    (hrest : run TxWrite.after st' xs = some .fresh) : (s.ring.desc (slot N p)).own = false := by
  rcases after_write (N := N) hx hst' with ⟨hst, hfresh, -⟩
  -- The descriptor is still to be left, and it is not handed over yet.
  refine h.free 0 ?_ fun _ => hst
  rw [htodo]
  exact lt_of_lt_of_le (count_pos_of_after hrest hfresh) List.count_le_count_cons

/-- What the DMA owns does not change. -/
theorem Underway.steady (h : Underway s p st) (hs : transferStep s .cpu = some s') (d : Fin N)
    (hd : (s.ring.desc d).own = true) : s'.ring.desc d = s.ring.desc d := by
  rcases h.cpu_inv hs with ⟨x, xs, st', htodo, hst', hrest, rfl⟩
  by_cases hx : x = .next
  · rw [hx]
    rfl
  · -- A write goes to the current descriptor, and that one is not the DMA's.
    have hne : d ≠ s.ring.txDesc := by
      rintro rfl
      rw [h.txDesc, h.own_current htodo hx hst' hrest] at hd
      cases hd
    rw [write_of_ne hx]
    exact Function.update_of_ne hne _ _

/-- A write of the processor leaves the descriptors ahead alone. -/
theorem Underway.cpu (h : Underway s p st) (hs : transferStep s .cpu = some s') :
    ∃ p' st', Underway s' p' st' := by
  rcases h.cpu_inv hs with ⟨x, xs, st', htodo, hst', hrest, rfl⟩
  have hroom := h.room
  have hfree := h.free
  rw [htodo] at hroom hfree
  by_cases hx : x = .next
  · -- One descriptor fewer lies ahead, and all positions are one less away.
    subst hx
    rcases after_next hst' with ⟨-, rfl⟩
    rw [List.count_cons_self] at hroom hfree
    refine ⟨p + 1, .fresh, h.linked, ?_, hrest, Nat.le_of_succ_le hroom, fun j hj _ => ?_⟩
    · simp only [TxRing.write, h.txDesc]
      exact h.linked p
    · have hown := hfree (j + 1) (Nat.succ_lt_succ hj) (by omega)
      rw [show p + 1 + j = p + (j + 1) by omega]
      exact hown
  · -- The same descriptors lie ahead, and only the current one has changed.
    rw [List.count_cons_of_ne hx] at hroom hfree
    rcases after_write (N := N) hx hst' with ⟨hst, -, hkeep⟩
    refine ⟨p, st', ?_, ?_, hrest, hroom, fun j hj hjst => ?_⟩
    · rw [write_of_ne hx]
      exact linked_of_update h.linked _ (onDesc_next x _)
    · rw [write_of_ne hx]
      exact h.txDesc
    · rw [write_of_ne hx, h.txDesc]
      by_cases hj0 : j = 0
      · subst hj0
        simp only [Nat.add_zero, Function.update_self]
        rw [hkeep (hjst rfl)]
        exact hfree 0 hj fun _ => hst
      · -- The others ahead are in other places, as the call does not come around.
        have hjN : j < N := lt_of_lt_of_le hj hroom
        simp only
        rw [update_slot_ne (k := p) (by omega) (by omega) (by omega) (by omega) (by omega)]
        exact hfree j hj fun h0 => absurd h0 hj0

/-- So does the DMA. -/
theorem Underway.dma (h : Underway s p st) {fs ls : Bool}
    (hs : transferStep s (.dma fs ls) = some s') : Underway s' p st := by
  simp only [transferStep, Option.ite_none_right_eq_some, Option.some.injEq] at hs
  rw [← hs.2]
  -- The DMA only ever gives descriptors back.
  refine ⟨linked_of_update h.linked _ rfl, h.txDesc, h.stages, h.room, fun j hj hjst => ?_⟩
  -- One that is given back is the processor's, and the others have not changed.
  by_cases hd : slot N (p + j) = s.dma
  · simp only [hd, Function.update_self]
  · simp only [Function.update_of_ne hd]
    exact h.free j hj hjst

/-- The descriptors ahead are the processor's, whoever acts. -/
theorem Underway.step (h : ∃ p st, Underway s p st) {e : TransferEvent}
    (hs : transferStep s e = some s') : ∃ p st, Underway s' p st := by
  rcases h with ⟨p, st, h⟩
  cases e with
  | cpu => exact h.cpu hs
  | dma fs ls => exact ⟨p, st, h.dma hs⟩

/-- A call stands at its first descriptor. -/
theorem underway_start {r : TxRing N B} (hlink : r.Linked) (dma : Fin N) {len : Nat}
    (hfit : bufcount B len ≤ N)
    (hfree : ∀ i, i < bufcount B len → (r.desc (slot N (r.txDesc + i))).own = false) :
    Underway { ring := r, dma := dma, todo := transmitWrites r len } r.txDesc .fresh where
  linked := hlink
  txDesc := (slot_of_val r.txDesc).symm
  stages := after_transmitWrites r len
  room := (count_transmitWrites r len).trans hfit
  free := fun j hj _ => hfree j (lt_of_lt_of_le hj (count_transmitWrites r len))

omit [NeZero N] in
/-- The processor alone. -/
theorem run_writes (xs ys : List TxWrite) (r : TxRing N B) (dma : Fin N) :
    run transferStep { ring := r, dma := dma, todo := xs ++ ys }
        (List.replicate xs.length .cpu) =
      some { ring := xs.foldl TxRing.write r, dma := dma, todo := ys } := by
  induction xs generalizing r with
  | nil => rfl
  | cons x xs ih =>
      rw [List.length_cons, List.replicate_succ, List.foldl_cons]
      exact ih (r.write x)

omit [NeZero N] in
/-- A call that the DMA does not interfere with does what the function does. -/
theorem run_transmitWrites (r : TxRing N B) (dma : Fin N) (len : Nat) :
    run transferStep { ring := r, dma := dma, todo := transmitWrites r len }
        (List.replicate (transmitWrites r len).length .cpu) =
      some { ring := (halEthTransmitFrame r false len).1, dma := dma, todo := [] } := by
  have hrun := run_writes (transmitWrites r len) [] r dma
  rw [List.append_nil, foldl_transmitWrites] at hrun
  exact hrun

theorem bufcount_of_le {len : Nat} (h : len ≤ B) : bufcount B len = 1 :=
  if_neg (Nat.not_lt.mpr h)

theorem one_lt_bufcount [NeZero B] {len : Nat} (h : B < len) : 1 < bufcount B len := by
  have hB : 0 < B := Nat.pos_of_ne_zero (NeZero.ne B)
  have hdiv := Nat.div_add_mod len B
  have hone : 1 ≤ len / B := (Nat.le_div_iff_mul_le hB).mpr (by omega)
  rw [bufcount, if_pos h]
  split
  · omega
  · rename_i hmod
    rw [not_not] at hmod
    -- A quotient of one without a remainder is a frame that fits.
    by_contra hle
    have hq : len / B = 1 := by omega
    rw [hq, hmod] at hdiv
    omega

omit [NeZero N] in
/-- A frame of more than one buffer begins with the hand-over of its first descriptor. -/
theorem transmitWrites_long [NeZero B] {r : TxRing N B} {len : Nat} (h : B < len)
    (hfree : (r.desc r.txDesc).own = false) :
    ∃ rest, transmitWrites r len =
      [TxWrite.clear, TxWrite.first, TxWrite.size (tbs1 B), TxWrite.own] ++ rest := by
  have hcount := one_lt_bufcount h
  rcases Nat.exists_eq_add_of_lt hcount with ⟨c, hc⟩
  have hlast : ¬ 0 = bufcount B len - 1 := by omega
  refine ⟨.next :: ((List.range (c + 1)).map Nat.succ).flatMap
    (segmentWrites B len (bufcount B len)), ?_⟩
  rw [transmitWrites, if_neg (by omega), if_neg (by rw [hfree]; exact Bool.false_ne_true),
    frameWrites, if_neg (by omega)]
  rw [show List.range (bufcount B len) = 0 :: (List.range (c + 1)).map Nat.succ by
    rw [hc, show 1 + c + 1 = (c + 1) + 1 by omega, List.range_succ_eq_map]]
  rw [List.flatMap_cons, segmentWrites, if_pos rfl, if_neg hlast]
  rfl

/-- A frame of more than one buffer comes to a point at which the DMA owns its first
    descriptor and not its second. -/
theorem not_tail_long [NeZero B] {r : TxRing N B} (dma : Fin N) {len : Nat} (h : B < len)
    (hfit : bufcount B len ≤ N)
    (hfree : ∀ i, i < bufcount B len → (r.desc (slot N (r.txDesc + i))).own = false) :
    ∃ events s, run transferStep { ring := r, dma := dma, todo := transmitWrites r len } events =
      some s ∧ ¬ OwnershipOrder len r.txDesc s := by
  have hcount := one_lt_bufcount h
  have hfirst : (r.desc r.txDesc).own = false := by
    rw [← slot_of_val r.txDesc]
    exact hfree 0 (by omega)
  rcases transmitWrites_long h hfirst with ⟨rest, hrest⟩
  -- The processor alone gets as far as the first `OWN` bit.
  refine ⟨_, _, by rw [hrest]; exact run_writes _ rest r dma, fun hord => ?_⟩
  have hne : slot N (r.txDesc + 1) ≠ r.txDesc := by
    intro heq
    rw [← slot_of_val r.txDesc] at heq
    have hpos := slot_inj (k := r.txDesc) (by simp) (by simp; omega) (by simp) (by simp; omega) heq
    simp at hpos
  -- The second descriptor would have to be the DMA's, and nothing has been written to it.
  have hsecond := congrArg TxDesc.own
    (hord.tail (by simp [TxRing.write, TxWrite.onDesc]) (by simp [TxRing.write, TxWrite.onDesc])
      1 Nat.one_pos hcount)
  simp [TxRing.write, TxWrite.onDesc, giveSegment, hne, hfree 1 hcount] at hsecond

/-- With the descriptors of a frame in the processor's hands, the order of the hand-over
    is kept at every point of every interleaving exactly if the frame fits into one
    buffer. -/
theorem ownership_order_iff [NeZero B] {r : TxRing N B} (hlink : r.Linked) (dma : Fin N)
    {len : Nat} (hfit : bufcount B len ≤ N)
    (hfree : ∀ i, i < bufcount B len → (r.desc (slot N (r.txDesc + i))).own = false) :
    (∀ events s, run transferStep { ring := r, dma := dma, todo := transmitWrites r len } events =
      some s → OwnershipOrder len r.txDesc s) ↔ len ≤ B := by
  constructor
  · intro hall
    -- A frame that does not fit shows its first descriptor alone at one point.
    by_contra hlong
    rcases not_tail_long dma (Nat.not_le.mp hlong) hfit hfree with ⟨events, s, hrun, hnot⟩
    exact hnot (hall events s hrun)
  · intro hshort events s hrun
    have hstart : ∃ p st, Underway
        { ring := r, dma := dma, todo := transmitWrites r len } p st :=
      ⟨_, _, underway_start hlink dma hfit hfree⟩
    rcases run_invariant transferStep (fun s => ∃ p st, Underway s p st)
      (fun _ _ _ hu hs => Underway.step hu hs) hstart hrun with ⟨p, st, hu⟩
    refine ⟨fun _ _ i hi hlt => ?_, fun s' hs d hd => hu.steady hs d hd⟩
    -- There is no descriptor behind the first.
    rw [bufcount_of_le hshort] at hlt
    omega

/-- Three bytes in a ring of two buffers of four. -/
theorem ownership_order_three :
    bufcount 4 3 ≤ 2 ∧
    ∀ events s, run transferStep
      { ring := halEthDmaTxDescListInit (blankTx 2 4)
        dma := 0
        todo := transmitWrites (halEthDmaTxDescListInit (blankTx 2 4)) 3 } events = some s →
      OwnershipOrder 3 (halEthDmaTxDescListInit (blankTx 2 4)).txDesc s := by
  have hfit : bufcount 4 3 ≤ 2 := by decide
  refine ⟨hfit, (ownership_order_iff (init_linked (blankTx 2 4)) 0 hfit ?_).mpr (by decide)⟩
  intro i _
  rfl

/-- A frame of two buffers can be begun too early. -/
theorem not_ownership_order_two :
    ¬ ∀ (N B : Nat) [NeZero N] [NeZero B] (r : TxRing N B) (dma : Fin N) (len : Nat)
      (events : List TransferEvent) (s : Transfer N B), r.Linked → bufcount B len ≤ N →
      (∀ i, i < bufcount B len → (r.desc (slot N (r.txDesc + i))).own = false) →
      run transferStep { ring := r, dma := dma, todo := transmitWrites r len } events = some s →
      OwnershipOrder len r.txDesc s := by
  intro hall
  -- After four writes the first descriptor is handed over and the second is untouched.
  have hord := hall 2 4 (halEthDmaTxDescListInit (blankTx 2 4)) 0 5 [.cpu, .cpu, .cpu, .cpu] _
    (init_linked (blankTx 2 4)) (by decide) (fun _ _ => rfl) rfl
  have hsecond := congrArg TxDesc.own (hord.tail rfl rfl 1 (by decide) (by decide))
  revert hsecond
  decide

end Eth

end Firmware
