import Firmware.Hal.Tick
import Firmware.Lib.Runs
import Firmware.Lib.Stretch

/-!
# Ethernet Transmission

The transmit path of `drivers/test_eth.c`: `rt_stm32_eth_tx`, which copies a chain
of packet buffers into the buffers of the descriptor ring, and
`HAL_ETH_TransmitFrame`, which then gives the descriptors to the DMA.

The two functions cut the frame up independently. The copy walks the chain and
moves to the next descriptor when the bytes of a packet buffer do not all fit into
what is left of the transmit buffer, so it never leaves a full buffer before there
is a byte to put behind it. The hand-over is told only the length and divides. That
they agree is `Framed`: the descriptors handed over are the ones that were filled,
each with the number of bytes the copy put there, so reading them back the way the
DMA does gives the packet.

The length of a buffer goes through the thirteen bits of `ETH_DMATXDESC_TBS1`, and
this is the only limit: a segment of `8192` bytes or more is announced with another
length. Lengths are otherwise natural numbers. The ring's buffers are one array and
a packet buffer has at most `65535` bytes, so the sums the code forms in 32 bits do
not wrap.

## Main definitions

* `TxRing`: The transmit descriptors, their buffers and `TxDesc`.
* `halEthDmaTxDescListInit`: The initial ring.
* `copyChain`: The copy loop.
* `halEthTransmitFrame`: Giving the filled descriptors to the DMA.
* `rtStm32EthTx`: Sending a packet.
* `txStep`: The driver and the DMA at work on the ring.
* `Framed`: A frame has been handed over as it should be.

## Theorems

* `copyChain_spec`: The copy lays the packet out over the ring.
* `giveSegments_spec`: What the hand-over does to the descriptors.
* `run_linked`: The descriptors stay linked in a ring.
* `rtStm32EthTx_framed`: A packet that is sent is framed.
* `rtStm32EthTx_ok`: A packet is sent if there is room for it.
-/

namespace Firmware

namespace Eth

/-- What `rt_stm32_eth_tx` returns. -/
inductive Err
  | ok
  | use
  deriving DecidableEq

/-- A transmit descriptor: `OWN`, `FS` and `LS` of the status, the size of the
    buffer, and the link. -/
structure TxDesc (N : Nat) where
  own : Bool
  fs : Bool
  ls : Bool
  controlBufferSize : Nat
  next : Fin N

/-- The transmit ring: `DMATxDscrTab`, `Tx_Buff` and `EthHandle.TxDesc`. -/
structure TxRing (N B : Nat) where
  desc : Fin N → TxDesc N
  buf : Fin N → Buffer UInt8 B
  txDesc : Fin N

variable {N B : Nat} [NeZero N]

/-- `HAL_ETH_DMATxDescListInit`. The sizes and the contents of the buffers are
    left as the memory has them. -/
def halEthDmaTxDescListInit (r : TxRing N B) : TxRing N B :=
  { desc := fun i =>
      { r.desc i with own := false, fs := false, ls := false, next := ringNext i }
    buf := r.buf
    txDesc := slot N 0 }

/-- The variables of the copy loop: the transmit buffers, `DmaTxDesc`,
    `bufferoffset` and `framelength`. -/
structure Copy (N B : Nat) where
  buf : Fin N → Buffer UInt8 B
  dmaTxDesc : Fin N
  bufferoffset : Nat
  framelength : Nat

/-- `memcpy` to the current place in the current buffer. -/
def Copy.memcpy (c : Copy N B) (xs : List UInt8) : Fin N → Buffer UInt8 B :=
  Function.update c.buf c.dmaTxDesc ((c.buf c.dmaTxDesc).store c.bufferoffset xs)

/-- Copying one packet buffer, of which `payload` is still to be copied. The
    result is `false` where the code goes to `error`. -/
def copyPbuf [NeZero B] (desc : Fin N → TxDesc N) (c : Copy N B) (payload : List UInt8) :
    Copy N B × Bool :=
  if B < payload.length + c.bufferoffset then
    -- The transmit buffer takes the front and the next descriptor is needed.
    let buf := c.memcpy (payload.take (B - c.bufferoffset))
    let next := (desc c.dmaTxDesc).next
    if (desc next).own then
      ({ c with buf := buf, dmaTxDesc := next }, false)
    else
      copyPbuf desc
        { buf := buf, dmaTxDesc := next, bufferoffset := 0
          framelength := c.framelength + (B - c.bufferoffset) }
        (payload.drop (B - c.bufferoffset))
  else
    ({ c with
        buf := c.memcpy payload
        bufferoffset := c.bufferoffset + payload.length
        framelength := c.framelength + payload.length }, true)
termination_by payload.length + c.bufferoffset
decreasing_by
  have := Nat.pos_of_ne_zero (NeZero.ne B)
  simp only [List.length_drop]
  omega

/-- Copying the chain, packet buffer by packet buffer. -/
def copyChain [NeZero B] (desc : Fin N → TxDesc N) (c : Copy N B) :
    List (List UInt8) → Copy N B × Bool
  | [] => (c, true)
  | payload :: chain =>
      if (desc c.dmaTxDesc).own then (c, false)
      else
        match copyPbuf desc c payload with
        | (c', true) => copyChain desc c' chain
        | (c', false) => (c', false)

/-- `& ETH_DMATXDESC_TBS1` -/
def tbs1 (size : Nat) : Nat := size &&& 0x1fff

/-- `bufcount`: the number of transmit buffers of a frame. -/
def bufcount (B len : Nat) : Nat :=
  if B < len then
    if len % B ≠ 0 then len / B + 1 else len / B
  else 1

/-- What is done to the descriptor of a frame that has only one. -/
def giveWhole (len : Nat) (d : TxDesc N) : TxDesc N :=
  { d with fs := true, ls := true, controlBufferSize := tbs1 len, own := true }

/-- What turn `i` of the loop does to its descriptor. -/
def giveSegment (B len count i : Nat) (d : TxDesc N) : TxDesc N :=
  { d with
    fs := i = 0
    ls := i = count - 1
    controlBufferSize := if i = count - 1 then tbs1 (len - (count - 1) * B) else tbs1 B
    own := true }

namespace TxRing

/-- Changing the current descriptor and pointing to the next one. -/
def give (r : TxRing N B) (f : TxDesc N → TxDesc N) : TxRing N B :=
  { r with
    desc := Function.update r.desc r.txDesc (f (r.desc r.txDesc))
    txDesc := (r.desc r.txDesc).next }

/-- The loop over the segments after a number of turns. -/
def giveSegments (r : TxRing N B) (len count : Nat) : Nat → TxRing N B
  | 0 => r
  | i + 1 => (giveSegments r len count i).give (giveSegment B len count i)

end TxRing

/-- `HAL_ETH_TransmitFrame`, with the lock as `__HAL_LOCK` finds it. -/
def halEthTransmitFrame (r : TxRing N B) (locked : Bool) (len : Nat) : TxRing N B × HalStatus :=
  if locked then (r, .busy)
  else if len = 0 then (r, .error)
  else if (r.desc r.txDesc).own then (r, .error)
  else if bufcount B len = 1 then (r.give (giveWhole len), .ok)
  else (r.giveSegments len (bufcount B len) (bufcount B len), .ok)

/-- What a call of `rt_stm32_eth_tx` leaves: the ring, the value it returns, and
    the status of `HAL_ETH_TransmitFrame` if that was called. -/
structure Sent (N B : Nat) where
  ring : TxRing N B
  ret : Err
  state : Option HalStatus

/-- `rt_stm32_eth_tx`, with the lock as it is found after the wait for it. -/
def rtStm32EthTx [NeZero B] (r : TxRing N B) (locked : Bool) (chain : List (List UInt8)) :
    Sent N B :=
  let copied := copyChain r.desc
    { buf := r.buf, dmaTxDesc := r.txDesc, bufferoffset := 0, framelength := 0 } chain
  let filled := { r with buf := copied.1.buf }
  if copied.2 then
    let given := halEthTransmitFrame filled locked copied.1.framelength
    { ring := given.1, ret := .ok, state := some given.2 }
  else { ring := filled, ret := .use, state := none }

/-- What happens to the ring: a packet is sent, or the DMA has sent a descriptor
    and hands it back, with whatever it leaves in the status. -/
inductive TxEvent (N : Nat)
  | send (locked : Bool) (chain : List (List UInt8))
  | complete (i : Fin N) (fs ls : Bool)

/-- The ring after an event. Only a descriptor that the DMA owns is completed. -/
def txStep [NeZero B] (r : TxRing N B) : TxEvent N → Option (TxRing N B)
  | .send locked chain => some (rtStm32EthTx r locked chain).ring
  | .complete i fs ls =>
      if (r.desc i).own then
        some { r with
          desc := Function.update r.desc i { r.desc i with own := false, fs := fs, ls := ls } }
      else none

/-- From `r` to `r'`, a frame has been given to the DMA: the needed descriptors
    from the old `TxDesc` on are the DMA's, with the segment bits where they belong
    and the frame in their buffers, and everything else is as it was. -/
structure Framed (r : TxRing N B) (frame : List UInt8) (r' : TxRing N B) : Prop where
  own : ∀ i, i < needed B frame.length → (r'.desc (slot N (r.txDesc + i))).own = true
  fs : ∀ i, i < needed B frame.length → ((r'.desc (slot N (r.txDesc + i))).fs = true ↔ i = 0)
  ls : ∀ i, i < needed B frame.length →
    ((r'.desc (slot N (r.txDesc + i))).ls = true ↔ i + 1 = needed B frame.length)
  data : (List.range (needed B frame.length)).flatMap (fun i =>
    (r'.buf (slot N (r.txDesc + i))).read 0
      (r'.desc (slot N (r.txDesc + i))).controlBufferSize) = frame
  desc_others : ∀ d, (∀ i, i < needed B frame.length → d ≠ slot N (r.txDesc + i)) →
    r'.desc d = r.desc d
  buf_others : ∀ d, (∀ i, i < needed B frame.length → d ≠ slot N (r.txDesc + i)) →
    r'.buf d = r.buf d
  txDesc : r'.txDesc = slot N (r.txDesc + needed B frame.length)

variable [NeZero B]

/-- The descriptors are linked in a ring. -/
def TxRing.Linked (r : TxRing N B) : Prop := Chained fun i => (r.desc i).next

/-- The copy stands at offset `bufferoffset` of buffer `i` of the frame and has
    laid out `done` over the buffers up to there. -/
structure Copied (r : TxRing N B) (done : List UInt8) (i : Nat) (c : Copy N B) : Prop where
  desc : c.dmaTxDesc = slot N (r.txDesc + i)
  offset : c.bufferoffset ≤ B
  length : c.framelength = i * B + c.bufferoffset
  data : stretch c.buf r.txDesc (i * B + c.bufferoffset) = done
  others : ∀ j, i < j → j < N → c.buf (slot N (r.txDesc + j)) = r.buf (slot N (r.txDesc + j))

omit [NeZero B] in
/-- The descriptor behind the one at a place. -/
theorem TxRing.Linked.next_desc {r : TxRing N B} (hlink : r.Linked) {i : Nat} {d : Fin N}
    (hd : d = slot N (r.txDesc + i)) : (r.desc d).next = slot N (r.txDesc + (i + 1)) := by
  rw [hd]
  exact hlink _

theorem copied_start (r : TxRing N B) :
    Copied r [] 0 { buf := r.buf, dmaTxDesc := r.txDesc, bufferoffset := 0, framelength := 0 } where
  desc := by rw [Nat.add_zero, slot_of_val]
  offset := Nat.zero_le B
  length := by simp only [Nat.zero_mul, Nat.add_zero]
  data := by simp only [Nat.zero_mul, Nat.add_zero, stretch_zero]
  others := fun _ _ _ => rfl

/-- A copy that fits into the current buffer. -/
theorem Copied.memcpy {r : TxRing N B} {done : List UInt8} {i : Nat} {c : Copy N B}
    (h : Copied r done i c) (xs : List UInt8) (hi : i < N) (hfit : c.bufferoffset + xs.length ≤ B) :
    Copied r (done ++ xs) i { c with
      buf := c.memcpy xs
      bufferoffset := c.bufferoffset + xs.length
      framelength := c.framelength + xs.length } where
  desc := h.desc
  offset := hfit
  length := by
    simp only
    rw [h.length, Nat.add_assoc]
  data := by
    simp only [Copy.memcpy]
    rw [h.desc, ← Nat.add_assoc, stretch_write _ _ _ _ _ hi hfit, h.data]
  others := by
    intro j hj hjN
    simp only [Copy.memcpy]
    rw [h.desc, update_slot_ne (k := r.txDesc) (by omega) (by omega) (by omega) (by omega)
      (by omega), h.others j hj hjN]

/-- A full buffer, seen from the start of the next one. -/
theorem Copied.next {r : TxRing N B} {done : List UInt8} {i : Nat} {c : Copy N B}
    (h : Copied r done i c) (hlink : r.Linked) (hfull : c.bufferoffset = B) :
    Copied r done (i + 1) { c with
      dmaTxDesc := (r.desc c.dmaTxDesc).next
      bufferoffset := 0 } where
  desc := hlink.next_desc h.desc
  offset := Nat.zero_le B
  length := by
    simp only
    rw [h.length, hfull, Nat.succ_mul, Nat.add_zero]
  data := by
    simp only
    rw [← h.data, hfull, Nat.succ_mul, Nat.add_zero]
  others := fun j hj hjN => h.others j (by omega) hjN

/-- One packet buffer is laid out behind what is there already. It does not matter
    where it starts, and the copy leaves a full buffer only if a byte follows. -/
theorem copyPbuf_spec {r : TxRing N B} (hlink : r.Linked) (c : Copy N B) (payload : List UInt8)
    {done : List UInt8} {i : Nat} (hc : Copied r done i c)
    (hmore : i = 0 ∨ 0 < c.bufferoffset + payload.length)
    (hfit : i * B + c.bufferoffset + payload.length ≤ N * B)
    (hfree : ∀ j, j * B < i * B + c.bufferoffset + payload.length →
      (r.desc (slot N (r.txDesc + j))).own = false) :
    ∃ c' i', copyPbuf r.desc c payload = (c', true) ∧ Copied r (done ++ payload) i' c' ∧
      (i' = 0 ∨ 0 < c'.bufferoffset) := by
  fun_induction copyPbuf r.desc c payload generalizing done i with
  | case1 c payload hlt =>
      rename_i buf next hown
      -- The next descriptor is needed for a byte of the frame, so it is free.
      have hfree' := hfree (i + 1) (by rw [Nat.succ_mul]; omega)
      rw [← hlink.next_desc hc.desc] at hfree'
      exact absurd hown (by rw [hfree']; exact Bool.false_ne_true)
  | case2 c payload hlt =>
      rename_i buf next hown ih
      have hoff := hc.offset
      have hfront : (payload.take (B - c.bufferoffset)).length = B - c.bufferoffset := by
        rw [List.length_take]
        omega
      -- The buffer is filled up to its end, and the rest of the payload is copied on from the
      -- next one.
      have hstep := (hc.memcpy (payload.take (B - c.bufferoffset)) (lt_of_fits hmore hfit)
        (by omega)).next hlink (by simp only; omega)
      rw [hfront] at hstep
      have hback : (i + 1) * B + 0 + (payload.drop (B - c.bufferoffset)).length =
          i * B + c.bufferoffset + payload.length := by
        rw [List.length_drop, Nat.succ_mul]
        omega
      have hrest : 0 < (payload.drop (B - c.bufferoffset)).length := by
        rw [List.length_drop]
        omega
      rcases ih hstep (.inr (by omega)) (by simp only; omega)
        (fun j hj => hfree j (by simp only at hj; omega)) with ⟨c', i', heq, hc', hlast⟩
      refine ⟨c', i', heq, ?_, hlast⟩
      rwa [List.append_assoc, List.take_append_drop] at hc'
  | case3 c payload hle =>
      have hi := lt_of_fits hmore hfit
      exact ⟨_, i, rfl, hc.memcpy payload hi (by omega), by simp only; omega⟩

/-- The chain is laid out over the ring, and the last buffer has a byte of it. -/
theorem copyChain_spec {r : TxRing N B} (hlink : r.Linked) (chain : List (List UInt8)) :
    ∀ {c : Copy N B} {done : List UInt8} {i : Nat}, Copied r done i c →
      (i = 0 ∨ 0 < c.bufferoffset) → 0 < i * B + c.bufferoffset + chain.flatten.length →
      i * B + c.bufferoffset + chain.flatten.length ≤ N * B →
      (∀ j, j * B < i * B + c.bufferoffset + chain.flatten.length →
        (r.desc (slot N (r.txDesc + j))).own = false) →
      ∃ c' i', copyChain r.desc c chain = (c', true) ∧ Copied r (done ++ chain.flatten) i' c' ∧
        (i' = 0 ∨ 0 < c'.bufferoffset) := by
  induction chain with
  | nil =>
      intro c done i hc hlast _ _ _
      refine ⟨c, i, rfl, ?_, hlast⟩
      rwa [List.flatten_nil, List.append_nil]
  | cons payload chain ih =>
      intro c done i hc hlast hpos hfit hfree
      rw [List.flatten_cons, List.length_append] at hpos hfit hfree
      -- The current buffer has a byte of the frame, or is the first one.
      have hown : (r.desc c.dmaTxDesc).own = false := by
        rw [hc.desc]
        refine hfree i ?_
        rcases hlast with rfl | hlast <;> omega
      rcases copyPbuf_spec hlink c payload hc (by omega) (by omega)
        (fun j hj => hfree j (by omega)) with ⟨c₁, i₁, heq₁, hc₁, hlast₁⟩
      -- How far the copy has come can be told from what it has laid out.
      have hlen : i₁ * B + c₁.bufferoffset = i * B + c.bufferoffset + payload.length := by
        have h := congrArg List.length hc₁.data
        rw [stretch_length, List.length_append, ← hc.data, stretch_length] at h
        exact h
      rcases ih hc₁ hlast₁ (by omega) (by omega) (fun j hj => hfree j (by omega)) with
        ⟨c', i', heq', hc', hlast'⟩
      refine ⟨c', i', ?_, ?_, hlast'⟩
      · rw [copyChain, if_neg (by rw [hown]; exact Bool.false_ne_true), heq₁]
        exact heq'
      · rwa [List.flatten_cons, ← List.append_assoc]

/-- The hand-over counts the buffers a frame needs. -/
theorem bufcount_eq_needed {len : Nat} (h : 0 < len) : bufcount B len = needed B len := by
  rcases exists_needed (m := B) h with ⟨c, hc, hlt, hle⟩
  rw [hc, bufcount]
  by_cases hmore : B < len
  · have hdiv := Nat.div_add_mod len B
    have hmod := Nat.mod_lt len (Nat.pos_of_ne_zero (NeZero.ne B))
    rw [Nat.mul_comm] at hdiv
    rw [if_pos hmore]
    by_cases hzero : len % B = 0
    · -- The quotient is not zero, and its last buffer is full.
      rw [if_neg (not_not.mpr hzero)]
      have hpos : len / B ≠ 0 := by
        intro hq
        rw [hq, hzero] at hdiv
        omega
      rcases Nat.exists_eq_succ_of_ne_zero hpos with ⟨q, hq⟩
      rw [hq, Nat.succ_mul] at hdiv
      rw [hq, ← hc, needed_eq (c := q) (by omega) (by omega)]
    · rw [if_pos hzero, ← hc, needed_eq (c := len / B) (by omega) (by omega)]
  · -- One buffer is enough.
    rw [if_neg hmore, ← hc, needed_eq (c := 0) (by omega) (by omega)]

theorem tbs1_eq {size : Nat} (h : size ≤ 8191) : tbs1 size = size := by
  rw [tbs1]
  exact (Nat.and_two_pow_sub_one_eq_mod size 13).trans (Nat.mod_eq_of_lt (by omega))

omit [NeZero N] [NeZero B] in
/-- The size in the descriptor of a segment is what the copy has put there. -/
theorem giveSegment_size {c len i : Nat} (hlt : c * B < len) (hle : len ≤ c * B + B)
    (hsize : min len B ≤ 8191) (hi : i < c + 1) (d : TxDesc N) :
    (giveSegment B len (c + 1) i d).controlBufferSize = min B (len - i * B) := by
  simp only [giveSegment, Nat.add_sub_cancel]
  -- The last segment has what is left, and its size is masked like the others.
  by_cases hlast : i = c
  · have hsmall : len - c * B ≤ min len B := by omega
    rw [if_pos hlast, hlast, tbs1_eq (by omega), Nat.min_eq_right (by omega)]
  · -- An earlier segment is full, and the frame is longer than a buffer.
    have hfull : i * B + B ≤ c * B := by
      rw [← Nat.succ_mul]
      exact Nat.mul_le_mul_right B (by omega)
    rw [if_neg hlast, tbs1_eq (by omega), Nat.min_eq_left (by omega)]

omit [NeZero N] [NeZero B] in
/-- A frame in one buffer is the case of one segment. -/
theorem giveWhole_eq (r : TxRing N B) (len : Nat) :
    r.give (giveWhole len) = r.giveSegments len 1 1 := by
  simp only [TxRing.giveSegments, giveSegment, giveWhole, TxRing.give, Nat.sub_self, Nat.zero_mul,
    Nat.sub_zero, if_true, decide_true]

omit [NeZero B] in
/-- What the hand-over has done after some turns, once around the ring at most. -/
theorem giveSegments_spec {r : TxRing N B} (hlink : r.Linked) (len count : Nat) :
    ∀ m, m ≤ N →
      (r.giveSegments len count m).txDesc = slot N (r.txDesc + m) ∧
      (∀ j, j < m → (r.giveSegments len count m).desc (slot N (r.txDesc + j)) =
        giveSegment B len count j (r.desc (slot N (r.txDesc + j)))) ∧
      (∀ j, m ≤ j → j < N → (r.giveSegments len count m).desc (slot N (r.txDesc + j)) =
        r.desc (slot N (r.txDesc + j))) := by
  intro m
  induction m with
  | zero =>
      intro _
      refine ⟨?_, fun j hj => absurd hj (Nat.not_lt_zero j), fun _ _ _ => rfl⟩
      rw [Nat.add_zero, slot_of_val]
      rfl
  | succ m ih =>
      intro hm
      rcases ih (by omega) with ⟨htx, hdone, hrest⟩
      simp only [TxRing.giveSegments, TxRing.give]
      -- This turn writes to the first descriptor that the turns before have left alone.
      rw [htx, hrest m (Nat.le_refl m) (by omega)]
      -- Going once around at most, it does not come back to a place of an earlier turn.
      refine ⟨hlink _, ?_, ?_⟩
      · intro j hj
        by_cases heq : j = m
        · rw [heq, Function.update_self]
        · rw [update_slot_ne (k := r.txDesc) (by omega) (by omega) (by omega) (by omega)
            (by omega), hdone j (by omega)]
      · intro j hj hjN
        rw [update_slot_ne (k := r.txDesc) (by omega) (by omega) (by omega) (by omega)
          (by omega), hrest j (by omega) hjN]

omit [NeZero N] [NeZero B] in
theorem giveSegments_buf (r : TxRing N B) (len count : Nat) :
    ∀ m, (r.giveSegments len count m).buf = r.buf
  | 0 => rfl
  | m + 1 => giveSegments_buf r len count m

omit [NeZero N] in
/-- The hand-over of a frame whose first descriptor is free. -/
theorem halEthTransmitFrame_eq (r : TxRing N B) {len : Nat} (hpos : 0 < len)
    (hfree : (r.desc r.txDesc).own = false) :
    halEthTransmitFrame r false len =
      (r.giveSegments len (needed B len) (needed B len), .ok) := by
  rw [halEthTransmitFrame, if_neg Bool.false_ne_true, if_neg (by omega),
    if_neg (by rw [hfree]; exact Bool.false_ne_true), bufcount_eq_needed hpos]
  by_cases hone : needed B len = 1
  · rw [if_pos hone, hone, giveWhole_eq]
  · rw [if_neg hone]

/-- If the needed descriptors are free, the call hands over a ring whose buffers
    have the packet laid out in them and are otherwise as they were. -/
theorem rtStm32EthTx_eq {r : TxRing N B} (hlink : r.Linked) (locked : Bool)
    {chain : List (List UInt8)} (hpos : 0 < chain.flatten.length)
    (hfit : chain.flatten.length ≤ N * B)
    (hfree : ∀ i, i < needed B chain.flatten.length →
      (r.desc (slot N (r.txDesc + i))).own = false) :
    ∃ buf : Fin N → Buffer UInt8 B,
      stretch buf r.txDesc chain.flatten.length = chain.flatten ∧
      (∀ j, needed B chain.flatten.length ≤ j → j < N →
        buf (slot N (r.txDesc + j)) = r.buf (slot N (r.txDesc + j))) ∧
      rtStm32EthTx r locked chain =
        { ring := (halEthTransmitFrame { r with buf := buf } locked chain.flatten.length).1
          ret := .ok
          state := some
            (halEthTransmitFrame { r with buf := buf } locked chain.flatten.length).2 } := by
  rcases exists_needed (m := B) hpos with ⟨n, hn, -, hle⟩
  -- The descriptors the copy asks about are the ones the frame needs.
  have hneed : ∀ j, j * B < 0 * B + 0 + chain.flatten.length →
      (r.desc (slot N (r.txDesc + j))).own = false := by
    intro j hj
    refine hfree j ?_
    rw [hn]
    by_contra hc
    have hmul := Nat.mul_le_mul_right B (by omega : n + 1 ≤ j)
    rw [Nat.succ_mul] at hmul
    omega
  rcases copyChain_spec hlink chain (copied_start r) (.inl rfl) (by simp only; omega)
    (by simp only; omega) hneed with ⟨c, i, heq, hc, hlast⟩
  rw [List.nil_append] at hc
  have hlen : i * B + c.bufferoffset = chain.flatten.length := by
    rw [← hc.data, stretch_length]
  -- The last buffer has a byte of the frame, so there are no fewer.
  have hi : needed B chain.flatten.length = i + 1 := by
    have hoff := hc.offset
    refine needed_eq ?_ (by omega)
    rcases hlast with rfl | hlast <;> omega
  refine ⟨c.buf, ?_, ?_, ?_⟩
  · rw [← hlen]
    exact hc.data.trans rfl
  · intro j hj hjN
    exact hc.others j (by omega) hjN
  · rw [rtStm32EthTx, heq, ← hlen, ← hc.length]
    rfl

/-- Handing over buffers in which a frame is laid out frames it. -/
theorem giveSegments_framed {r : TxRing N B} (hlink : r.Linked) {frame : List UInt8}
    {buf : Fin N → Buffer UInt8 B} (hpos : 0 < frame.length) (hfit : frame.length ≤ N * B)
    (hsize : min frame.length B ≤ 8191) (hdata : stretch buf r.txDesc frame.length = frame)
    (hbuf : ∀ j, needed B frame.length ≤ j → j < N →
      buf (slot N (r.txDesc + j)) = r.buf (slot N (r.txDesc + j))) :
    Framed r frame ({ r with buf := buf }.giveSegments frame.length (needed B frame.length)
      (needed B frame.length)) := by
  rcases exists_needed (m := B) hpos with ⟨n, hn, hlt, hle⟩
  have hlink' : ({ r with buf := buf } : TxRing N B).Linked := hlink
  rcases giveSegments_spec hlink' frame.length (needed B frame.length) _ (needed_le hpos hfit)
    with ⟨htx, hdone, hrest⟩
  refine ⟨?_, ?_, ?_, ?_, ?_, ?_, htx⟩
  · intro i hi
    rw [hdone i hi]
    rfl
  · intro i hi
    rw [hdone i hi, giveSegment, decide_eq_true_iff]
  · intro i hi
    rw [hdone i hi, giveSegment, decide_eq_true_iff]
    omega
  · -- The sizes are the ones of a frame laid out over the buffers.
    have hsizes : ∀ i ∈ List.range (needed B frame.length),
        (({ r with buf := buf }.giveSegments frame.length (needed B frame.length)
          (needed B frame.length)).buf (slot N (r.txDesc + i))).read 0
          (({ r with buf := buf }.giveSegments frame.length (needed B frame.length)
            (needed B frame.length)).desc (slot N (r.txDesc + i))).controlBufferSize =
        (buf (slot N (r.txDesc + i))).read 0 (min B (frame.length - i * B)) := by
      intro i hi
      have hlt' := List.mem_range.mp hi
      rw [giveSegments_buf, hdone i hlt', hn,
        giveSegment_size hlt hle hsize (by omega)]
    rw [List.flatMap_congr hsizes, stretch_flatMap, hn, Nat.succ_mul, Nat.min_eq_right hle]
    exact hdata
  · -- Any other descriptor is further around the ring than the hand-over goes.
    intro d hd
    rcases exists_slot_behind hd with ⟨j, hj, hjN, rfl⟩
    exact hrest j hj hjN
  · intro d hd
    rcases exists_slot_behind hd with ⟨j, hj, hjN, rfl⟩
    rw [giveSegments_buf]
    exact hbuf j hj hjN

omit [NeZero N] [NeZero B] in
/-- The links never change. -/
theorem give_next (r : TxRing N B) {f : TxDesc N → TxDesc N} (hf : ∀ d, (f d).next = d.next)
    (i : Fin N) : ((r.give f).desc i).next = (r.desc i).next := by
  simp only [TxRing.give]
  by_cases hi : i = r.txDesc
  · rw [hi, Function.update_self, hf]
  · rw [Function.update_of_ne hi]

omit [NeZero N] [NeZero B] in
theorem giveSegments_next (r : TxRing N B) (len count : Nat) (i : Fin N) (m : Nat) :
    ((r.giveSegments len count m).desc i).next = (r.desc i).next := by
  induction m with
  | zero => rfl
  | succ m ih =>
      rw [← ih]
      exact give_next _ (f := giveSegment B len count m) (fun _ => rfl) i

omit [NeZero N] [NeZero B] in
theorem halEthTransmitFrame_next (r : TxRing N B) (locked : Bool) (len : Nat) (i : Fin N) :
    ((halEthTransmitFrame r locked len).1.desc i).next = (r.desc i).next := by
  unfold halEthTransmitFrame
  split_ifs
  · rfl
  · rfl
  · rfl
  · exact give_next r (f := giveWhole len) (fun _ => rfl) i
  · exact giveSegments_next r _ _ i _

omit [NeZero N] in
theorem rtStm32EthTx_next (r : TxRing N B) (locked : Bool) (chain : List (List UInt8))
    (i : Fin N) : ((rtStm32EthTx r locked chain).ring.desc i).next = (r.desc i).next := by
  unfold rtStm32EthTx
  simp only
  split_ifs
  · exact halEthTransmitFrame_next _ _ _ i
  · rfl

theorem txStep_linked {r r' : TxRing N B} {e : TxEvent N} (h : r.Linked)
    (hs : txStep r e = some r') : r'.Linked := by
  have hsame : ∀ i, (r'.desc i).next = (r.desc i).next := by
    intro i
    cases e with
    | send locked chain =>
        rw [← Option.some.inj hs]
        exact rtStm32EthTx_next r locked chain i
    | complete j fs ls =>
        rw [txStep] at hs
        split_ifs at hs
        rw [← Option.some.inj hs]
        simp only
        by_cases hi : i = j
        · rw [hi, Function.update_self]
        · rw [Function.update_of_ne hi]
  intro k
  exact (hsame _).trans (h k)

omit [NeZero B] in
theorem init_linked (r : TxRing N B) : (halEthDmaTxDescListInit r).Linked := chained_ringNext

/-- The descriptors stay linked in a ring, whatever happens. -/
theorem run_linked {r₀ r : TxRing N B} {events : List (TxEvent N)}
    (hrun : run txStep (halEthDmaTxDescListInit r₀) events = some r) : r.Linked :=
  run_invariant txStep TxRing.Linked (fun _ _ _ h hs => txStep_linked h hs) (init_linked r₀) hrun

/-- The first descriptor is one of the needed ones. -/
theorem first_free {r : TxRing N B} {len : Nat} (hpos : 0 < len)
    (hfree : ∀ i, i < needed B len → (r.desc (slot N (r.txDesc + i))).own = false) :
    (r.desc r.txDesc).own = false := by
  rcases exists_needed (m := B) hpos with ⟨n, hn, -, -⟩
  have h := hfree 0 (by omega)
  rwa [Nat.add_zero, slot_of_val] at h

/-- After any history, a packet whose descriptors are free and whose hand-over
    returns `HAL_OK` has been framed, if its segments are below `8192` bytes. -/
theorem rtStm32EthTx_framed {r₀ r : TxRing N B} {events : List (TxEvent N)}
    (hrun : run txStep (halEthDmaTxDescListInit r₀) events = some r) (locked : Bool)
    (chain : List (List UInt8)) (hpos : 0 < chain.flatten.length)
    (hfit : chain.flatten.length ≤ N * B) (hsize : min chain.flatten.length B ≤ 8191)
    (hfree : ∀ i, i < needed B chain.flatten.length →
      (r.desc (slot N (r.txDesc + i))).own = false)
    (hok : (rtStm32EthTx r locked chain).state = some .ok) :
    Framed r chain.flatten (rtStm32EthTx r locked chain).ring := by
  have hlink := run_linked hrun
  rcases rtStm32EthTx_eq hlink locked hpos hfit hfree with ⟨buf, hdata, hbuf, heq⟩
  have hfirst := first_free hpos hfree
  cases locked with
  | true =>
      -- A lock that is taken is `HAL_BUSY`.
      rw [heq] at hok
      cases hok
  | false =>
      rw [heq, halEthTransmitFrame_eq ({ r with buf := buf } : TxRing N B) hpos hfirst]
      exact giveSegments_framed hlink hpos hfit hsize hdata hbuf

/-- A packet for which there is room is sent if the lock is free. -/
theorem rtStm32EthTx_ok {r₀ r : TxRing N B} {events : List (TxEvent N)}
    (hrun : run txStep (halEthDmaTxDescListInit r₀) events = some r)
    (chain : List (List UInt8)) (hpos : 0 < chain.flatten.length)
    (hfit : chain.flatten.length ≤ N * B)
    (hfree : ∀ i, i < needed B chain.flatten.length →
      (r.desc (slot N (r.txDesc + i))).own = false) :
    (rtStm32EthTx r false chain).state = some .ok := by
  rcases rtStm32EthTx_eq (run_linked hrun) false hpos hfit hfree with ⟨buf, -, -, heq⟩
  have hfirst := first_free hpos hfree
  rw [heq, halEthTransmitFrame_eq ({ r with buf := buf } : TxRing N B) hpos hfirst]

omit [NeZero B] in
/-- A frame in one buffer is no longer than what its descriptor announces. -/
theorem Framed.length_le {r r' : TxRing N B} {frame : List UInt8} (h : Framed r frame r')
    (hone : needed B frame.length = 1) :
    frame.length ≤ (r'.desc (slot N (r.txDesc + 0))).controlBufferSize := by
  have hdata := congrArg List.length h.data
  rw [hone, List.range_one, List.flatMap_singleton] at hdata
  rw [← hdata]
  exact List.length_take_le _ _

/-- A ring in memory that has been cleared. -/
def blankTx (N B : Nat) [NeZero N] : TxRing N B :=
  { desc := fun _ =>
      { own := false, fs := false, ls := false, controlBufferSize := 0, next := slot N 0 }
    buf := fun _ _ => 0
    txDesc := slot N 0 }

/-- Three bytes in a chain with an empty packet buffer, over buffers of two. -/
theorem rtStm32EthTx_framed_threeBytes :
    Framed (halEthDmaTxDescListInit (blankTx 2 2)) [1, 2, 3]
      (rtStm32EthTx (halEthDmaTxDescListInit (blankTx 2 2)) false [[1], [], [2, 3]]).ring := by
  have hrun : run txStep (halEthDmaTxDescListInit (blankTx 2 2)) [] =
    some (halEthDmaTxDescListInit (blankTx 2 2)) := rfl
  have hok := rtStm32EthTx_ok hrun [[1], [], [2, 3]] (by decide) (by decide) (fun _ _ => rfl)
  exact rtStm32EthTx_framed hrun false [[1], [], [2, 3]] (by decide) (by decide) (by decide)
    (fun _ _ => rfl) hok

/-- With a buffer of `8192` bytes a full segment is announced as empty. -/
theorem not_framed_fullSegment :
    ¬ ∀ (N B : Nat) [NeZero N] [NeZero B] (r₀ r : TxRing N B) (events : List (TxEvent N))
      (locked : Bool) (chain : List (List UInt8)),
      run txStep (halEthDmaTxDescListInit r₀) events = some r → 0 < chain.flatten.length →
      chain.flatten.length ≤ N * B →
      (∀ i, i < needed B chain.flatten.length →
        (r.desc (slot N (r.txDesc + i))).own = false) →
      (rtStm32EthTx r locked chain).state = some .ok →
      Framed r chain.flatten (rtStm32EthTx r locked chain).ring := by
  intro h
  have hlen : [List.replicate 8192 (0 : UInt8)].flatten.length = 8192 := by
    rw [List.flatten_singleton, List.length_replicate]
  have hpos : 0 < [List.replicate 8192 (0 : UInt8)].flatten.length := by omega
  have hfit : [List.replicate 8192 (0 : UInt8)].flatten.length ≤ 1 * 8192 := by omega
  have hrun : run txStep (halEthDmaTxDescListInit (blankTx 1 8192)) [] =
    some (halEthDmaTxDescListInit (blankTx 1 8192)) := rfl
  have hframed := h 1 8192 (blankTx 1 8192) _ [] false _ hrun hpos hfit (fun _ _ => rfl)
    (rtStm32EthTx_ok hrun _ hpos hfit (fun _ _ => rfl))
  rcases rtStm32EthTx_eq (run_linked hrun) false hpos hfit (fun _ _ => rfl) with ⟨buf, -, -, heq⟩
  have hone : needed 8192 [List.replicate 8192 (0 : UInt8)].flatten.length = 1 := by
    rw [hlen]
    rfl
  -- The only descriptor has size zero, and the frame would have to fit into that.
  have hlink : ({ halEthDmaTxDescListInit (blankTx 1 8192) with buf := buf } :
    TxRing 1 8192).Linked := init_linked _
  have hdesc := (giveSegments_spec hlink 8192 1 1 (Nat.le_refl 1)).2.1 0 Nat.one_pos
  have hle := hframed.length_le hone
  rw [heq, halEthTransmitFrame_eq _ hpos rfl, hone, hlen] at hle
  have hzero : 8192 ≤ tbs1 (8192 - (1 - 1) * 8192) :=
    hle.trans_eq (congrArg TxDesc.controlBufferSize hdesc)
  exact absurd hzero (by decide)

end Eth

end Firmware
