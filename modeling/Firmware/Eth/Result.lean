import Firmware.Eth.Transmit

/-!
# What a Transmission Returns

Whether the value `rt_stm32_eth_tx` returns says what has happened.

There are three ways not to send a packet: a descriptor is still the DMA's, the
packet is empty, or the lock of the handle is taken. The copy loop reports the
first one and leaves. The other two are found by `HAL_ETH_TransmitFrame`, whose
status is only printed: the function then goes on to `ERR_OK`. `truthful_iff`
says for which packets and rings that makes a difference.

What is done to the ring is right in every case. A packet that is not handed over
leaves the descriptors as they were, and no buffer of the DMA's is ever written,
though some of the others may have been when the copy meets the descriptor that
stops it.

## Main definitions

* `Handed`: The descriptors of a packet are the DMA's and `TxDesc` is behind them.
* `Truthful`: The returned value says what has happened.
* `Copying`: The copy stands at a descriptor of the driver's.

## Theorems

* `copyChain_buf`: The copy does not write to the DMA's buffers.
* `copyChain_result`: The copy gets through exactly if the descriptors are free.
* `giveSegments_handed`: The hand-over, however often it goes around.
* `truthful_iff`: When the returned value can be believed.
* `not_truthful_locked`: A packet that met a lock is reported as sent.
-/

namespace Firmware

namespace Eth

variable {N B : Nat} [NeZero N] [NeZero B]

/-- A packet of `len` bytes has been handed over: its descriptors are the DMA's and
    `TxDesc` points behind them. -/
def Handed (r r' : TxRing N B) (len : Nat) : Prop :=
  (∀ i, i < needed B len → (r'.desc (slot N (r.txDesc + i))).own = true) ∧
    r'.txDesc = slot N (r.txDesc + needed B len)

/-- The packet is handed over if and only if the call returns `ERR_OK`, and if it is
    not, the descriptors and `TxDesc` are as they were and no buffer of the DMA's has
    been written. -/
structure Truthful (r : TxRing N B) (chain : List (List UInt8)) (s : Sent N B) : Prop where
  ok_iff : s.ret = .ok ↔ s.state = some .ok
  handed : s.state = some .ok → Handed r s.ring chain.flatten.length
  desc : s.state ≠ some .ok → s.ring.desc = r.desc ∧ s.ring.txDesc = r.txDesc
  buf : s.state ≠ some .ok → ∀ d, (r.desc d).own = true → s.ring.buf d = r.buf d

omit [NeZero N] [NeZero B] in
/-- A buffer of the DMA's is another one than the current buffer of the copy. -/
theorem update_of_owned (desc : Fin N → TxDesc N) {c : Copy N B} {xs : List UInt8}
    (hcur : (desc c.dmaTxDesc).own = false) {d : Fin N} (hd : (desc d).own = true) :
    c.memcpy xs d = c.buf d := by
  have hne : d ≠ c.dmaTxDesc := by
    intro he
    rw [he, hcur] at hd
    cases hd
  exact Function.update_of_ne hne _ _

omit [NeZero N] in
/-- The copy of a packet buffer writes to buffers of the driver's only. -/
theorem copyPbuf_buf (desc : Fin N → TxDesc N) (c : Copy N B) (payload : List UInt8)
    (hcur : (desc c.dmaTxDesc).own = false) {d : Fin N} (hd : (desc d).own = true) :
    (copyPbuf desc c payload).1.buf d = c.buf d := by
  -- The cases are those of the copy: a descriptor that is not free, the next one, the last.
  fun_induction copyPbuf desc c payload with
  | case1 c payload hlt buf next hown => exact update_of_owned desc hcur hd
  | case2 c payload hlt buf next hown ih =>
      rw [Bool.not_eq_true] at hown
      exact (ih hown).trans (update_of_owned desc hcur hd)
  | case3 c payload hle => exact update_of_owned desc hcur hd

omit [NeZero N] in
/-- The copy of a packet does not write to the DMA's buffers. -/
theorem copyChain_buf (desc : Fin N → TxDesc N) (c : Copy N B) (chain : List (List UInt8))
    {d : Fin N} (hd : (desc d).own = true) : (copyChain desc c chain).1.buf d = c.buf d := by
  induction chain generalizing c with
  | nil => rfl
  | cons payload chain ih =>
      rw [copyChain]
      by_cases hown : (desc c.dmaTxDesc).own = true
      · rw [if_pos hown]
      · rw [if_neg hown]
        rw [Bool.not_eq_true] at hown
        have hbuf := copyPbuf_buf desc c payload hown hd
        -- The chain goes on from where this packet buffer ends, or stops there.
        cases hc : copyPbuf desc c payload with
        | mk c' ok =>
            rw [hc] at hbuf
            cases ok with
            | true => exact (ih c').trans hbuf
            | false => exact hbuf

/-- The copy stands at descriptor `i` of the packet, and the descriptors up to there
    are the driver's. -/
structure Copying (r : TxRing N B) (i : Nat) (c : Copy N B) : Prop where
  desc : c.dmaTxDesc = slot N (r.txDesc + i)
  offset : c.bufferoffset ≤ B
  length : c.framelength = i * B + c.bufferoffset
  free : ∀ j, j ≤ i → (r.desc (slot N (r.txDesc + j))).own = false

/-- A packet buffer is copied, or a descriptor it needs is the DMA's. -/
theorem copyPbuf_result {r : TxRing N B} (hlink : r.Linked) (c : Copy N B)
    (payload : List UInt8) {i : Nat} (hc : Copying r i c) :
    (∃ c' i', copyPbuf r.desc c payload = (c', true) ∧ Copying r i' c' ∧
      c'.framelength = c.framelength + payload.length) ∨
    (∃ c' j, copyPbuf r.desc c payload = (c', false) ∧
      j * B < c.framelength + payload.length ∧
      (r.desc (slot N (r.txDesc + j))).own = true) := by
  fun_induction copyPbuf r.desc c payload generalizing i with
  | case1 c payload hlt =>
      rename_i buf next hown
      -- The code goes to `error` with a byte left for the descriptor it cannot have.
      have hlen := hc.length
      rw [show next = slot N (r.txDesc + (i + 1)) from hlink.next_desc hc.desc] at hown
      exact .inr ⟨_, i + 1, rfl, by rw [Nat.succ_mul]; omega, hown⟩
  | case2 c payload hlt =>
      rename_i buf next hown ih
      have hlen := hc.length
      have hoff := hc.offset
      rw [Bool.not_eq_true] at hown
      have hstep : Copying r (i + 1)
          { buf := buf, dmaTxDesc := next, bufferoffset := 0
            framelength := c.framelength + (B - c.bufferoffset) } := by
        refine ⟨hlink.next_desc hc.desc, Nat.zero_le B, by simp only; rw [Nat.succ_mul]; omega, ?_⟩
        intro j hj
        by_cases hji : j = i + 1
        · rw [hji, ← hlink.next_desc hc.desc]
          exact hown
        · exact hc.free j (by omega)
      have hrest : (payload.drop (B - c.bufferoffset)).length =
          payload.length - (B - c.bufferoffset) := List.length_drop
      rcases ih hstep with ⟨c', i', heq, hc', hlen'⟩ | ⟨c', j, heq, hj, hbusy⟩
      · exact .inl ⟨c', i', heq, hc', by rw [hlen', hrest]; simp only; omega⟩
      · refine .inr ⟨c', j, heq, ?_, hbusy⟩
        rw [hrest] at hj
        simp only at hj
        omega
  | case3 c payload hle =>
      have hlen := hc.length
      exact .inl ⟨_, i, rfl, ⟨hc.desc, by simp only; omega, by simp only; omega, hc.free⟩, rfl⟩

/-- The same for a packet. -/
theorem copyChain_result {r : TxRing N B} (hlink : r.Linked) (chain : List (List UInt8))
    {c : Copy N B} {i : Nat} (hc : Copying r i c) :
    (∃ c' i', copyChain r.desc c chain = (c', true) ∧ Copying r i' c' ∧
      c'.framelength = c.framelength + chain.flatten.length) ∨
    (∃ c' j, copyChain r.desc c chain = (c', false) ∧
      j * B < c.framelength + chain.flatten.length ∧
      (r.desc (slot N (r.txDesc + j))).own = true) := by
  induction chain generalizing c i with
  | nil => exact .inl ⟨c, i, rfl, hc, rfl⟩
  | cons payload chain ih =>
      have hown : (r.desc c.dmaTxDesc).own = false := by
        rw [hc.desc]
        exact hc.free i (Nat.le_refl i)
      have htotal : (payload :: chain).flatten.length = payload.length + chain.flatten.length := by
        rw [List.flatten_cons, List.length_append]
      rw [copyChain, if_neg (by rw [hown]; exact Bool.false_ne_true), htotal]
      rcases copyPbuf_result hlink c payload hc with
        ⟨c₁, i₁, heq, hc₁, hlen⟩ | ⟨c₁, j, heq, hj, hbusy⟩
      · rw [heq]
        rcases ih hc₁ with ⟨c', i', heq', hc', hlen'⟩ | ⟨c', j, heq', hj, hbusy⟩
        · exact .inl ⟨c', i', heq', hc', by omega⟩
        · exact .inr ⟨c', j, heq', by omega, hbusy⟩
      · rw [heq]
        exact .inr ⟨c₁, j, rfl, by omega, hbusy⟩

omit [NeZero B] in
/-- However often the hand-over goes around, it leaves the descriptors it has passed to
    the DMA and `TxDesc` behind them. -/
theorem giveSegments_handed {r : TxRing N B} (hlink : r.Linked) (len count : Nat) (m : Nat) :
    (r.giveSegments len count m).txDesc = slot N (r.txDesc + m) ∧
    ∀ j, j < m → ((r.giveSegments len count m).desc (slot N (r.txDesc + j))).own = true := by
  induction m with
  | zero =>
      refine ⟨?_, fun j hj => absurd hj (Nat.not_lt_zero j)⟩
      rw [Nat.add_zero, slot_of_val]
      rfl
  | succ m ih =>
      rcases ih with ⟨htx, hown⟩
      have hlinked : ((r.giveSegments len count m).desc (slot N (r.txDesc + m))).next =
          slot N (r.txDesc + (m + 1)) := by
        rw [giveSegments_next]
        exact hlink _
      simp only [TxRing.giveSegments, TxRing.give, htx]
      refine ⟨hlinked, fun j hj => ?_⟩
      -- Going around, a turn may come back to a descriptor that is handed over already.
      by_cases hd : slot N (r.txDesc + j) = slot N (r.txDesc + m)
      · rw [hd, Function.update_self, giveSegment]
      · rw [Function.update_of_ne hd]
        refine hown j ?_
        rcases Nat.lt_succ_iff_lt_or_eq.mp hj with hlt | rfl
        · exact hlt
        · exact absurd rfl hd

/-- A packet that was copied has found no descriptor of the DMA on its way. -/
theorem Copying.all_free {r : TxRing N B} {i len : Nat} {c : Copy N B} (hc : Copying r i c)
    (hlen : c.framelength = len) :
    ¬ ∃ j, j < needed B len ∧ (r.desc (slot N (r.txDesc + j))).own = true := by
  rintro ⟨j, hj, hbusy⟩
  rw [lt_needed_iff, ← hlen, hc.length] at hj
  have hoff := hc.offset
  -- A descriptor with a byte of the packet is not behind the one the copy stands at.
  have hji : j ≤ i := by
    by_contra hn
    have hmul := Nat.mul_le_mul_right B (by omega : i + 1 ≤ j)
    rw [Nat.succ_mul] at hmul
    omega
  rw [hc.free j hji] at hbusy
  cases hbusy

/-- The copy loop before its first turn. -/
def copyStart (r : TxRing N B) : Copy N B :=
  { buf := r.buf, dmaTxDesc := r.txDesc, bufferoffset := 0, framelength := 0 }

omit [NeZero B] in
theorem copying_start {r : TxRing N B} (hfirst : (r.desc r.txDesc).own = false) :
    Copying r 0 (copyStart r) := by
  refine ⟨?_, Nat.zero_le B, by simp only [copyStart]; omega, fun j hj => ?_⟩
  · rw [copyStart, Nat.add_zero, slot_of_val]
  · rw [Nat.le_zero.mp hj, Nat.add_zero, slot_of_val, hfirst]

/-- A packet whose copy was stopped is reported, and the ring is as it should be. -/
theorem truthful_of_stopped {r : TxRing N B} (locked : Bool) {chain : List (List UInt8)}
    {c : Copy N B} (hc : copyChain r.desc (copyStart r) chain = (c, false)) :
    Truthful r chain (rtStm32EthTx r locked chain) := by
  have heq : rtStm32EthTx r locked chain =
      { ring := { r with buf := c.buf }, ret := .use, state := none } := by
    rw [copyStart] at hc
    simp only [rtStm32EthTx, hc, Bool.false_eq_true, if_false]
  rw [heq]
  refine ⟨by simp, by simp, fun _ => ⟨rfl, rfl⟩, fun _ d hd => ?_⟩
  have hbuf := copyChain_buf r.desc (copyStart r) chain hd
  rw [hc] at hbuf
  exact hbuf

omit [NeZero N] in
/-- A packet that was copied is reported as sent, whatever the hand-over says. -/
theorem rtStm32EthTx_copied {r : TxRing N B} (locked : Bool) {chain : List (List UInt8)}
    {c : Copy N B} (hc : copyChain r.desc (copyStart r) chain = (c, true)) :
    rtStm32EthTx r locked chain =
      { ring := (halEthTransmitFrame { r with buf := c.buf } locked c.framelength).1
        ret := .ok
        state := some (halEthTransmitFrame { r with buf := c.buf } locked c.framelength).2 } := by
  rw [copyStart] at hc
  simp only [rtStm32EthTx, hc, if_true]

omit [NeZero N] [NeZero B] in
/-- The hand-over fails for an empty packet and for a lock that is taken. -/
theorem halEthTransmitFrame_fails {r : TxRing N B} {locked : Bool} {len : Nat}
    (h : len = 0 ∨ locked = true) : (halEthTransmitFrame r locked len).2 ≠ .ok := by
  unfold halEthTransmitFrame
  rcases h with rfl | rfl
  · split
    · nofun
    · simp
  · simp

/-- In both cases the packet has not been handed over, and `ERR_OK` is returned. -/
theorem not_truthful_of_copied {r : TxRing N B} {locked : Bool} {chain : List (List UInt8)}
    {c : Copy N B} (hc : copyChain r.desc (copyStart r) chain = (c, true))
    (h : c.framelength = 0 ∨ locked = true) :
    ¬ Truthful r chain (rtStm32EthTx r locked chain) := by
  rw [rtStm32EthTx_copied locked hc]
  intro ht
  exact halEthTransmitFrame_fails h (Option.some.inj (ht.ok_iff.mp rfl))

/-- A packet that was copied and handed over. -/
theorem truthful_of_handed {r : TxRing N B} (hlink : r.Linked) {chain : List (List UInt8)}
    {c : Copy N B} (hc : copyChain r.desc (copyStart r) chain = (c, true))
    (hlen : c.framelength = chain.flatten.length) (hpos : 0 < chain.flatten.length)
    (hfirst : (r.desc r.txDesc).own = false) :
    Truthful r chain (rtStm32EthTx r false chain) := by
  have hlink' : ({ r with buf := c.buf } : TxRing N B).Linked := hlink
  rw [rtStm32EthTx_copied false hc, hlen,
    halEthTransmitFrame_eq ({ r with buf := c.buf } : TxRing N B) hpos hfirst]
  rcases giveSegments_handed hlink' chain.flatten.length (needed B chain.flatten.length)
    (needed B chain.flatten.length) with ⟨htx, hown⟩
  exact ⟨⟨fun _ => rfl, fun _ => rfl⟩, fun _ => ⟨hown, htx⟩, fun hn => absurd rfl hn,
    fun hn => absurd rfl hn⟩

/-- For every packet, every state of the ring and every value of the lock: the call
    says what has happened exactly if the packet is not empty and the lock is free or a
    needed descriptor is the DMA's, or if the packet is empty and stopped by the first
    descriptor. -/
theorem truthful_iff {r : TxRing N B} (hlink : r.Linked) (locked : Bool)
    (chain : List (List UInt8)) :
    Truthful r chain (rtStm32EthTx r locked chain) ↔
      (0 < chain.flatten.length ∧ (locked = false ∨
        ∃ i, i < needed B chain.flatten.length ∧
          (r.desc (slot N (r.txDesc + i))).own = true)) ∨
      (chain.flatten.length = 0 ∧ chain ≠ [] ∧ (r.desc r.txDesc).own = true) := by
  by_cases hnil : chain = []
  · -- No packet buffer, no test: the copy succeeds and the hand-over refuses.
    subst hnil
    have hcopy : copyChain r.desc (copyStart r) [] = (copyStart r, true) := rfl
    exact iff_of_false (not_truthful_of_copied hcopy (.inl rfl)) (by simp)
  · by_cases hfirst : (r.desc r.txDesc).own = true
    -- The very first test stops the copy.
    · have hcopy : copyChain r.desc (copyStart r) chain = (copyStart r, false) := by
        cases chain with
        | nil => exact absurd rfl hnil
        | cons payload chain =>
            rw [copyChain]
            exact if_pos hfirst
      refine iff_of_true (truthful_of_stopped locked hcopy) ?_
      by_cases hzero : chain.flatten.length = 0
      · exact .inr ⟨hzero, hnil, hfirst⟩
      · refine .inl ⟨by omega, .inr ⟨0, ?_, ?_⟩⟩
        · rw [lt_needed_iff, Nat.zero_mul]
          omega
        · rwa [Nat.add_zero, slot_of_val]
    · rw [Bool.not_eq_true] at hfirst
      rcases copyChain_result hlink chain (copying_start hfirst) with
        ⟨c, i, hcopy, hc, hlen⟩ | ⟨c, j, hcopy, hj, hbusy⟩
      · have hlen' : c.framelength = chain.flatten.length := by
          rw [hlen, copyStart, Nat.zero_add]
        have hall := hc.all_free hlen'
        -- Everything is copied, and the hand-over alone decides.
        by_cases hok : 0 < chain.flatten.length ∧ locked = false
        · rw [hok.2]
          exact iff_of_true (truthful_of_handed hlink hcopy hlen' hok.1 hfirst)
            (.inl ⟨hok.1, .inl rfl⟩)
        · refine iff_of_false (not_truthful_of_copied hcopy ?_) ?_
          · rw [hlen']
            by_cases hzero : chain.flatten.length = 0
            · exact .inl hzero
            · exact .inr (by simpa using fun hl => hok ⟨by omega, hl⟩)
          · rintro (⟨hpos, hl | hex⟩ | ⟨-, -, hown⟩)
            · exact hok ⟨hpos, hl⟩
            · exact hall hex
            · rw [hfirst] at hown
              cases hown
      · -- The copy was stopped by a descriptor the packet needs.
        have hj' : j * B < chain.flatten.length := by
          rw [copyStart, Nat.zero_add] at hj
          exact hj
        exact iff_of_true (truthful_of_stopped locked hcopy)
          (.inl ⟨by omega, .inr ⟨j, lt_needed_iff.mpr hj', hbusy⟩⟩)

/-- Three bytes that find the lock free. -/
theorem truthful_threeBytes :
    Truthful (halEthDmaTxDescListInit (blankTx 2 2)) [[1], [], [2, 3]]
      (rtStm32EthTx (halEthDmaTxDescListInit (blankTx 2 2)) false [[1], [], [2, 3]]) :=
  (truthful_iff (init_linked _) false [[1], [], [2, 3]]).mpr (.inl ⟨by decide, .inl rfl⟩)

/-- The same bytes and a lock that is taken: nothing is handed over, and the call
    returns `ERR_OK`. -/
theorem not_truthful_locked :
    (rtStm32EthTx (halEthDmaTxDescListInit (blankTx 2 2)) true [[1], [], [2, 3]]).ret = .ok ∧
    (rtStm32EthTx (halEthDmaTxDescListInit (blankTx 2 2)) true [[1], [], [2, 3]]).state =
      some .busy ∧
    ¬ Truthful (halEthDmaTxDescListInit (blankTx 2 2)) [[1], [], [2, 3]]
      (rtStm32EthTx (halEthDmaTxDescListInit (blankTx 2 2)) true [[1], [], [2, 3]]) := by
  have hlink : (halEthDmaTxDescListInit (blankTx 2 2)).Linked := init_linked _
  have hfit : [[1], [], [2, (3 : UInt8)]].flatten.length ≤ 2 * 2 := by decide
  rcases rtStm32EthTx_eq hlink true (by decide) hfit (fun _ _ => rfl) with ⟨buf, -, -, heq⟩
  rw [heq]
  refine ⟨rfl, rfl, fun h => ?_⟩
  have hstate := h.ok_iff.mp rfl
  cases hstate

end Eth

end Firmware
