import Firmware.Lib.Runs
import Firmware.Lib.Stretch

/-!
# Ethernet Reception

The receive path of `drivers/test_eth.c`: the ring of receive descriptors that the
DMA fills, `HAL_ETH_GetReceivedFrame_IT`, which looks for the end of a frame in it,
and `rt_stm32_eth_rx`, which copies the frame out and gives its descriptors back.

The driver and the DMA run at the same time, so the model takes one step for each
descriptor that is filled, looked at or given back, and a run is any sequence of
such steps. A call may therefore find only the front of a frame. It returns, and
`RxDesc`, `FSRxDesc` and `SegCount` have to carry what it has seen over to the next
call.

`Frame` is the DMA's side of the story: the bytes it was given and the descriptors
it has put them in. The lists `received`, `outcomes` and `handed` are history that
no step looks at. They record the frames that are complete, what became of each
frame the driver has taken, and the descriptors it has given back, one entry for
each time.

The length of a frame is a field of fourteen bits in the status of its last
descriptor, so a frame of `16384` bytes or more is reported with another length.
Lengths are otherwise computed as in the source: in 32 bits when the checksum is
taken off, and in 16 bits in `rt_stm32_eth_rx`.

## Main definitions

* `RxRing`: The ring and the DMA.
* `Receiver`: The ring, the DMA and the driver.
* `halEthDmaRxDescListInit`: The initial state.
* `rxStep`: One step of the driver or the DMA.
* `scanTurn`: A turn of the loop in `HAL_ETH_GetReceivedFrame_IT`.
* `copyTurn`: A turn of the copy loop in `rt_stm32_eth_rx`.
* `releaseTurn`: A turn of the loop that gives the descriptors back.
* `RxMove`: The ways a step can go.

## Theorems

* `rxStep_cases`: Every step goes one of these ways.
* `onAlloc_cases`: What an allocation leads to.
-/

namespace Firmware

namespace Eth

/-- A receive descriptor: `OWN`, `FS`, `LS` and the frame length of the status, and
    the link. -/
structure RxDesc (N : Nat) where
  own : Bool
  fs : Bool
  ls : Bool
  fl : Nat
  next : Fin N

/-- A frame, checksum included, and the descriptors the DMA has filled with it. -/
structure Frame (N : Nat) where
  data : List UInt8
  descs : List (Fin N)

/-- The variables of the copy loop: `dmarxdesc`, the descriptor that `buffer`
    belongs to, and `bufferoffset`. -/
structure Walk (N : Nat) where
  dmarxdesc : Fin N
  buffer : Fin N
  bufferoffset : Nat

/-- What a call that has found a frame returns: a chain of packet buffers, or `NULL`
    because `pbuf_alloc` failed, or because the length was zero. -/
inductive Outcome
  | returned (chain : List (List UInt8))
  | noBuffer
  | noLength

/-- Where the driver is: outside `rt_stm32_eth_rx`, before a turn of the scan, before
    `pbuf_alloc`, before a turn of the copy with the lengths of the packet buffers
    that are left and the ones that are filled, or before a turn of the release. -/
inductive RxPc (N : Nat)
  | idle
  | scan (descriptorscancounter : Nat)
  | alloc
  | copy (w : Walk N) (pbufs : List Nat) (chain : List (List UInt8))
  | release (dmarxdesc : Fin N) (i : Nat) (p : Outcome)

/-- What the driver and the DMA share, with the DMA's own state: the descriptors,
    their buffers, the DMA's current descriptor and the frame it is storing. The
    frames that are complete and the descriptors that were given back are history. -/
structure RxRing (N B : Nat) where
  desc : Fin N → RxDesc N
  buf : Fin N → Buffer UInt8 B
  dma : Fin N
  incoming : Option (Frame N)
  received : List (Frame N)
  handed : List (Fin N)

/-- The ring and the driver: `EthHandle.RxDesc`, `EthHandle.RxFrameInfos` and the
    place the driver is at. What became of the frames it has taken is history. -/
structure Receiver (N B : Nat) extends RxRing N B where
  rxDesc : Fin N
  fsRxDesc : Fin N
  segCount : Nat
  length : Nat
  buffer : Fin N
  pc : RxPc N
  outcomes : List Outcome

variable {N B : Nat}

/-- `HAL_ETH_DMARxDescListInit`. The handle is a static variable, so `SegCount`
    starts at zero; the other fields of `RxFrameInfos` do not matter. -/
def halEthDmaRxDescListInit [NeZero N] (s : Receiver N B) : Receiver N B :=
  { s with
    desc := fun i => { own := true, fs := false, ls := false, fl := 0, next := ringNext i }
    dma := slot N 0
    incoming := none
    received := []
    handed := []
    rxDesc := slot N 0
    segCount := 0
    pc := .idle
    outcomes := [] }

/-- The part of a frame that goes into its buffer `i`. -/
def chunk (B : Nat) (data : List UInt8) (i : Nat) : List UInt8 := (data.drop (i * B)).take B

/-- The while loop that fills one packet buffer, of which `left` bytes are missing,
    from the receive buffers. -/
def copyPayload [NeZero B] (desc : Fin N → RxDesc N) (buf : Fin N → Buffer UInt8 B) (w : Walk N)
    (left : Nat) : List UInt8 × Walk N :=
  if B < left + w.bufferoffset then
    -- The rest of this receive buffer, and on with the next one.
    let next := (desc w.dmarxdesc).next
    let rest := copyPayload desc buf { dmarxdesc := next, buffer := next, bufferoffset := 0 }
      (left - (B - w.bufferoffset))
    ((buf w.buffer).read w.bufferoffset (B - w.bufferoffset) ++ rest.1, rest.2)
  else
    ((buf w.buffer).read w.bufferoffset left,
      { w with bufferoffset := w.bufferoffset + left })
termination_by left + w.bufferoffset
decreasing_by
  have := Nat.pos_of_ne_zero (NeZero.ne B)
  omega

namespace RxRing

/-- The DMA puts the next part of a frame into its current descriptor. The status
    has the frame's length only in the last one. -/
def fill (r : RxRing N B) (f : Frame N) : RxRing N B :=
  let i := f.descs.length
  let last : Bool := i + 1 = needed B f.data.length
  let f' := { f with descs := f.descs ++ [r.dma] }
  { r with
    desc := Function.update r.desc r.dma
      { r.desc r.dma with
        own := false
        fs := i = 0
        ls := last
        fl := if last then f.data.length % 2 ^ 14 else (r.desc r.dma).fl }
    buf := Function.update r.buf r.dma ((r.buf r.dma).store 0 (chunk B f.data i))
    dma := (r.desc r.dma).next
    incoming := if last then none else some f'
    received := if last then r.received ++ [f'] else r.received }

/-- `dmarxdesc->Status |= ETH_DMARXDESC_OWN` -/
def handBack (r : RxRing N B) (dmarxdesc : Fin N) : RxRing N B :=
  { r with
    desc := Function.update r.desc dmarxdesc { r.desc dmarxdesc with own := true }
    handed := r.handed ++ [dmarxdesc] }

end RxRing

namespace Receiver

/-- `HAL_ETH_GetReceivedFrame_IT`: one evaluation of the loop's condition and the
    turn or the return behind it. -/
def scanTurn (s : Receiver N B) (descriptorscancounter : Nat) : Receiver N B :=
  let d := s.desc s.rxDesc
  if d.own = false ∧ descriptorscancounter < N then
    if d.fs && !d.ls then
      -- The first of several segments.
      { s with
        fsRxDesc := s.rxDesc
        segCount := 1
        rxDesc := d.next
        pc := .scan (descriptorscancounter + 1) }
    else if !d.fs && !d.ls then
      -- A segment in between.
      { s with
        segCount := s.segCount + 1
        rxDesc := d.next
        pc := .scan (descriptorscancounter + 1) }
    else
      -- The last segment, which may be the first as well.
      let first := if s.segCount + 1 = 1 then s.rxDesc else s.fsRxDesc
      { s with
        segCount := s.segCount + 1
        fsRxDesc := first
        length := (d.fl + 2 ^ 32 - 4) % 2 ^ 32
        buffer := first
        rxDesc := d.next
        pc := .alloc }
  else
    -- `HAL_ERROR`, and `rt_stm32_eth_rx` returns `NULL`.
    { s with pc := .idle }

/-- The call of `pbuf_alloc` and its result, the lengths of a chain or `NULL`. The
    lengths of a chain add up to the one asked for. -/
def onAlloc (s : Receiver N B) (chain : Option (List Nat)) : Option (Receiver N B) :=
  let len := s.length % 2 ^ 16
  if 0 < len then
    match chain with
    | none => some { s with pc := .release s.fsRxDesc 0 .noBuffer }
    | some pbufs =>
        if pbufs.sum = len then
          some { s with
            pc :=
              .copy { dmarxdesc := s.fsRxDesc, buffer := s.buffer, bufferoffset := 0 } pbufs [] }
        else none
  else some { s with pc := .release s.fsRxDesc 0 .noLength }

/-- A turn of the loop over the packet buffers, or its end. -/
def copyTurn [NeZero B] (s : Receiver N B) (w : Walk N) (pbufs : List Nat)
    (chain : List (List UInt8)) : Receiver N B :=
  match pbufs with
  | [] => { s with pc := .release s.fsRxDesc 0 (.returned chain) }
  | len :: pbufs =>
      let copied := copyPayload s.desc s.buf w len
      { s with pc := .copy copied.2 pbufs (chain ++ [copied.1]) }

/-- A turn of the loop that gives the descriptors back, or its end and the return. -/
def releaseTurn (s : Receiver N B) (dmarxdesc : Fin N) (i : Nat) (p : Outcome) : Receiver N B :=
  if i < s.segCount then
    { s with
      toRxRing := s.toRxRing.handBack dmarxdesc
      pc := .release (s.desc dmarxdesc).next (i + 1) p }
  else
    { s with segCount := 0, pc := .idle, outcomes := s.outcomes ++ [p] }

end Receiver

/-- What can happen: the DMA starts to store a frame, it fills a descriptor,
    `rt_stm32_eth_rx` is called with the lock free, or the call takes a step. -/
inductive RxEvent
  | frame (data : List UInt8)
  | fill
  | call
  | scan
  | alloc (chain : Option (List Nat))
  | copy
  | release

/-- The receiver after an event, if the event can happen. A frame has more than a
    checksum and fits into the ring, and the DMA fills only descriptors it owns. -/
def rxStep [NeZero B] (s : Receiver N B) : RxEvent → Option (Receiver N B)
  | .frame data =>
      if s.incoming.isNone ∧ 4 < data.length ∧ data.length ≤ N * B then
        some { s with incoming := some { data := data, descs := [] } }
      else none
  | .fill =>
      match s.incoming with
      | some f => if (s.desc s.dma).own then some { s with toRxRing := s.toRxRing.fill f } else none
      | none => none
  | .call =>
      match s.pc with
      | .idle => some { s with pc := .scan 0 }
      | _ => none
  | .scan =>
      match s.pc with
      | .scan c => some (s.scanTurn c)
      | _ => none
  | .alloc chain =>
      match s.pc with
      | .alloc => s.onAlloc chain
      | _ => none
  | .copy =>
      match s.pc with
      | .copy w pbufs chain => some (s.copyTurn w pbufs chain)
      | _ => none
  | .release =>
      match s.pc with
      | .release d i p => some (s.releaseTurn d i p)
      | _ => none

/-- The ways a step can go. -/
inductive RxMove [NeZero B] (s : Receiver N B) : RxEvent → Receiver N B → Prop
  | frame {data : List UInt8} (hnone : s.incoming = none) (hmin : 4 < data.length)
      (hmax : data.length ≤ N * B) :
      RxMove s (.frame data) { s with incoming := some { data := data, descs := [] } }
  | fill {f : Frame N} (hin : s.incoming = some f) (hown : (s.desc s.dma).own = true) :
      RxMove s .fill { s with toRxRing := s.toRxRing.fill f }
  | call (hpc : s.pc = .idle) : RxMove s .call { s with pc := .scan 0 }
  | scan {c : Nat} (hpc : s.pc = .scan c) : RxMove s .scan (s.scanTurn c)
  | alloc {chain : Option (List Nat)} {s' : Receiver N B} (hpc : s.pc = .alloc)
      (h : s.onAlloc chain = some s') : RxMove s (.alloc chain) s'
  | copy {w : Walk N} {pbufs : List Nat} {chain : List (List UInt8)}
      (hpc : s.pc = .copy w pbufs chain) : RxMove s .copy (s.copyTurn w pbufs chain)
  | release {d : Fin N} {i : Nat} {p : Outcome} (hpc : s.pc = .release d i p) :
      RxMove s .release (s.releaseTurn d i p)

variable [NeZero B] {s s' : Receiver N B}

theorem rxStep_cases {e : RxEvent} (hs : rxStep s e = some s') : RxMove s e s' := by
  cases e with
  | frame data =>
      rw [rxStep] at hs
      by_cases hok : s.incoming.isNone ∧ 4 < data.length ∧ data.length ≤ N * B
      · rw [if_pos hok] at hs
        rw [← Option.some.inj hs]
        exact .frame (Option.isNone_iff_eq_none.mp hok.1) hok.2.1 hok.2.2
      · rw [if_neg hok] at hs
        cases hs
  | fill =>
      rw [rxStep] at hs
      cases hin : s.incoming with
      | none =>
          rw [hin] at hs
          cases hs
      | some f =>
          rw [hin] at hs
          by_cases hown : (s.desc s.dma).own = true
          · simp only [hown, if_true] at hs
            rw [← Option.some.inj hs]
            exact .fill hin hown
          · simp only [hown, if_false, Bool.false_eq_true, reduceCtorEq] at hs
  | call =>
      rw [rxStep] at hs
      cases hpc : s.pc with
      | idle =>
          rw [hpc] at hs
          rw [← Option.some.inj hs]
          exact .call hpc
      | _ =>
          rw [hpc] at hs
          cases hs
  | scan =>
      rw [rxStep] at hs
      cases hpc : s.pc with
      | scan c =>
          rw [hpc] at hs
          rw [← Option.some.inj hs]
          exact .scan hpc
      | _ =>
          rw [hpc] at hs
          cases hs
  | alloc chain =>
      rw [rxStep] at hs
      cases hpc : s.pc with
      | alloc =>
          rw [hpc] at hs
          exact .alloc hpc hs
      | _ =>
          rw [hpc] at hs
          cases hs
  | copy =>
      rw [rxStep] at hs
      cases hpc : s.pc with
      | copy w pbufs chain =>
          rw [hpc] at hs
          rw [← Option.some.inj hs]
          exact .copy hpc
      | _ =>
          rw [hpc] at hs
          cases hs
  | release =>
      rw [rxStep] at hs
      cases hpc : s.pc with
      | release d i p =>
          rw [hpc] at hs
          rw [← Option.some.inj hs]
          exact .release hpc
      | _ =>
          rw [hpc] at hs
          cases hs

omit [NeZero B] in
/-- Looking at a descriptor does not change the ring. -/
theorem scanTurn_ring (s : Receiver N B) (c : Nat) :
    (s.scanTurn c).toRxRing = s.toRxRing := by
  unfold Receiver.scanTurn
  simp only
  split_ifs <;> rfl

omit [NeZero B] in
/-- A turn of the scan goes on, finds a frame, or gives up. -/
theorem scanTurn_pc (s : Receiver N B) (c : Nat) :
    (s.scanTurn c).pc = .scan (c + 1) ∨ (s.scanTurn c).pc = .alloc ∨
      (s.scanTurn c).pc = .idle ∧ ((s.desc s.rxDesc).own = true ∨ N ≤ c) := by
  -- The loop goes on while the CPU owns the descriptor and not all have been seen.
  by_cases hlook : (s.desc s.rxDesc).own = false ∧ c < N
  · simp only [Receiver.scanTurn, if_pos hlook]
    by_cases hfirst : ((s.desc s.rxDesc).fs && !(s.desc s.rxDesc).ls) = true
    · rw [if_pos hfirst]
      exact .inl rfl
    · rw [if_neg hfirst]
      by_cases hbetween : (!(s.desc s.rxDesc).fs && !(s.desc s.rxDesc).ls) = true
      · rw [if_pos hbetween]
        exact .inl rfl
      · rw [if_neg hbetween]
        exact .inr (.inl rfl)
  · simp only [Receiver.scanTurn, if_neg hlook]
    refine .inr (.inr ⟨trivial, ?_⟩)
    by_cases hown : (s.desc s.rxDesc).own = true
    · exact .inl hown
    · exact .inr (Nat.le_of_not_lt fun hlt => hlook ⟨Bool.eq_false_iff.mpr hown, hlt⟩)

omit [NeZero B] in
theorem scanTurn_outcomes (s : Receiver N B) (c : Nat) :
    (s.scanTurn c).outcomes = s.outcomes := by
  unfold Receiver.scanTurn
  simp only
  split_ifs <;> rfl

omit [NeZero B] in
/-- The allocation leads to the copy of a chain of the right length, or to the
    release. Neither changes the ring. -/
theorem onAlloc_cases {chain : Option (List Nat)} (h : s.onAlloc chain = some s') :
    (∃ pbufs, chain = some pbufs ∧ 0 < s.length % 2 ^ 16 ∧ pbufs.sum = s.length % 2 ^ 16 ∧
      s' = { s with
        pc := .copy { dmarxdesc := s.fsRxDesc, buffer := s.buffer, bufferoffset := 0 } pbufs [] }) ∨
    (chain = none ∧ 0 < s.length % 2 ^ 16 ∧
      s' = { s with pc := .release s.fsRxDesc 0 .noBuffer }) ∨
    (s.length % 2 ^ 16 = 0 ∧ s' = { s with pc := .release s.fsRxDesc 0 .noLength }) := by
  simp only [Receiver.onAlloc] at h
  by_cases hpos : 0 < s.length % 2 ^ 16
  · rw [if_pos hpos] at h
    -- The code allocates only for a length other than zero.
    cases chain with
    | none => exact .inr (.inl ⟨rfl, hpos, (Option.some.inj h).symm⟩)
    | some pbufs =>
        by_cases hsum : pbufs.sum = s.length % 2 ^ 16
        · simp only [hsum, if_true] at h
          exact .inl ⟨pbufs, rfl, hpos, hsum, (Option.some.inj h).symm⟩
        · simp only [if_neg hsum, reduceCtorEq] at h
  · rw [if_neg hpos] at h
    exact .inr (.inr ⟨by omega, (Option.some.inj h).symm⟩)

theorem copyTurn_ring (s : Receiver N B) (w : Walk N) (pbufs : List Nat)
    (chain : List (List UInt8)) : (s.copyTurn w pbufs chain).toRxRing = s.toRxRing := by
  cases pbufs <;> rfl

end Eth

end Firmware
