import Firmware.Eth.Receive

/-!
# Received Frames

Every frame that arrives is returned once, in order, and its descriptors are given
back once, whatever the DMA does while the driver is at work.

Positions on the ring make the invariant readable. The DMA has filled the positions
below `filled`, in order, and the driver has given back the ones below
`handed.length`. Between the two lie the descriptors that hold frames, which the
driver owns; from `filled` on, up to a turn behind the last one given back, lie the
ones the DMA owns. `RingInv` says this, and what the filled descriptors hold. It
does not mention the driver, and each of the three ways the ring changes keeps it.

`Phase` is what the driver knows. Between calls and during a scan it has looked at
`segCount` descriptors of the frame that is next, none of them the last one
(`Seen`); after the scan it has the whole frame (`Found`); the copy has the front of
the payload; and the release has given back a part of the descriptors.

That a frame may be dropped for want of memory must not become an excuse. `allocated` is
the list of what `pbuf_alloc` has returned in a run, read off its events and not off the
driver, and `Accounted` keeps it in step with the calls: call `k` has returned `NULL`
because allocation `k` did, and a chain of the lengths that allocation `k` had.

## Main definitions

* `RingInv`: The ring holds the frames that have not been given back.
* `Phase`: What the driver knows at each point.
* `allocated`: What `pbuf_alloc` has returned.
* `Delivered`: What becomes of a frame, given what `pbuf_alloc` returned for it.
* `Exact`: The frames so far have been treated as they should be.

## Theorems

* `RingInv.fill`: Filling a descriptor keeps the ring's invariant.
* `RingInv.handBack`: So does giving one back.
* `copyPayload_spec`: The copy loop reads the frame on.
* `scanTurn_inv`: A turn of the scan.
* `inv_step`: Every step keeps the invariant.
* `accounted_step`: Every step keeps the account of the allocations.
* `run_exact`: In every run the frames are treated exactly.
-/

namespace Firmware

namespace Eth

variable {N B : Nat}

/-- The position at which frame `k` starts. -/
def start (fs : List (Frame N)) (k : Nat) : Nat := ((fs.take k).flatMap Frame.descs).length

theorem start_append {fs gs : List (Frame N)} {k : Nat} (h : k ≤ fs.length) :
    start (fs ++ gs) k = start fs k := by
  rw [start, List.take_append_of_le_length h, start]

theorem start_length (fs : List (Frame N)) :
    start fs fs.length = (fs.flatMap Frame.descs).length := by
  rw [start, List.take_length]

theorem start_succ {fs : List (Frame N)} {k : Nat} {f : Frame N} (h : fs[k]? = some f) :
    start fs (k + 1) = start fs k + f.descs.length := by
  rw [start, List.take_add_one, h, List.flatMap_append, List.length_append, start]
  simp only [Option.toList_some, List.flatMap_singleton]

theorem start_le (fs : List (Frame N)) (k : Nat) :
    start fs k ≤ (fs.flatMap Frame.descs).length := by
  conv_rhs => rw [← List.take_append_drop k fs, List.flatMap_append, List.length_append]
  exact Nat.le_add_right _ _

/-- A frame ends where the filled descriptors end, or before. -/
theorem start_add_le {fs : List (Frame N)} {k : Nat} {f : Frame N} (h : fs[k]? = some f) :
    start fs k + f.descs.length ≤ (fs.flatMap Frame.descs).length := by
  rw [← start_succ h]
  exact start_le fs (k + 1)

namespace RxRing

/-- The frames the DMA has stored, the last one perhaps only in part. -/
def frames (r : RxRing N B) : List (Frame N) := r.received ++ r.incoming.toList

/-- The position the DMA is at. -/
def filled (r : RxRing N B) : Nat := (r.frames.flatMap Frame.descs).length

/-- A frame in the ring is one of the complete ones or the one that is coming in. -/
theorem frames_cases {r : RxRing N B} {k : Nat} {f : Frame N} (h : r.frames[k]? = some f) :
    r.received[k]? = some f ∨ k = r.received.length ∧ r.incoming = some f := by
  rw [frames, List.getElem?_append] at h
  by_cases hk : k < r.received.length
  · rw [if_pos hk] at h
    exact .inl h
  · rw [if_neg hk] at h
    have hmem := List.mem_of_getElem? h
    have hlt := (List.getElem?_eq_some_iff.mp h).1
    rw [Option.mem_toList] at hmem
    rw [hmem, Option.toList_some, List.length_singleton] at hlt
    exact .inr ⟨by omega, hmem⟩

theorem le_of_frames {r : RxRing N B} {k : Nat} {f : Frame N} (h : r.frames[k]? = some f) :
    k ≤ r.received.length := by
  rcases frames_cases h with hrec | ⟨hlast, -⟩
  · exact Nat.le_of_lt (List.getElem?_eq_some_iff.mp hrec).1
  · exact Nat.le_of_eq hlast

/-- The parts of a frame lie below the position the DMA is at. -/
theorem start_add_lt {r : RxRing N B} {k i : Nat} {f : Frame N} (h : r.frames[k]? = some f)
    (hi : i < f.descs.length) : start r.received k + i < r.filled := by
  have hle := start_add_le h
  rw [frames, start_append (le_of_frames h)] at hle
  exact Nat.lt_of_lt_of_le (by omega) hle

theorem frames_of_received {r : RxRing N B} {k : Nat} {f : Frame N}
    (h : r.received[k]? = some f) : r.frames[k]? = some f := by
  have hlt := (List.getElem?_eq_some_iff.mp h).1
  rw [frames, List.getElem?_append, if_pos hlt, h]

theorem frames_of_incoming {r : RxRing N B} {f : Frame N} (h : r.incoming = some f) :
    r.frames = r.received ++ [f] := by
  rw [frames, h, Option.toList_some]

theorem filled_eq (r : RxRing N B) :
    r.filled = start r.received r.received.length +
      (r.incoming.toList.flatMap Frame.descs).length := by
  rw [filled, frames, List.flatMap_append, List.length_append, start_length]

end RxRing

/-- The descriptor at a position holds part `i` of a frame. -/
structure Carries [NeZero N] (r : RxRing N B) (pos : Nat) (bytes : List UInt8) (i : Nat) :
    Prop where
  fs : (r.desc (slot N pos)).fs = decide (i = 0)
  ls : (r.desc (slot N pos)).ls = decide (i + 1 = needed B bytes.length)
  fl : i + 1 = needed B bytes.length → (r.desc (slot N pos)).fl = bytes.length % 2 ^ 14
  data : (r.buf (slot N pos)).Holds 0 (chunk B bytes i)

/-- The ring holds what the DMA has filled and the driver has not given back. -/
structure RingInv [NeZero N] (r : RxRing N B) : Prop where
  linked : Chained fun i => (r.desc i).next
  sized : ∀ f ∈ r.frames, 4 < f.data.length ∧ f.data.length ≤ N * B
  full : ∀ f ∈ r.received, f.descs.length = needed B f.data.length
  part : ∀ f, r.incoming = some f → f.descs.length < needed B f.data.length
  order : r.frames.flatMap Frame.descs = (List.range r.filled).map (slot N)
  dma : r.dma = slot N r.filled
  handed : r.handed = (List.range r.handed.length).map (slot N)
  handed_le : r.handed.length ≤ r.filled
  filled_le : r.filled ≤ r.handed.length + N
  owned : ∀ pos, r.filled ≤ pos → pos < r.handed.length + N → (r.desc (slot N pos)).own = true
  held : ∀ pos, r.handed.length ≤ pos → pos < r.filled → (r.desc (slot N pos)).own = false
  carries : ∀ k f i, r.frames[k]? = some f → i < f.descs.length →
    r.handed.length ≤ start r.received k + i → Carries r (start r.received k + i) f.data i

section Ring

variable [NeZero N] {r : RxRing N B}

/-- A new frame has no descriptor yet. -/
theorem RingInv.frame (h : RingInv r) (hnone : r.incoming = none) {data : List UInt8}
    (hmin : 4 < data.length) (hmax : data.length ≤ N * B) [NeZero B] :
    RingInv { r with incoming := some { data := data, descs := [] } } := by
  have hframes : ({ r with incoming := some { data := data, descs := [] } } : RxRing N B).frames =
      r.frames ++ [{ data := data, descs := [] }] := by
    simp only [RxRing.frames, hnone, Option.toList_none, Option.toList_some, List.append_nil]
  have hfilled : ({ r with incoming := some { data := data, descs := [] } } : RxRing N B).filled =
      r.filled := by
    rw [RxRing.filled, hframes, List.flatMap_append, List.flatMap_singleton, List.append_nil,
      RxRing.filled]
  -- The window of filled descriptors is the same, so most of the invariant is too.
  refine ⟨h.linked, ?_, h.full, ?_, ?_, ?_, h.handed, ?_, ?_, ?_, ?_, ?_⟩
  · intro f hf
    rw [hframes, List.mem_append, List.mem_singleton] at hf
    rcases hf with hf | rfl
    · exact h.sized f hf
    · exact ⟨hmin, hmax⟩
  · intro f hf
    rw [← Option.some.inj hf]
    rcases exists_needed (m := B) (by omega : 0 < data.length) with ⟨c, hc, -, -⟩
    simp only [List.length_nil]
    omega
  · rw [hframes, hfilled, List.flatMap_append, List.flatMap_singleton, List.append_nil, h.order]
  · rw [hfilled]
    exact h.dma
  · rw [hfilled]
    exact h.handed_le
  · rw [hfilled]
    exact h.filled_le
  · rw [hfilled]
    exact h.owned
  · rw [hfilled]
    exact h.held
  · intro k f i hk hi hle
    rcases RxRing.frames_cases hk with hrec | ⟨-, hin⟩
    · have hc := h.carries k f i (RxRing.frames_of_received hrec) hi hle
      exact ⟨hc.fs, hc.ls, hc.fl, hc.data⟩
    · rw [← Option.some.inj hin] at hi
      exact absurd hi (Nat.not_lt_zero i)

/-- A descriptor of another position in the window is not written to. -/
theorem Carries.update {pos at' i k : Nat} {bytes : List UInt8} (hc : Carries r pos bytes i)
    (hp : k ≤ pos) (hp' : pos < k + N) (ha : k ≤ at') (ha' : at' < k + N) (hne : at' ≠ pos)
    {r' : RxRing N B} {d : RxDesc N} {b : Buffer UInt8 B}
    (hdesc : r'.desc = Function.update r.desc (slot N at') d)
    (hbuf : r'.buf = Function.update r.buf (slot N at') b) : Carries r' pos bytes i := by
  have hd : r'.desc (slot N pos) = r.desc (slot N pos) := by
    rw [hdesc, update_slot_ne ha ha' hp hp' hne]
  have hb : r'.buf (slot N pos) = r.buf (slot N pos) := by
    rw [hbuf, update_slot_ne ha ha' hp hp' hne]
  refine ⟨?_, ?_, ?_, ?_⟩
  · rw [hd, hc.fs]
  · rw [hd, hc.ls]
  · rw [hd]
    exact hc.fl
  · rw [hb]
    exact hc.data

omit [NeZero N] in
theorem frames_fill (r : RxRing N B) (f : Frame N) :
    (r.fill f).frames = r.received ++ [{ f with descs := f.descs ++ [r.dma] }] := by
  by_cases hlast : f.descs.length + 1 = needed B f.data.length
  · simp only [RxRing.frames, RxRing.fill, hlast, decide_true, if_true, Option.toList_none,
      List.append_nil]
  · simp only [RxRing.frames, RxRing.fill, hlast, decide_false, Bool.false_eq_true, if_false,
      Option.toList_some]

omit [NeZero N] in
theorem received_fill (r : RxRing N B) (f : Frame N) :
    (r.fill f).received = r.received ∧ f.descs.length + 1 ≠ needed B f.data.length ∨
      (r.fill f).received = r.received ++ [{ f with descs := f.descs ++ [r.dma] }] ∧
        f.descs.length + 1 = needed B f.data.length := by
  by_cases hlast : f.descs.length + 1 = needed B f.data.length
  · exact .inr ⟨by simp only [RxRing.fill, hlast, decide_true, if_true], hlast⟩
  · exact .inl ⟨by simp only [RxRing.fill, hlast, decide_false, Bool.false_eq_true, if_false],
      hlast⟩

omit [NeZero N] in
theorem filled_fill {f : Frame N} (hin : r.incoming = some f) :
    (r.fill f).filled = r.filled + 1 := by
  rw [RxRing.filled, frames_fill, RxRing.filled, RxRing.frames_of_incoming hin]
  simp only [List.flatMap_append, List.flatMap_singleton, List.length_append, List.length_singleton]
  omega

omit [NeZero N] in
/-- The frames that were complete before still start where they did. -/
theorem start_fill (r : RxRing N B) (f : Frame N) {k : Nat} (hk : k ≤ r.received.length) :
    start (r.fill f).received k = start r.received k := by
  rcases received_fill r f with ⟨heq, -⟩ | ⟨heq, -⟩
  · rw [heq]
  · rw [heq, start_append hk]

omit [NeZero N] in
theorem linked_update (f : RxRing N B) (d : Fin N) (x : RxDesc N) (hx : x.next = (f.desc d).next)
    (i : Fin N) : (Function.update f.desc d x i).next = (f.desc i).next := by
  by_cases hi : i = d
  · rw [hi, Function.update_self, hx]
  · rw [Function.update_of_ne hi]

/-- There is room for the descriptor the DMA fills: were the ring full, the
    descriptor would be the oldest one that is held. -/
theorem RingInv.lt_of_own (h : RingInv r) (hown : (r.desc r.dma).own = true) :
    r.filled < r.handed.length + N := by
  have hle := h.filled_le
  by_contra hc
  have hfull : r.filled = r.handed.length + N := by omega
  have hpos := Nat.pos_of_ne_zero (NeZero.ne N)
  have hheld := h.held r.handed.length (Nat.le_refl _) (by omega)
  rw [h.dma, hfull, slot_add_self, hheld] at hown
  exact absurd hown Bool.false_ne_true

/-- Part `i` of a frame fits into a buffer. -/
theorem chunk_length_le (data : List UInt8) (i : Nat) : (chunk B data i).length ≤ B :=
  List.length_take_le _ _

/-- The descriptor that is filled holds its part. -/
theorem carries_fill (h : RingInv r) (f : Frame N) :
    Carries (r.fill f) r.filled f.data f.descs.length := by
  have hdma := h.dma
  refine ⟨?_, ?_, ?_, ?_⟩
  · simp only [RxRing.fill, hdma, Function.update_self]
  · simp only [RxRing.fill, hdma, Function.update_self]
  · intro hlast
    simp only [RxRing.fill, hdma, Function.update_self, hlast, decide_true, if_true]
  · simp only [RxRing.fill, hdma, Function.update_self]
    exact Buffer.holds_store _ 0 _ (by rw [Nat.zero_add]; exact chunk_length_le _ _)

/-- Filling a descriptor that the DMA owns. -/
theorem RingInv.fill (h : RingInv r) {f : Frame N} (hin : r.incoming = some f)
    (hown : (r.desc r.dma).own = true) : RingInv (r.fill f) := by
  have hlt := h.lt_of_own hown
  have hle := h.handed_le
  have hdma := h.dma
  have hpart := h.part f hin
  have hframes := RxRing.frames_of_incoming hin
  have hlen := filled_fill hin
  have hmem : f ∈ r.frames := by
    rw [hframes]
    exact List.mem_append_right _ (List.mem_singleton_self f)
  refine ⟨?_, ?_, ?_, ?_, ?_, ?_, h.handed, ?_, ?_, ?_, ?_, ?_⟩
  · intro k
    rw [← h.linked]
    refine linked_update r r.dma _ ?_ _
    rfl
  · intro g hg
    rw [frames_fill, List.mem_append, List.mem_singleton] at hg
    rcases hg with hg | rfl
    · exact h.sized g (by rw [hframes]; exact List.mem_append_left _ hg)
    · exact h.sized f hmem
  · intro g hg
    rcases received_fill r f with ⟨heq, -⟩ | ⟨heq, hlast⟩
    · rw [heq] at hg
      exact h.full g hg
    · rw [heq, List.mem_append, List.mem_singleton] at hg
      rcases hg with hg | rfl
      · exact h.full g hg
      · rw [List.length_append, List.length_singleton]
        exact hlast
  · -- A frame that is still coming in has not got its last part.
    intro g hg
    by_cases hlast : f.descs.length + 1 = needed B f.data.length
    · simp only [RxRing.fill, hlast, decide_true, if_true, reduceCtorEq] at hg
    · simp only [RxRing.fill, hlast, decide_false, Bool.false_eq_true, if_false,
        Option.some.injEq] at hg
      rw [← hg]
      simp only [List.length_append, List.length_singleton]
      omega
  · -- The descriptor that is filled is the next one in ring order.
    have horder := h.order
    rw [hframes, List.flatMap_append, List.flatMap_singleton] at horder
    rw [frames_fill, hlen, List.flatMap_append, List.flatMap_singleton, ← List.append_assoc,
      horder, List.range_succ, List.map_append, List.map_singleton, hdma]
  · rw [hlen, ← h.linked, ← hdma]
    rfl
  · rw [hlen]
    exact Nat.le_succ_of_le hle
  · rw [hlen]
    exact hlt
  · -- No position in the window shares its descriptor with the one that is filled.
    intro pos hge hpos
    rw [hlen] at hge
    have hne : (r.fill f).desc (slot N pos) = r.desc (slot N pos) := by
      simp only [RxRing.fill, hdma]
      exact update_slot_ne hle hlt (by omega) hpos (by omega)
    rw [hne]
    exact h.owned pos (by omega) hpos
  · intro pos hge hpos
    rw [hlen] at hpos
    by_cases heq : pos = r.filled
    · simp only [RxRing.fill, hdma, heq, Function.update_self]
    · have hne : (r.fill f).desc (slot N pos) = r.desc (slot N pos) := by
        simp only [RxRing.fill, hdma]
        exact update_slot_ne hle hlt hge (by have := h.filled_le; omega) (by omega)
      rw [hne]
      exact h.held pos hge (by omega)
  · intro k g i hk hi hge
    have hkle : k ≤ r.received.length := by
      have := (List.getElem?_eq_some_iff.mp hk).1
      rw [frames_fill, List.length_append, List.length_singleton] at this
      omega
    rw [start_fill r f hkle] at hge ⊢
    have hge' : r.handed.length ≤ start r.received k + i := hge
    have hdesc : (r.fill f).desc = Function.update r.desc (slot N r.filled)
      ((r.fill f).desc r.dma) := by
      simp only [RxRing.fill, hdma, Function.update_self]
    have hbuf : (r.fill f).buf =
        Function.update r.buf (slot N r.filled) ((r.fill f).buf r.dma) := by
      simp only [RxRing.fill, hdma, Function.update_self]
    -- What was filled before lies before the descriptor that is filled now.
    have hold : ∀ g', r.frames[k]? = some g' → i < g'.descs.length →
        Carries (r.fill f) (start r.received k + i) g'.data i := by
      intro g' hg' hi'
      have hbefore := RxRing.start_add_lt hg' hi'
      exact (h.carries k g' i hg' hi' hge').update hge' (by omega) hle hlt (by omega) hdesc hbuf
    rw [frames_fill, List.getElem?_append] at hk
    by_cases hrec : k < r.received.length
    · rw [if_pos hrec] at hk
      exact hold g (RxRing.frames_of_received hk) hi
    · have hlast : k = r.received.length := by omega
      rw [if_neg hrec, hlast, Nat.sub_self, List.getElem?_cons_zero, Option.some.injEq] at hk
      rw [← hk, List.length_append, List.length_singleton] at hi
      rw [← hk]
      -- The frame that is coming in has one new part, the rest was there.
      by_cases hnew : i = f.descs.length
      · have hpos : start r.received k + i = r.filled := by
          rw [RxRing.filled_eq, hin, hlast, hnew, Option.toList_some, List.flatMap_singleton]
        rw [hpos, hnew]
        exact carries_fill h f
      · refine hold f ?_ (by omega)
        rw [hframes, List.getElem?_append, if_neg hrec, hlast, Nat.sub_self,
          List.getElem?_cons_zero]

/-- Giving back the oldest descriptor that is held. -/
theorem RingInv.handBack (h : RingInv r) (hlt : r.handed.length < r.filled) :
    RingInv (r.handBack (slot N r.handed.length)) := by
  have hle := h.filled_le
  have hlen : (r.handBack (slot N r.handed.length)).handed.length = r.handed.length + 1 := by
    rw [RxRing.handBack, List.length_append, List.length_singleton]
  have hother : ∀ pos, r.handed.length + 1 ≤ pos → pos < r.handed.length + N →
      (r.handBack (slot N r.handed.length)).desc (slot N pos) = r.desc (slot N pos) := by
    intro pos hge hpos
    exact update_slot_ne (Nat.le_refl _) (by omega) (by omega) hpos (by omega)
  refine ⟨?_, h.sized, h.full, h.part, h.order, h.dma, ?_, ?_, ?_, ?_, ?_, ?_⟩
  · intro k
    rw [← h.linked]
    refine linked_update r (slot N r.handed.length) _ ?_ _
    rfl
  · rw [hlen, List.range_succ, List.map_append, List.map_singleton, ← h.handed]
    rfl
  · rw [hlen]
    exact hlt
  · rw [hlen]
    exact Nat.le_succ_of_le hle |>.trans_eq (by omega)
  · intro pos hge hpos
    rw [hlen] at hpos
    have hge' : r.filled ≤ pos := hge
    by_cases heq : pos = r.handed.length + N
    · -- The descriptor comes again a turn later, and now it is the DMA's.
      rw [heq, slot_add_self]
      simp only [RxRing.handBack, Function.update_self]
    · rw [hother pos (by omega) (by omega)]
      exact h.owned pos hge (by omega)
  · intro pos hge hpos
    rw [hlen] at hge
    have hpos' : pos < r.filled := hpos
    rw [hother pos hge (by omega)]
    exact h.held pos (by omega) hpos
  · intro k f i hk hi hge
    rw [hlen] at hge
    have hge' : r.handed.length + 1 ≤ start r.received k + i := hge
    have hbefore : start r.received k + i < r.filled :=
      RxRing.start_add_lt (r := r) hk hi
    have hc := h.carries k f i hk hi (by omega)
    have hsame := hother (start r.received k + i) hge' (by omega)
    refine ⟨?_, ?_, ?_, hc.data⟩
    · exact (congrArg RxDesc.fs hsame).trans hc.fs
    · exact (congrArg RxDesc.ls hsame).trans hc.ls
    · intro hlast
      exact (congrArg RxDesc.fl hsame).trans (hc.fl hlast)

end Ring

section Copy

variable [NeZero N] [NeZero B]

/-- A complete frame that has not been given back is laid out in the ring. -/
theorem stretch_frame {r : RxRing N B} (h : RingInv r) {k : Nat} {f : Frame N}
    (hk : r.received[k]? = some f) (hge : r.handed.length ≤ start r.received k) :
    stretch r.buf (start r.received k) f.data.length = f.data := by
  have hframe := RxRing.frames_of_received hk
  have hfull := h.full f (List.mem_of_getElem? hk)
  refine stretch_of_holds _ _ (c := needed B f.data.length) ?_ ?_
  · intro i hi
    exact (h.carries k f i hframe (by omega) (by omega)).data
  · have hpos := (h.sized f (List.mem_of_getElem? hframe)).1
    rcases exists_needed (m := B) (by omega : 0 < f.data.length) with ⟨c, hc, -, hle⟩
    rw [hc, Nat.succ_mul]
    exact hle

/-- The copy is at buffer `i` of a frame that starts at `k`. -/
structure Walk.At (k i : Nat) (B : Nat) (w : Walk N) : Prop where
  dmarxdesc : w.dmarxdesc = slot N (k + i)
  buffer : w.buffer = slot N (k + i)
  le : w.bufferoffset ≤ B

omit [NeZero N] in
theorem copyPayload_fits (desc : Fin N → RxDesc N) (buf : Fin N → Buffer UInt8 B) (w : Walk N)
    {left : Nat} (h : w.bufferoffset + left ≤ B) :
    copyPayload desc buf w left = ((buf w.buffer).read w.bufferoffset left,
      { w with bufferoffset := w.bufferoffset + left }) := by
  rw [copyPayload, if_neg (by omega)]

omit [NeZero N] in
theorem copyPayload_next (desc : Fin N → RxDesc N) (buf : Fin N → Buffer UInt8 B) (w : Walk N)
    {left : Nat} (h : B < w.bufferoffset + left) :
    copyPayload desc buf w left =
      let next := (desc w.dmarxdesc).next
      let rest := copyPayload desc buf { dmarxdesc := next, buffer := next, bufferoffset := 0 }
        (left - (B - w.bufferoffset))
      ((buf w.buffer).read w.bufferoffset (B - w.bufferoffset) ++ rest.1, rest.2) := by
  rw [copyPayload, if_pos (by omega)]

omit [NeZero N] in
/-- One packet buffer is filled, whatever is in the ring. -/
theorem copyPayload_length (desc : Fin N → RxDesc N) (buf : Fin N → Buffer UInt8 B) (w : Walk N)
    (left : Nat) (h : w.bufferoffset ≤ B) :
    (copyPayload desc buf w left).1.length = left ∧
      (copyPayload desc buf w left).2.bufferoffset ≤ B := by
  by_cases hle : w.bufferoffset + left ≤ B
  · rw [copyPayload_fits _ _ _ hle]
    exact ⟨Buffer.read_length _ _ _ hle, hle⟩
  · rcases copyPayload_length desc buf
      { dmarxdesc := (desc w.dmarxdesc).next, buffer := (desc w.dmarxdesc).next
        bufferoffset := 0 } (left - (B - w.bufferoffset)) (Nat.zero_le B) with ⟨hrest, hoff⟩
    rw [copyPayload_next _ _ _ (by omega)]
    refine ⟨?_, hoff⟩
    simp only [List.length_append, hrest]
    rw [Buffer.read_length _ _ _ (by omega)]
    omega
termination_by left + w.bufferoffset
decreasing_by
  have := Nat.pos_of_ne_zero (NeZero.ne B)
  omega

/-- One packet buffer gets the next bytes of the frame, wherever it starts. -/
theorem copyPayload_spec {desc : Fin N → RxDesc N} (hlink : Chained fun i => (desc i).next)
    {buf : Fin N → Buffer UInt8 B} {k : Nat} {xs : List UInt8}
    (hdata : stretch buf k xs.length = xs) {i : Nat} (w : Walk N) (left : Nat) (hw : w.At k i B)
    (hlen : i * B + w.bufferoffset + left ≤ xs.length) :
    ∃ i' w', copyPayload desc buf w left =
        ((xs.drop (i * B + w.bufferoffset)).take left, w') ∧ w'.At k i' B ∧
      i' * B + w'.bufferoffset = i * B + w.bufferoffset + left := by
  have hoff := hw.le
  -- The rest of the packet buffer is in this ring buffer, or the copy goes on in the next.
  by_cases hle : w.bufferoffset + left ≤ B
  · refine ⟨i, { w with bufferoffset := w.bufferoffset + left }, ?_,
      ⟨hw.dmarxdesc, hw.buffer, hle⟩, by simp only; omega⟩
    rw [copyPayload_fits _ _ _ hle, ← read_of_stretch hdata hle hlen, ← hw.buffer]
  · have hnext : (desc w.dmarxdesc).next = slot N (k + (i + 1)) := by
      rw [hw.dmarxdesc]
      exact hlink _
    have hsucc : (i + 1) * B + 0 = i * B + w.bufferoffset + (B - w.bufferoffset) := by
      rw [Nat.succ_mul]
      omega
    rcases copyPayload_spec hlink hdata
      { dmarxdesc := (desc w.dmarxdesc).next, buffer := (desc w.dmarxdesc).next
        bufferoffset := 0 } (left - (B - w.bufferoffset)) ⟨hnext, hnext, Nat.zero_le B⟩
      (by simp only; omega) with ⟨i', w', heq, hw', hpos⟩
    refine ⟨i', w', ?_, hw', ?_⟩
    · rw [copyPayload_next _ _ _ (by omega)]
      simp only
      rw [heq, hw.buffer, read_of_stretch hdata (by omega) (by omega), hsucc]
      -- The two pieces are adjacent.
      have hcut : left = (B - w.bufferoffset) + (left - (B - w.bufferoffset)) := by omega
      conv_rhs => rw [hcut, List.take_add, List.drop_drop]
    · simp only at hpos
      omega
termination_by left + w.bufferoffset
decreasing_by
  have := Nat.pos_of_ne_zero (NeZero.ne B)
  omega

end Copy

/-- The position at which the next frame to be returned starts. -/
def Receiver.base (s : Receiver N B) : Nat := start s.received s.outcomes.length

/-- A frame has been returned without its checksum, or there was no memory for it. -/
def Contents (f : Frame N) (p : Outcome) : Prop :=
  p = .noBuffer ∨
    ∃ chain, p = .returned chain ∧ chain.flatten = f.data.take (f.data.length - 4)

/-- The scan has seen the first `segCount` descriptors of the next frame, and the
    last one is not among them. -/
structure Seen [NeZero N] (s : Receiver N B) : Prop where
  rxDesc : s.rxDesc = slot N (s.base + s.segCount)
  le : s.base + s.segCount ≤ s.filled
  first : 0 < s.segCount → s.fsRxDesc = slot N s.base
  part : 0 < s.segCount → ∃ f, s.frames[s.outcomes.length]? = some f ∧
    s.segCount < needed B f.data.length

/-- The scan has found a frame. -/
structure Found [NeZero N] (s : Receiver N B) (f : Frame N) : Prop where
  frame : s.received[s.outcomes.length]? = some f
  segCount : s.segCount = needed B f.data.length
  rxDesc : s.rxDesc = slot N (s.base + s.segCount)
  fsRxDesc : s.fsRxDesc = slot N s.base
  buffer : s.buffer = slot N s.base
  length : s.length = (f.data.length % 2 ^ 14 + 2 ^ 32 - 4) % 2 ^ 32

/-- The copy has filled packet buffers with the front of a frame. -/
structure Walking [NeZero N] (s : Receiver N B) (f : Frame N) (w : Walk N) (pbufs : List Nat)
    (chain : List (List UInt8)) : Prop where
  place : ∃ i, w.At s.base i B ∧ i * B + w.bufferoffset = chain.flatten.length
  rest : chain.flatten.length + pbufs.sum = f.data.length - 4
  front : chain.flatten = f.data.take chain.flatten.length

/-- What the driver knows at each point. What it knows about the contents of a
    frame depends on the frame's length being the one in the descriptor. -/
def Phase [NeZero N] (s : Receiver N B) : Prop :=
  match s.pc with
  | .idle => s.handed.length = s.base ∧ Seen s
  | .scan c => s.handed.length = s.base ∧ Seen s ∧ c ≤ s.segCount
  | .alloc => s.handed.length = s.base ∧ ∃ f, Found s f
  | .copy w pbufs chain => s.handed.length = s.base ∧
      ∃ f, Found s f ∧ (f.data.length < 2 ^ 14 → Walking s f w pbufs chain)
  | .release d i p => ∃ f, Found s f ∧ i ≤ s.segCount ∧ s.handed.length = s.base + i ∧
      d = slot N (s.base + i) ∧ (f.data.length < 2 ^ 14 → Contents f p)

/-- The invariant of the receiver. -/
structure RxInv [NeZero N] (s : Receiver N B) : Prop where
  ring : RingInv s.toRxRing
  taken : s.outcomes.length ≤ s.received.length
  outcome : ∀ (k : Nat) (p : Outcome), s.outcomes[k]? = some p →
    ∃ f, s.received[k]? = some f ∧ (f.data.length < 2 ^ 14 → Contents f p)
  phase : Phase s

section Driver

variable [NeZero N] [NeZero B] {s : Receiver N B}

theorem needed_pos_of_sized {r : RxRing N B} (h : RingInv r) {f : Frame N} (hf : f ∈ r.frames) :
    0 < needed B f.data.length := by
  rcases exists_needed (m := B) (by have := (h.sized f hf).1; omega : 0 < f.data.length) with
    ⟨c, hc, -, -⟩
  omega

theorem needed_le_of_sized {r : RxRing N B} (h : RingInv r) {f : Frame N} (hf : f ∈ r.frames) :
    needed B f.data.length ≤ N := by
  have hsized := h.sized f hf
  exact needed_le (by omega) hsized.2

/-- The scan is less than a turn ahead of what has been given back. -/
theorem Seen.lt (h : Seen s) (hring : RingInv s.toRxRing) : s.segCount < N := by
  by_cases hzero : s.segCount = 0
  · rw [hzero]
    exact Nat.pos_of_ne_zero (NeZero.ne N)
  · rcases h.part (by omega) with ⟨f, hf, hlt⟩
    exact Nat.lt_of_lt_of_le hlt (needed_le_of_sized hring (List.mem_of_getElem? hf))

/-- If a frame is complete and has not been returned, the descriptor the scan is at
    is one of its own. -/
theorem Seen.lt_needed (h : Seen s) (hring : RingInv s.toRxRing) {f : Frame N}
    (hf : s.frames[s.outcomes.length]? = some f) : s.segCount < needed B f.data.length := by
  by_cases hzero : s.segCount = 0
  · rw [hzero]
    exact needed_pos_of_sized hring (List.mem_of_getElem? hf)
  · rcases h.part (by omega) with ⟨g, hg, hlt⟩
    rw [hf, Option.some.injEq] at hg
    rwa [hg]

/-- A descriptor that the driver owns holds a part of the next frame. -/
theorem Seen.carries (h : Seen s) (hring : RingInv s.toRxRing)
    (htaken : s.outcomes.length ≤ s.received.length) (hbase : s.handed.length = s.base)
    (hown : (s.desc s.rxDesc).own = false) :
    ∃ f, s.frames[s.outcomes.length]? = some f ∧ s.segCount < f.descs.length ∧
      Carries s.toRxRing (s.base + s.segCount) f.data s.segCount := by
  -- The DMA owns everything from the position it is at on.
  have hlt : s.base + s.segCount < s.filled := by
    by_contra hc
    have howned := hring.owned (s.base + s.segCount) (by omega)
      (by have := h.lt hring; omega)
    rw [← h.rxDesc, hown] at howned
    exact absurd howned Bool.false_ne_true
  have hframe : ∃ f, s.frames[s.outcomes.length]? = some f ∧ s.segCount < f.descs.length := by
    by_cases hk : s.outcomes.length < s.received.length
    · have hrec := List.getElem?_eq_getElem hk
      have hf := RxRing.frames_of_received hrec
      refine ⟨_, hf, ?_⟩
      rw [hring.full _ (List.getElem_mem hk)]
      exact h.lt_needed hring hf
    · -- All complete frames are taken, so the part is one of the frame coming in.
      have heq : s.outcomes.length = s.received.length := by omega
      rw [RxRing.filled_eq, Receiver.base, heq] at hlt
      cases hin : s.incoming with
      | none =>
          rw [hin, Option.toList_none, List.flatMap_nil, List.length_nil] at hlt
          omega
      | some f =>
          refine ⟨f, ?_, ?_⟩
          · rw [RxRing.frames_of_incoming hin, heq, List.getElem?_append_right (Nat.le_refl _),
              Nat.sub_self, List.getElem?_cons_zero]
          · rw [hin, Option.toList_some, List.flatMap_singleton] at hlt
            omega
  rcases hframe with ⟨f, hf, hdescs⟩
  exact ⟨f, hf, hdescs, hring.carries _ f _ hf hdescs (by rw [hbase]; exact Nat.le_add_right _ _)⟩

omit [NeZero B] in
/-- A step that leaves the ring and the history alone has only to explain what the
    driver knows afterwards. -/
theorem RxInv.of_phase (h : RxInv s) {s' : Receiver N B} (hring : s'.toRxRing = s.toRxRing)
    (hout : s'.outcomes = s.outcomes) (hphase : Phase s') : RxInv s' := by
  refine ⟨?_, ?_, ?_, hphase⟩
  · rw [hring]
    exact h.ring
  · rw [hring, hout]
    exact h.taken
  · rw [hring, hout]
    exact h.outcome

/-- The scan moves on over a descriptor that is not the last one of the frame. -/
theorem Seen.next (h : Seen s) (hring : RingInv s.toRxRing) {f : Frame N}
    (hf : s.frames[s.outcomes.length]? = some f) (hdescs : s.segCount < f.descs.length)
    (hlast : s.segCount + 1 ≠ needed B f.data.length) {s' : Receiver N B}
    (hsame : s'.toRxRing = s.toRxRing) (hout : s'.outcomes = s.outcomes)
    (hseg : s'.segCount = s.segCount + 1) (hfirst : s'.fsRxDesc = slot N s.base)
    (hrx : s'.rxDesc = (s.desc s.rxDesc).next) : Seen s' := by
  have hbase : s'.base = s.base := by rw [Receiver.base, hsame, hout, Receiver.base]
  have hlt := h.lt_needed hring hf
  refine ⟨?_, ?_, ?_, ?_⟩
  · rw [hrx, h.rxDesc, hbase, hseg, ← Nat.add_assoc]
    exact hring.linked _
  · rw [hbase, hseg, hsame]
    exact RxRing.start_add_lt hf hdescs
  · intro _
    rw [hfirst, hbase]
  · intro _
    rw [hsame, hout, hseg]
    exact ⟨f, hf, by omega⟩

omit [NeZero B] in
/-- A descriptor with the last part belongs to a frame that is complete. -/
theorem received_of_last (hring : RingInv s.toRxRing) {f : Frame N}
    (hf : s.frames[s.outcomes.length]? = some f) (hdescs : s.segCount < f.descs.length)
    (hlast : s.segCount + 1 = needed B f.data.length) :
    s.received[s.outcomes.length]? = some f := by
  rcases RxRing.frames_cases hf with hrec | ⟨-, hin⟩
  · exact hrec
  · have hpart := hring.part f hin
    omega

/-- A turn of the scan. -/
theorem scanTurn_inv (h : RxInv s) {c : Nat} (hpc : s.pc = .scan c) : RxInv (s.scanTurn c) := by
  have hphase := h.phase
  simp only [Phase, hpc] at hphase
  rcases hphase with ⟨hbase, hseen, hc⟩
  by_cases hlook : (s.desc s.rxDesc).own = false ∧ c < N
  · rcases hseen.carries h.ring h.taken hbase hlook.1 with ⟨f, hf, hdescs, hcar⟩
    have hfs := hcar.fs
    have hls := hcar.ls
    have hfl := hcar.fl
    rw [← hseen.rxDesc] at hfs hls hfl
    have hnext : (s.desc s.rxDesc).next = slot N (s.base + (s.segCount + 1)) := by
      rw [hseen.rxDesc, ← Nat.add_assoc]
      exact h.ring.linked _
    by_cases hlast : s.segCount + 1 = needed B f.data.length
    · -- The last segment. It is the first as well if none has been counted.
      have hturn : s.scanTurn c = { s with
          segCount := s.segCount + 1
          fsRxDesc := if s.segCount + 1 = 1 then s.rxDesc else s.fsRxDesc
          length := ((s.desc s.rxDesc).fl + 2 ^ 32 - 4) % 2 ^ 32
          buffer := if s.segCount + 1 = 1 then s.rxDesc else s.fsRxDesc
          rxDesc := (s.desc s.rxDesc).next
          pc := .alloc } := by
        simp only [Receiver.scanTurn, hlook, hls, hlast, decide_true, Bool.not_true,
          Bool.and_false, Bool.false_eq_true, if_false, and_self, if_true]
      have hfirst : (if s.segCount + 1 = 1 then s.rxDesc else s.fsRxDesc) = slot N s.base := by
        by_cases hzero : s.segCount = 0
        · rw [if_pos (by omega), hseen.rxDesc, hzero, Nat.add_zero]
        · rw [if_neg (by omega)]
          exact hseen.first (by omega)
      rw [hturn]
      refine h.of_phase rfl rfl ⟨hbase, f, ?_⟩
      exact ⟨received_of_last h.ring hf hdescs hlast, hlast, hnext, hfirst, hfirst,
        by rw [hfl hlast]⟩
    · have hls' : (s.desc s.rxDesc).ls = false := by rw [hls, decide_eq_false hlast]
      by_cases hzero : s.segCount = 0
      · -- The first segment, of a frame with more of them.
        have hfs' : (s.desc s.rxDesc).fs = true := by rw [hfs, decide_eq_true hzero]
        have hturn : s.scanTurn c = { s with
            fsRxDesc := s.rxDesc
            segCount := 1
            rxDesc := (s.desc s.rxDesc).next
            pc := .scan (c + 1) } := by
          simp only [Receiver.scanTurn, hlook, hfs', hls', Bool.not_false, Bool.and_true, and_self,
            if_true]
        rw [hturn]
        refine h.of_phase rfl rfl ⟨hbase, ?_, by simp only; omega⟩
        refine hseen.next h.ring hf hdescs hlast rfl rfl (by simp only; omega) ?_ rfl
        rw [hseen.rxDesc, hzero, Nat.add_zero]
      · -- A segment in the middle.
        have hfs' : (s.desc s.rxDesc).fs = false := by rw [hfs, decide_eq_false hzero]
        have hturn : s.scanTurn c = { s with
            segCount := s.segCount + 1
            rxDesc := (s.desc s.rxDesc).next
            pc := .scan (c + 1) } := by
          simp only [Receiver.scanTurn, hlook, hfs', hls', Bool.not_false, Bool.and_true,
            Bool.false_eq_true, if_false, and_self, if_true]
        rw [hturn]
        refine h.of_phase rfl rfl ⟨hbase, ?_, by simp only; omega⟩
        exact hseen.next h.ring hf hdescs hlast rfl rfl rfl (hseen.first (by omega)) rfl
  · -- The call returns without a frame, and what has been counted is kept.
    rw [Receiver.scanTurn, if_neg hlook]
    exact h.of_phase rfl rfl ⟨hbase, hseen.rxDesc, hseen.le, hseen.first, hseen.part⟩

omit [NeZero B] in
/-- A call starts where the last one has stopped. -/
theorem call_inv (h : RxInv s) (hpc : s.pc = .idle) : RxInv { s with pc := .scan 0 } := by
  have hphase := h.phase
  simp only [Phase, hpc] at hphase
  rcases hphase with ⟨hbase, hseen⟩
  refine h.of_phase rfl rfl ⟨hbase, ?_, Nat.zero_le _⟩
  exact ⟨hseen.rxDesc, hseen.le, hseen.first, hseen.part⟩

omit [NeZero B] in
theorem Found.congr {f : Frame N} (h : Found s f) {s' : Receiver N B}
    (hring : s'.toRxRing = s.toRxRing) (hout : s'.outcomes = s.outcomes)
    (hseg : s'.segCount = s.segCount) (hrx : s'.rxDesc = s.rxDesc)
    (hfs : s'.fsRxDesc = s.fsRxDesc) (hbuf : s'.buffer = s.buffer)
    (hlen : s'.length = s.length) : Found s' f := by
  have hbase : s'.base = s.base := by rw [Receiver.base, hring, hout, Receiver.base]
  refine ⟨?_, ?_, ?_, ?_, ?_, ?_⟩
  · rw [hring, hout]
    exact h.frame
  · rw [hseg]
    exact h.segCount
  · rw [hrx, hbase, hseg]
    exact h.rxDesc
  · rw [hfs, hbase]
    exact h.fsRxDesc
  · rw [hbuf, hbase]
    exact h.buffer
  · rw [hlen]
    exact h.length

omit [NeZero B] in
/-- The length is the frame's without the checksum if the descriptor can hold it. -/
theorem Found.len {f : Frame N} (h : Found s f) (hring : RingInv s.toRxRing)
    (hsmall : f.data.length < 2 ^ 14) : s.length % 2 ^ 16 = f.data.length - 4 := by
  have hmin := (hring.sized f (List.mem_of_getElem? (RxRing.frames_of_received h.frame))).1
  rw [h.length]
  omega

omit [NeZero B] in
/-- The release starts with nothing given back. -/
theorem release_inv (h : RxInv s) {f : Frame N} (hbase : s.handed.length = s.base)
    (hfound : Found s f) {p : Outcome} (hp : f.data.length < 2 ^ 14 → Contents f p) :
    RxInv { s with pc := .release s.fsRxDesc 0 p } := by
  refine h.of_phase rfl rfl ⟨f, hfound.congr rfl rfl rfl rfl rfl rfl rfl, Nat.zero_le _, hbase,
    hfound.fsRxDesc, hp⟩

omit [NeZero B] in
/-- The allocation, whatever it returns. -/
theorem onAlloc_inv (h : RxInv s) (hpc : s.pc = .alloc) {chain : Option (List Nat)}
    {s' : Receiver N B} (hs : s.onAlloc chain = some s') : RxInv s' := by
  have hphase := h.phase
  simp only [Phase, hpc] at hphase
  rcases hphase with ⟨hbase, f, hfound⟩
  have hlen := hfound.len h.ring
  rcases onAlloc_cases hs with ⟨pbufs, -, hpos, hsum, rfl⟩ | ⟨-, -, rfl⟩ | ⟨hzero, rfl⟩
  · refine h.of_phase rfl rfl ⟨hbase, f, hfound.congr rfl rfl rfl rfl rfl rfl rfl, ?_⟩
    intro hsmall
    refine ⟨⟨0, ⟨hfound.fsRxDesc, hfound.buffer, Nat.zero_le B⟩, ?_⟩, ?_, rfl⟩
    · rw [Nat.zero_mul]
      rfl
    · rw [hsum, hlen hsmall]
      exact Nat.zero_add _
  · exact release_inv h hbase hfound fun _ => .inl rfl
  · -- No frame of this kind has length zero.
    refine release_inv h hbase hfound ?_
    intro hsmall
    have hmin := (h.ring.sized f
      (List.mem_of_getElem? (RxRing.frames_of_received hfound.frame))).1
    have := hlen hsmall
    omega

/-- A turn of the copy. -/
theorem copyTurn_inv (h : RxInv s) {w : Walk N} {pbufs : List Nat} {chain : List (List UInt8)}
    (hpc : s.pc = .copy w pbufs chain) : RxInv (s.copyTurn w pbufs chain) := by
  have hphase := h.phase
  simp only [Phase, hpc] at hphase
  rcases hphase with ⟨hbase, f, hfound, hwalk⟩
  cases pbufs with
  | nil =>
      -- All packet buffers are filled, so that the chain holds the whole frame.
      refine release_inv h hbase hfound ?_
      intro hsmall
      have hw := hwalk hsmall
      have hrest := hw.rest
      rw [List.sum_nil, Nat.add_zero] at hrest
      refine .inr ⟨chain, rfl, ?_⟩
      rw [← hrest]
      exact hw.front
  | cons len pbufs =>
      refine h.of_phase rfl rfl ⟨hbase, f, hfound.congr rfl rfl rfl rfl rfl rfl rfl, ?_⟩
      intro hsmall
      have hw := hwalk hsmall
      have hrest := hw.rest
      have hfront := hw.front
      rw [List.sum_cons] at hrest
      rcases hw.place with ⟨i, hat, hpos⟩
      -- The next packet buffer gets the bytes behind those that were copied.
      have hdata := stretch_frame h.ring hfound.frame (Nat.le_of_eq hbase)
      rcases copyPayload_spec h.ring.linked hdata w len hat (by omega) with
        ⟨i', w', heq, hat', hpos'⟩
      have hflat : (chain ++ [(copyPayload s.desc s.buf w len).1]).flatten =
          f.data.take (chain.flatten.length + len) := by
        rw [heq, List.flatten_append, List.flatten_singleton, hpos, List.take_add, ← hfront]
      have hlen : (chain ++ [(copyPayload s.desc s.buf w len).1]).flatten.length =
          chain.flatten.length + len := by
        rw [hflat, List.length_take]
        omega
      refine ⟨⟨i', ?_, ?_⟩, ?_, ?_⟩
      · rw [heq]
        exact hat'
      · rw [hlen, heq, ← hpos]
        exact hpos'
      · rw [hlen]
        omega
      · rw [hlen]
        exact hflat

omit [NeZero B] in
/-- A turn of the release, or the return. -/
theorem releaseTurn_inv (h : RxInv s) {d : Fin N} {i : Nat} {p : Outcome}
    (hpc : s.pc = .release d i p) : RxInv (s.releaseTurn d i p) := by
  have hphase := h.phase
  simp only [Phase, hpc] at hphase
  rcases hphase with ⟨f, hfound, hle, hhanded, hd, hp⟩
  have hfull := h.ring.full f (List.mem_of_getElem? hfound.frame)
  have hseg := hfound.segCount
  by_cases hlt : i < s.segCount
  · -- The descriptor is the oldest one held, since it belongs to this frame.
    have hbefore := RxRing.start_add_lt (RxRing.frames_of_received hfound.frame)
      (by omega : i < f.descs.length)
    have hslot : d = slot N s.handed.length := by rw [hhanded, hd]
    have hring := h.ring.handBack (hhanded.trans_lt hbefore)
    rw [← hslot] at hring
    rw [Receiver.releaseTurn, if_pos hlt]
    refine ⟨hring, h.taken, h.outcome, ⟨f, ?_, hlt, ?_, ?_, hp⟩⟩
    · exact ⟨hfound.frame, hfound.segCount, hfound.rxDesc, hfound.fsRxDesc, hfound.buffer,
        hfound.length⟩
    · simp only [RxRing.handBack, List.length_append, List.length_singleton, hhanded]
      rfl
    · rw [hd]
      exact h.ring.linked _
  · -- The call returns, and the next frame starts behind this one.
    have hend : s.base + f.descs.length = start s.received (s.outcomes.length + 1) :=
      (start_succ hfound.frame).symm
    have hbase : ({ s with
        segCount := 0, pc := .idle, outcomes := s.outcomes ++ [p] } : Receiver N B).base =
        s.base + s.segCount := by
      rw [Receiver.base, List.length_append, List.length_singleton, ← hend]
      omega
    rw [Receiver.releaseTurn, if_neg hlt]
    refine ⟨h.ring, ?_, ?_, ⟨?_, ?_, ?_, ?_, ?_⟩⟩
    · rw [List.length_append, List.length_singleton]
      exact (List.getElem?_eq_some_iff.mp hfound.frame).1
    · intro k q hk
      rw [List.getElem?_append] at hk
      by_cases hkl : k < s.outcomes.length
      · rw [if_pos hkl] at hk
        exact h.outcome k q hk
      · rw [if_neg hkl] at hk
        have hzero := (List.getElem?_eq_some_iff.mp hk).1
        rw [List.length_singleton] at hzero
        have hkeq : k = s.outcomes.length := by omega
        rw [hkeq, Nat.sub_self, List.getElem?_cons_zero, Option.some.injEq] at hk
        rw [hkeq, ← hk]
        exact ⟨f, hfound.frame, hp⟩
    · rw [hbase]
      exact hhanded.trans (by omega)
    · rw [hbase]
      exact hfound.rxDesc
    · rw [hbase]
      have hend' := start_add_le (RxRing.frames_of_received hfound.frame)
      rw [RxRing.frames, start_append h.taken] at hend'
      exact Nat.le_trans (by rw [hseg, ← hfull]; exact Nat.le_refl _) hend'
    · intro hzero
      exact absurd hzero (Nat.lt_irrefl 0)
    · intro hzero
      exact absurd hzero (Nat.lt_irrefl 0)

omit [NeZero B] in
/-- What the driver knows stays true while the DMA goes on. -/
theorem Phase.mono (h : Phase s) {r : RxRing N B} (hhanded : r.handed = s.handed)
    (hbase : start r.received s.outcomes.length = s.base) (hfilled : s.filled ≤ r.filled)
    (hframes : ∀ (k : Nat) (f : Frame N), s.frames[k]? = some f →
      ∃ f' : Frame N, r.frames[k]? = some f' ∧ f'.data = f.data)
    (hrec : ∀ (k : Nat) (f : Frame N), s.received[k]? = some f → r.received[k]? = some f) :
    Phase { s with toRxRing := r } := by
  have hbase' : ({ s with toRxRing := r } : Receiver N B).base = s.base := hbase
  have hseen : Seen s → Seen { s with toRxRing := r } := by
    intro hs
    refine ⟨?_, ?_, ?_, ?_⟩
    · rw [hbase']
      exact hs.rxDesc
    · rw [hbase']
      exact hs.le.trans hfilled
    · rw [hbase']
      exact hs.first
    · intro hpos
      rcases hs.part hpos with ⟨f, hf, hlt⟩
      rcases hframes _ f hf with ⟨f', hf', hdata⟩
      exact ⟨f', hf', by rw [hdata]; exact hlt⟩
  have hfound : ∀ f, Found s f → Found { s with toRxRing := r } f := by
    intro f hf
    refine ⟨hrec _ f hf.frame, hf.segCount, ?_, ?_, ?_, hf.length⟩
    · rw [hbase']
      exact hf.rxDesc
    · rw [hbase']
      exact hf.fsRxDesc
    · rw [hbase']
      exact hf.buffer
  -- The points differ only in which of the two they know.
  unfold Phase at h ⊢
  simp only [hbase', hhanded]
  cases hpc : s.pc with
  | idle =>
      simp only [hpc] at h hseen hfound hbase' ⊢
      exact ⟨h.1, hseen h.2⟩
  | scan c =>
      simp only [hpc] at h hseen hfound hbase' ⊢
      exact ⟨h.1, hseen h.2.1, h.2.2⟩
  | alloc =>
      simp only [hpc] at h hseen hfound hbase' ⊢
      rcases h with ⟨h, f, hf⟩
      exact ⟨h, f, hfound f hf⟩
  | copy w pbufs chain =>
      simp only [hpc] at h hseen hfound hbase' ⊢
      rcases h with ⟨h, f, hf, hw⟩
      refine ⟨h, f, hfound f hf, ?_⟩
      intro hsmall
      rcases (hw hsmall).place with ⟨i, hat, hpos⟩
      refine ⟨⟨i, ?_, hpos⟩, (hw hsmall).rest, (hw hsmall).front⟩
      rw [hbase']
      exact hat
  | release d i p =>
      simp only [hpc] at h hseen hfound hbase' ⊢
      rcases h with ⟨f, hf, h⟩
      exact ⟨f, hfound f hf, h⟩

/-- The DMA starts with a new frame. -/
theorem frame_inv (h : RxInv s) (hnone : s.incoming = none) {data : List UInt8}
    (hmin : 4 < data.length) (hmax : data.length ≤ N * B) :
    RxInv { s with incoming := some { data := data, descs := [] } } := by
  have hframes : ({ s.toRxRing with incoming := some { data := data, descs := [] } } :
      RxRing N B).frames = s.frames ++ [{ data := data, descs := [] }] := by
    simp only [RxRing.frames, hnone, Option.toList_none, Option.toList_some, List.append_nil]
  refine ⟨h.ring.frame hnone hmin hmax, h.taken, h.outcome, ?_⟩
  refine h.phase.mono rfl rfl ?_ ?_ ?_
  · rw [RxRing.filled, RxRing.filled, hframes, List.flatMap_append, List.length_append]
    exact Nat.le_add_right _ _
  · intro k f hf
    refine ⟨f, ?_, rfl⟩
    rw [hframes, List.getElem?_append_left (List.getElem?_eq_some_iff.mp hf).1, hf]
  · intro k f hf
    exact hf

omit [NeZero B] in
/-- The DMA fills a descriptor. -/
theorem fill_inv (h : RxInv s) {f : Frame N} (hin : s.incoming = some f)
    (hown : (s.desc s.dma).own = true) : RxInv { s with toRxRing := s.toRxRing.fill f } := by
  have hrec : ∀ (k : Nat) (g : Frame N), s.received[k]? = some g →
      (s.toRxRing.fill f).received[k]? = some g := by
    intro k g hg
    rcases received_fill s.toRxRing f with ⟨heq, -⟩ | ⟨heq, -⟩
    · rw [heq, hg]
    · rw [heq, List.getElem?_append_left (List.getElem?_eq_some_iff.mp hg).1, hg]
  refine ⟨h.ring.fill hin hown, ?_, ?_, ?_⟩
  · refine h.taken.trans ?_
    rcases received_fill s.toRxRing f with ⟨heq, -⟩ | ⟨heq, -⟩
    · rw [heq]
    · rw [heq, List.length_append]
      exact Nat.le_add_right _ _
  · intro k p hk
    rcases h.outcome k p hk with ⟨g, hg, hp⟩
    exact ⟨g, hrec k g hg, hp⟩
  · refine h.phase.mono rfl (start_fill s.toRxRing f h.taken) ?_ ?_ hrec
    · rw [filled_fill hin]
      exact Nat.le_succ _
    · -- Only the descriptors of the frame that is coming in change.
      intro k g hg
      rw [frames_fill]
      rcases RxRing.frames_cases hg with hg' | ⟨hlast, hg'⟩
      · refine ⟨g, ?_, rfl⟩
        rw [List.getElem?_append_left (List.getElem?_eq_some_iff.mp hg').1, hg']
      · rw [hin, Option.some.injEq] at hg'
        refine ⟨{ f with descs := f.descs ++ [s.dma] }, ?_, by rw [hg']⟩
        rw [hlast, List.getElem?_append_right (Nat.le_refl _), Nat.sub_self,
          List.getElem?_cons_zero]

/-- Every step keeps the invariant. -/
theorem inv_step {s' : Receiver N B} {e : RxEvent} (h : RxInv s) (hs : rxStep s e = some s') :
    RxInv s' := by
  cases rxStep_cases hs with
  | frame hnone hmin hmax => exact frame_inv h hnone hmin hmax
  | fill hin hown => exact fill_inv h hin hown
  | call hpc => exact call_inv h hpc
  | scan hpc => exact scanTurn_inv h hpc
  | alloc hpc halloc => exact onAlloc_inv h hpc halloc
  | copy hpc => exact copyTurn_inv h hpc
  | release hpc => exact releaseTurn_inv h hpc

omit [NeZero B] in
theorem inv_init (s₀ : Receiver N B) : RxInv (halEthDmaRxDescListInit s₀) := by
  refine ⟨⟨chained_ringNext, ?_, ?_, ?_, rfl, rfl, rfl, Nat.le_refl 0, Nat.zero_le _,
    fun _ _ _ => rfl, ?_, ?_⟩, Nat.le_refl 0, ?_, ⟨rfl, rfl, Nat.le_refl 0, ?_, ?_⟩⟩
  · intro f hf
    exact absurd hf List.not_mem_nil
  · intro f hf
    exact absurd hf List.not_mem_nil
  · intro f hf
    cases hf
  · intro pos _ hpos
    exact absurd hpos (Nat.not_lt_zero pos)
  · intro k f i hk
    cases hk
  · intro k p hk
    cases hk
  · intro hpos
    exact absurd hpos (Nat.lt_irrefl 0)
  · intro hpos
    exact absurd hpos (Nat.lt_irrefl 0)

/-- The invariant holds in every run, whatever the lengths of the frames. -/
theorem run_inv {s₀ : Receiver N B} {events : List RxEvent}
    (hrun : run rxStep (halEthDmaRxDescListInit s₀) events = some s) : RxInv s :=
  run_invariant rxStep RxInv (fun _ _ _ h hs => inv_step h hs) (inv_init s₀) hrun

omit [NeZero N] in
/-- No step changes the bytes of a frame. -/
theorem frames_step {s' : Receiver N B} {e : RxEvent} (hs : rxStep s e = some s') :
    ∀ g ∈ s'.frames, (∃ f ∈ s.frames, g.data = f.data) ∨ e = .frame g.data := by
  have hkeep : s'.frames = s.frames →
      ∀ g ∈ s'.frames, (∃ f ∈ s.frames, g.data = f.data) ∨ e = .frame g.data := by
    intro heq g hg
    rw [heq] at hg
    exact .inl ⟨g, hg, rfl⟩
  -- Only the DMA starts a frame or completes one; the driver leaves the list alone.
  cases rxStep_cases hs with
  | frame hnone _ _ =>
      intro g hg
      rw [RxRing.frames, List.mem_append, Option.mem_toList, Option.some.injEq] at hg
      rcases hg with hg | rfl
      · exact .inl ⟨g, List.mem_append_left _ hg, rfl⟩
      · exact .inr rfl
  | @fill f hin _ =>
      intro g hg
      rw [RxRing.frames_of_incoming hin]
      rw [frames_fill, List.mem_append, List.mem_singleton] at hg
      rcases hg with hg | rfl
      · exact .inl ⟨g, List.mem_append_left _ hg, rfl⟩
      · exact .inl ⟨f, List.mem_append_right _ (List.mem_singleton_self f), rfl⟩
  | call _ => exact hkeep rfl
  | scan _ => exact hkeep (by rw [scanTurn_ring])
  | alloc _ halloc =>
      rcases onAlloc_cases halloc with ⟨_, _, _, _, rfl⟩ | ⟨_, _, rfl⟩ | ⟨_, rfl⟩
      · exact hkeep rfl
      · exact hkeep rfl
      · exact hkeep rfl
  | copy _ => exact hkeep (by rw [copyTurn_ring])
  | @release d i p _ =>
      refine hkeep ?_
      unfold Receiver.releaseTurn
      split_ifs
      · rfl
      · rfl

/-- The frames of a run are the ones that were started. -/
theorem run_small {s₀ : Receiver N B} {events : List RxEvent}
    (hrun : run rxStep (halEthDmaRxDescListInit s₀) events = some s)
    (hsmall : ∀ data, RxEvent.frame data ∈ events → data.length < 2 ^ 14) :
    ∀ f ∈ s.frames, f.data.length < 2 ^ 14 := by
  refine run_invariant_along rxStep (fun _ e => ∀ data, e = .frame data → data.length < 2 ^ 14)
    (fun s => ∀ f ∈ s.frames, f.data.length < 2 ^ 14) ?_ ?_ (along_of_forall rxStep _ ?_) hrun
  · intro s e s' h he hs g hg
    rcases frames_step hs g hg with ⟨f, hf, hdata⟩ | hnew
    · rw [hdata]
      exact h f hf
    · exact he g.data hnew
  · intro f hf
    exact absurd hf List.not_mem_nil
  · intro e he data hdata
    rw [hdata] at he
    exact hsmall data he

end Driver

/-- What `pbuf_alloc` has returned in a run, in order: the lengths of a chain, or `NULL`. -/
def allocated (events : List RxEvent) : List (Option (List Nat)) :=
  events.filterMap fun e => match e with
    | .alloc chain => some chain
    | _ => none

/-- What a call returns goes with what `pbuf_alloc` has returned to it: `NULL` for want of
    memory with `NULL`, and a chain with one of these lengths. -/
def Outcome.Fits (p : Outcome) (a : Option (List Nat)) : Prop :=
  match p with
  | .returned chain => a = some (chain.map List.length)
  | .noBuffer => a = none
  | .noLength => True

/-- The allocations of a run and the calls of the driver: one allocation for each call that
    has found a frame, the one that is under way among them. -/
structure Accounted (events : List RxEvent) (s : Receiver N B) : Prop where
  past : ∀ (k : Nat) (p : Outcome), s.outcomes[k]? = some p →
    ∃ a, (allocated events)[k]? = some a ∧ p.Fits a
  current : match s.pc with
    | .copy w pbufs chain => w.bufferoffset ≤ B ∧ ∃ as, as.length = s.outcomes.length ∧
        allocated events = as ++ [some (chain.map List.length ++ pbufs)]
    | .release _ _ p => ∃ as a, as.length = s.outcomes.length ∧
        allocated events = as ++ [a] ∧ p.Fits a
    | _ => (allocated events).length = s.outcomes.length

section Account

variable {s : Receiver N B} {events : List RxEvent}

theorem allocated_snoc (events : List RxEvent) (e : RxEvent) :
    allocated (events ++ [e]) = allocated events ++ allocated [e] := by
  rw [allocated, List.filterMap_append]
  rfl

/-- Only an allocation adds to the list. -/
theorem allocated_other {e : RxEvent} (he : allocated [e] = []) :
    allocated (events ++ [e]) = allocated events := by
  rw [allocated_snoc, he, List.append_nil]

/-- A call that has returned keeps its allocation when there are more. -/
theorem Accounted.past_append (h : Accounted events s) (e : RxEvent) (k : Nat) (p : Outcome)
    (hk : s.outcomes[k]? = some p) :
    ∃ a, (allocated (events ++ [e]))[k]? = some a ∧ p.Fits a := by
  rcases h.past k p hk with ⟨a, ha, hfits⟩
  refine ⟨a, ?_, hfits⟩
  rw [allocated_snoc, List.getElem?_append_left (List.getElem?_eq_some_iff.mp ha).1, ha]

/-- A step that is not about memory leaves the account as it is. -/
theorem Accounted.quiet (h : Accounted events s) {e : RxEvent} (he : allocated [e] = [])
    {s' : Receiver N B} (hpc : s'.pc = s.pc) (hout : s'.outcomes = s.outcomes) :
    Accounted (events ++ [e]) s' := by
  refine ⟨?_, ?_⟩
  · rw [hout]
    exact h.past_append e
  · rw [hpc, hout, allocated_other he]
    exact h.current

variable [NeZero B]

/-- Every step keeps the account. -/
theorem accounted_step {e : RxEvent} {s' : Receiver N B} (h : Accounted events s)
    (hs : rxStep s e = some s') : Accounted (events ++ [e]) s' := by
  have hpast := h.past_append e
  have hcurrent := h.current
  cases rxStep_cases hs with
  | frame _ _ _ => exact h.quiet rfl rfl rfl
  | fill _ _ => exact h.quiet rfl rfl rfl
  | call hpc =>
      simp only [hpc] at hcurrent
      refine ⟨hpast, ?_⟩
      rw [allocated_other rfl]
      exact hcurrent
  | @scan c hpc =>
      simp only [hpc] at hcurrent
      refine ⟨by rw [scanTurn_outcomes]; exact hpast, ?_⟩
      rw [scanTurn_outcomes, allocated_other rfl]
      rcases scanTurn_pc s c with hpc' | hpc' | ⟨hpc', -⟩
      · rw [hpc']
        exact hcurrent
      · rw [hpc']
        exact hcurrent
      · rw [hpc']
        exact hcurrent
  | @alloc chain _ hpc halloc =>
      simp only [hpc] at hcurrent
      have hmore : allocated (events ++ [.alloc chain]) = allocated events ++ [chain] :=
        allocated_snoc events _
      -- Whatever comes of it, the allocation is that of the call under way.
      rcases onAlloc_cases halloc with ⟨pbufs, rfl, -, -, rfl⟩ | ⟨rfl, -, rfl⟩ | ⟨-, rfl⟩
      · exact ⟨hpast, Nat.zero_le B, allocated events, hcurrent, hmore⟩
      · exact ⟨hpast, allocated events, none, hcurrent, hmore, rfl⟩
      · exact ⟨hpast, allocated events, chain, hcurrent, hmore, trivial⟩
  | @copy w pbufs chain hpc =>
      simp only [hpc] at hcurrent
      rcases hcurrent with ⟨hoff, as, hlen, has⟩
      have hsame : allocated (events ++ [.copy]) = allocated events := allocated_other rfl
      cases pbufs with
      | nil =>
          rw [List.append_nil] at has
          exact ⟨hpast, as, _, hlen, hsame.trans has, rfl⟩
      | cons len pbufs =>
          rcases copyPayload_length s.desc s.buf w len hoff with ⟨hcount, hoff'⟩
          refine ⟨hpast, hoff', as, hlen, hsame.trans (has.trans ?_)⟩
          rw [List.map_append, List.map_singleton, hcount, List.append_assoc,
            List.singleton_append]
  | @release d i p hpc =>
      simp only [hpc] at hcurrent
      rcases hcurrent with ⟨as, a, hlen, has, hfits⟩
      have hsame : allocated (events ++ [.release]) = as ++ [a] := (allocated_other rfl).trans has
      by_cases hlt : i < s.segCount
      · rw [Receiver.releaseTurn, if_pos hlt]
        exact ⟨hpast, as, a, hlen, hsame, hfits⟩
      · -- The call returns, and its outcome is the last one.
        rw [Receiver.releaseTurn, if_neg hlt]
        refine ⟨?_, ?_⟩
        · intro k q hk
          by_cases hkl : k < s.outcomes.length
          · rw [List.getElem?_append_left hkl] at hk
            exact hpast k q hk
          · have hlast := (List.getElem?_eq_some_iff.mp hk).1
            rw [List.length_append, List.length_singleton] at hlast
            have hkeq : k = s.outcomes.length := by omega
            rw [hkeq, List.getElem?_concat_length, Option.some.injEq] at hk
            refine ⟨a, ?_, hk ▸ hfits⟩
            rw [hsame, hkeq, ← hlen, List.getElem?_concat_length]
        · simp only [hsame, List.length_append, List.length_singleton, hlen]

/-- So every run does. -/
theorem run_accounted [NeZero N] {s₀ : Receiver N B}
    (hrun : run rxStep (halEthDmaRxDescListInit s₀) events = some s) : Accounted events s := by
  have h0 : Accounted [] (halEthDmaRxDescListInit s₀) := by
    refine ⟨?_, rfl⟩
    intro k p hk
    cases hk
  exact run_history rxStep (fun _ _ => True) (fun past s => Accounted past s)
    (fun _ _ _ _ h _ hs => accounted_step h hs) h0 (along_of_forall rxStep _ fun _ _ => trivial)
    hrun

end Account

/-- What becomes of a frame, given what `pbuf_alloc` returned for it: nothing if that was
    `NULL`, and otherwise a chain of these lengths with all of the frame but its checksum. -/
def Delivered (f : Frame N) (a : Option (List Nat)) (p : Outcome) : Prop :=
  match a with
  | none => p = .noBuffer
  | some pbufs => ∃ chain, p = .returned chain ∧ chain.map List.length = pbufs ∧
      chain.flatten = f.data.take (f.data.length - 4)

theorem delivered_of_fits {f : Frame N} {a : Option (List Nat)} {p : Outcome}
    (h : Contents f p) (hfits : p.Fits a) : Delivered f a p := by
  rcases h with rfl | ⟨chain, rfl, hdata⟩
  · have hnone : a = none := hfits
    rw [hnone]
    exact rfl
  · have hsome : a = some (chain.map List.length) := hfits
    rw [hsome]
    exact ⟨chain, rfl, rfl, hdata⟩

/-- The descriptors of the current frame that have been given back already. -/
def Receiver.returning (s : Receiver N B) : List (Fin N) :=
  match s.pc with
  | .release _ i _ =>
      (((s.received.drop s.outcomes.length).take 1).flatMap Frame.descs).take i
  | _ => []

/-- The frames have been treated as they should be. The calls that have found a
    frame took the complete frames in order, and each returned its frame unless
    its `pbuf_alloc` returned `NULL`. The descriptors given back are those of the frames taken,
    in order and once each, and of the frame being released those released so far.
    The others are still the driver's. A call gives up only if no complete frame is
    left. -/
structure Exact (events : List RxEvent) (s : Receiver N B) : Prop where
  outcome : ∀ (k : Nat) (p : Outcome), s.outcomes[k]? = some p →
    ∃ f a, s.received[k]? = some f ∧ (allocated events)[k]? = some a ∧ Delivered f a p
  handed : s.handed =
    (s.received.take s.outcomes.length).flatMap Frame.descs ++ s.returning
  unread : ∀ d ∈ (s.received.flatMap Frame.descs).drop s.handed.length, (s.desc d).own = false
  complete : ∀ c, s.pc = .scan c → ((s.desc s.rxDesc).own = true ∨ N ≤ c) →
    s.outcomes.length = s.received.length

section Exact

variable [NeZero N] [NeZero B] {s : Receiver N B}

/-- A scan that ends without a frame has seen everything there is. -/
theorem RxInv.complete (h : RxInv s) {c : Nat} (hpc : s.pc = .scan c)
    (hexit : (s.desc s.rxDesc).own = true ∨ N ≤ c) : s.outcomes.length = s.received.length := by
  have hphase := h.phase
  simp only [Phase, hpc] at hphase
  rcases hphase with ⟨hbase, hseen, hc⟩
  have hlt := hseen.lt h.ring
  -- The counter cannot run out, since a frame has no more descriptors than the ring.
  have hown : (s.desc s.rxDesc).own = true := by
    rcases hexit with hown | hcount
    · exact hown
    · omega
  by_contra hne
  have htaken := h.taken
  have hk : s.outcomes.length < s.received.length := by omega
  have hrec := List.getElem?_eq_getElem hk
  have hneeded := hseen.lt_needed h.ring (RxRing.frames_of_received hrec)
  rw [← h.ring.full _ (List.getElem_mem hk)] at hneeded
  have hpos := RxRing.start_add_lt (RxRing.frames_of_received hrec) hneeded
  have hheld := h.ring.held (s.base + s.segCount) (by omega) hpos
  rw [← hseen.rxDesc, hown] at hheld
  exact absurd hheld.symm Bool.false_ne_true

omit [NeZero B] in
/-- The descriptors given back are the first ones of the complete frames. -/
theorem RxInv.handed_eq (h : RxInv s) (hle : s.handed.length ≤ start s.received s.received.length) :
    s.handed = (s.received.flatMap Frame.descs).take s.handed.length := by
  have horder := h.ring.order
  rw [RxRing.frames, List.flatMap_append] at horder
  have htake := congrArg (List.take s.handed.length) horder
  rw [List.take_append_of_le_length (by rw [← start_length]; exact hle), ← List.map_take,
    List.take_range, Nat.min_eq_left h.ring.handed_le, ← h.ring.handed] at htake
  exact htake.symm

omit [NeZero B] in
/-- Giving back has come as far as the driver has. -/
theorem RxInv.handed_length (h : RxInv s) :
    ∃ i, s.handed.length = s.base + i ∧
      s.returning = ((s.received.drop s.outcomes.length).flatMap Frame.descs).take i ∧
      s.base + i ≤ start s.received s.received.length := by
  have hphase := h.phase
  have hbase : s.base ≤ start s.received s.received.length := by
    rw [start_length]
    exact start_le _ _
  -- Outside the release nothing of the current frame has been given back.
  have hzero : s.handed.length = s.base → s.returning = [] →
      ∃ i, s.handed.length = s.base + i ∧
        s.returning = ((s.received.drop s.outcomes.length).flatMap Frame.descs).take i ∧
        s.base + i ≤ start s.received s.received.length := by
    intro heq hret
    exact ⟨0, heq, by rw [hret, List.take_zero], hbase⟩
  unfold Phase at hphase
  unfold Receiver.returning at hzero ⊢
  cases hpc : s.pc with
  | release d i p =>
      simp only [hpc] at hphase ⊢
      rcases hphase with ⟨f, hfound, hle, hhanded, -, -⟩
      have hlt := (List.getElem?_eq_some_iff.mp hfound.frame).1
      have hdrop : s.received.drop s.outcomes.length =
          f :: s.received.drop (s.outcomes.length + 1) := by
        rw [List.drop_eq_getElem_cons hlt, (List.getElem?_eq_some_iff.mp hfound.frame).2]
      have hdescs : i ≤ f.descs.length := by
        rw [h.ring.full f (List.mem_of_getElem? hfound.frame), ← hfound.segCount]
        exact hle
      refine ⟨i, hhanded, ?_, ?_⟩
      · rw [hdrop, List.take_succ_cons, List.take_zero, List.flatMap_singleton, List.flatMap_cons,
          List.take_append_of_le_length hdescs]
      · have hend := start_add_le hfound.frame
        rw [← start_length] at hend
        exact Nat.le_trans (Nat.add_le_add_left hdescs _) hend
  | idle =>
      simp only [hpc] at hphase hzero ⊢
      exact hzero hphase.1 trivial
  | scan c =>
      simp only [hpc] at hphase hzero ⊢
      exact hzero hphase.1 trivial
  | alloc =>
      simp only [hpc] at hphase hzero ⊢
      exact hzero hphase.1 trivial
  | copy w pbufs chain =>
      simp only [hpc] at hphase hzero ⊢
      exact hzero hphase.1 trivial

omit [NeZero B] in
/-- A complete frame's descriptor that has not been given back is the driver's. -/
theorem RxInv.unread (h : RxInv s) {d : Fin N}
    (hd : d ∈ (s.received.flatMap Frame.descs).drop s.handed.length) :
    (s.desc d).own = false := by
  rcases List.mem_iff_getElem.mp hd with ⟨j, hj, hval⟩
  rw [List.getElem_drop] at hval
  rw [List.length_drop] at hj
  have hle : (s.received.flatMap Frame.descs).length ≤ s.filled := by
    rw [RxRing.filled_eq, start_length]
    exact Nat.le_add_right _ _
  -- In the order in which they were filled the descriptors are the slots of the ring.
  have horder := congrArg (fun l => l[s.handed.length + j]?) h.ring.order
  rw [RxRing.frames, List.flatMap_append,
    List.getElem?_append_left (by omega : s.handed.length + j <
      (s.received.flatMap Frame.descs).length),
    List.getElem?_eq_getElem (by omega), List.getElem?_map,
    List.getElem?_range (by omega), Option.map_some, Option.some.injEq, hval] at horder
  rw [horder]
  exact h.ring.held _ (Nat.le_add_right _ _) (by omega)

/-- In every run whose frames have lengths that the descriptors can hold, the frames
    are treated exactly, wherever the driver and the DMA are. -/
theorem run_exact {s₀ : Receiver N B} {events : List RxEvent}
    (hrun : run rxStep (halEthDmaRxDescListInit s₀) events = some s)
    (hsmall : ∀ data, RxEvent.frame data ∈ events → data.length < 2 ^ 14) : Exact events s := by
  have h := run_inv hrun
  have haccount := run_accounted hrun
  have hframes := run_small hrun hsmall
  refine ⟨?_, ?_, fun d hd => h.unread hd, fun c hpc hexit => h.complete hpc hexit⟩
  · intro k p hk
    rcases h.outcome k p hk with ⟨f, hf, hp⟩
    rcases haccount.past k p hk with ⟨a, ha, hfits⟩
    refine ⟨f, a, hf, ha, delivered_of_fits (hp (hframes f ?_)) hfits⟩
    exact List.mem_of_getElem? (RxRing.frames_of_received hf)
  · rcases h.handed_length with ⟨i, hlen, hret, hle⟩
    have heq := h.handed_eq (by rw [hlen]; exact hle)
    have hcut : s.received.flatMap Frame.descs =
        (s.received.take s.outcomes.length).flatMap Frame.descs ++
          (s.received.drop s.outcomes.length).flatMap Frame.descs := by
      rw [← List.flatMap_append, List.take_append_drop]
    rw [heq, hret, hlen, hcut, Receiver.base, start, List.take_length_add_append]

/-- A receiver in memory that has been cleared. -/
def blankRx (N B : Nat) [NeZero N] : Receiver N B :=
  { desc := fun _ => { own := false, fs := false, ls := false, fl := 0, next := slot N 0 }
    buf := fun _ _ => 0
    dma := slot N 0
    incoming := none
    received := []
    handed := []
    rxDesc := slot N 0
    fsRxDesc := slot N 0
    segCount := 0
    length := 0
    buffer := slot N 0
    pc := .idle
    outcomes := [] }

/-- Two calls for a frame in two descriptors: the first one finds only the front. -/
def twoCalls : List RxEvent :=
  [.frame [1, 2, 3, 4, 5, 6], .fill, .call, .scan, .scan, .fill, .call, .scan, .alloc (some [1, 1]),
    .copy, .copy, .copy, .release, .release, .release]

theorem run_exact_twoCalls :
    ∃ s, run rxStep (halEthDmaRxDescListInit (blankRx 2 4)) twoCalls = some s ∧
      s.outcomes = [.returned [[1], [2]]] ∧ Exact twoCalls s := by
  have hrun : (run rxStep (halEthDmaRxDescListInit (blankRx 2 4)) twoCalls).map
      (fun s => (s.outcomes.length, s.received.map Frame.data)) =
        some (1, [[1, 2, 3, 4, 5, 6]]) := rfl
  rcases Option.map_eq_some_iff.mp hrun with ⟨s, hs, hpair⟩
  rw [Prod.mk.injEq] at hpair
  have hexact : Exact twoCalls s := by
    refine run_exact hs fun data hdata => ?_
    simp only [twoCalls, List.mem_cons, RxEvent.frame.injEq, reduceCtorEq, List.not_mem_nil,
      or_self, or_false] at hdata
    rw [hdata]
    decide
  refine ⟨s, hs, ?_, hexact⟩
  rcases List.length_eq_one_iff.mp hpair.1 with ⟨p, hp⟩
  rcases hexact.outcome 0 p (by rw [hp]; rfl) with ⟨f, a, hf, ha, hd⟩
  -- The only allocation was of two packet buffers of one byte.
  have hchain : a = some [1, 1] := (Option.some.inj ha).symm
  have hdata : f.data = [1, 2, 3, 4, 5, 6] := by
    have hmap := congrArg (fun l => l[0]?) hpair.2
    rw [List.getElem?_map, hf] at hmap
    exact Option.some.inj hmap
  rw [hchain] at hd
  rcases hd with ⟨chain, rfl, hlens, hbytes⟩
  rw [hdata] at hbytes
  rw [hp]
  match chain, hlens, hbytes with
  | [[x], [y]], _, hbytes =>
      simp only [List.flatten_cons, List.flatten_nil, List.cons_append, List.nil_append] at hbytes
      cases hbytes
      rfl

/-- A frame of `16388` bytes is reported as one of four, which is nothing but a
    checksum. Its descriptor is given back and the frame is gone. -/
theorem not_exact_longFrame :
    ¬ ∀ (N B : Nat) [NeZero N] [NeZero B] (s₀ s : Receiver N B) (events : List RxEvent),
      run rxStep (halEthDmaRxDescListInit s₀) events = some s → Exact events s := by
  intro h
  have hlen : (List.replicate 16388 (0 : UInt8)).length = 16388 := List.length_replicate
  generalize hdata : List.replicate 16388 (0 : UInt8) = data at hlen
  have hrun : (run rxStep (halEthDmaRxDescListInit (blankRx 1 16388))
      [.frame data, .fill, .call, .scan, .alloc (some []), .release, .release]).map
      (fun s => s.outcomes) = some [.noLength] := by
    simp [run, rxStep, halEthDmaRxDescListInit, blankRx, RxRing.fill, Receiver.scanTurn,
      Receiver.onAlloc, Receiver.releaseTurn, RxRing.handBack, needed, hlen, slot]
  rcases Option.map_eq_some_iff.mp hrun with ⟨s, hs, hout⟩
  have hexact := h 1 16388 _ s _ hs
  rcases hexact.outcome 0 .noLength (by rw [hout]; rfl) with ⟨f, a, -, ha, hd⟩
  have hempty : a = some [] := (Option.some.inj ha).symm
  rw [hempty] at hd
  rcases hd with ⟨chain, hret, -⟩
  cases hret

end Exact

end Eth

end Firmware
