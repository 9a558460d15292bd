import Firmware.Hal.Tick

/-!
# SPI Transfers in Chunks

`spixfer` from `drivers/drv_spi.c`, the transfer of one message.

The HAL counts in sixteen bits, so a message is exchanged in chunks of at most
65535 bytes. The loop counts down what remains and computes where a chunk starts
from the length of the message, the size of the chunk and what remains behind it.
When a chunk fails, the function sets the length of the message to zero, which is
what it will return; but the loop goes on, and from then on the same computation
yields addresses before the buffers.

`chunked_iff` says that this is the only thing that goes wrong: a transfer is as it
should be exactly if no chunk before the last one fails.

## Main definitions

* `Message`: The message of a transfer.
* `exchange`: The HAL calls for one chunk.
* `xferLoop`: The loop over the chunks.
* `spixfer`: The whole transfer.
* `Chunked`: What a transfer should look like.

## Theorems

* `lt_length_calls_iff`: How many chunks there are, whatever the HAL returns.
* `xferLoop_spec`: The loop as long as no chunk before the last one fails.
* `chunked_iff`: When a transfer is as it should be.
* `not_chunked_second_chunk`: The chunk behind a failed one.
-/

namespace Firmware

namespace Spi

/-- `struct rt_spi_message`; of the buffers it matters whether they are there. -/
structure Message where
  sendBuf : Bool
  recvBuf : Bool
  length : UInt32
  csTake : Bool
  csRelease : Bool
  deriving DecidableEq, Repr

/-- A piece of the buffers: where it starts and how long it is. -/
structure Chunk where
  offset : UInt32
  size : UInt16
  deriving DecidableEq, Repr

/-- What a transfer does, in order. -/
inductive Action where
  | cs (level : Bool)
  | memset (c : Chunk)
  | transmitReceive (c : Chunk)
  | transmit (c : Chunk)
  | receive (c : Chunk)
  deriving DecidableEq, Repr

/-- The chunk of a HAL call. -/
def Action.chunk? : Action → Option Chunk
  | .transmitReceive c => some c
  | .transmit c => some c
  | .receive c => some c
  | .cs _ => none
  | .memset _ => none

/-- The piece that is filled with `0xff`. -/
def Action.fill? : Action → Option Chunk
  | .memset c => some c
  | _ => none

/-- The chunks passed to the HAL. -/
def calls (as : List Action) : List Chunk := as.filterMap Action.chunk?

/-- The pieces filled before they are received. -/
def fills (as : List Action) : List Chunk := as.filterMap Action.fill?

/-- One chunk is exchanged. -/
def exchange (m : Message) (c : Chunk) : List Action :=
  if m.sendBuf && m.recvBuf then [.transmitReceive c]
  else if m.sendBuf then [.transmit c]
  else [.memset c, .receive c]

/-- `send_length`, from what remains. -/
def sendLength (remaining : UInt32) : UInt16 :=
  if 65535 < remaining then 65535 else remaining.toUInt16

/-- `message_length` behind the chunk. -/
def remainder (remaining : UInt32) : UInt32 :=
  if 65535 < remaining then remaining - 65535 else 0

theorem toNat_sendLength (r : UInt32) : (sendLength r).toNat = min 65535 r.toNat := by
  have h : (65535 : UInt32).toNat = 65535 := rfl
  unfold sendLength
  split
  · rename_i hlt
    rw [UInt32.lt_iff_toNat_lt, h] at hlt
    rw [min_eq_left (by omega)]
    rfl
  · rename_i hle
    rw [UInt32.lt_iff_toNat_lt, h] at hle
    rw [UInt32.toNat_toUInt16, min_eq_right (by omega)]
    omega

theorem toNat_remainder (r : UInt32) : (remainder r).toNat = r.toNat - 65535 := by
  have h : (65535 : UInt32).toNat = 65535 := rfl
  have hr := r.toNat_lt
  unfold remainder
  split
  · rename_i hlt
    rw [UInt32.lt_iff_toNat_lt, h] at hlt
    rw [UInt32.toNat_sub, h]
    omega
  · rename_i hle
    rw [UInt32.lt_iff_toNat_lt, h] at hle
    have h0 : (0 : UInt32).toNat = 0 := rfl
    omega

/-- The loop of `spixfer`. The results of the HAL are numbered by chunk; what is
    returned beside the actions is `message->length`, which a failure sets to zero. -/
def xferLoop (m : Message) (results : Nat → HalStatus) (i : Nat) (remaining length : UInt32) :
    List Action × UInt32 :=
  if _h : remaining = 0 then ([], length)
  else
    -- The start address is computed from the length of the message as it is now.
    let offset := length - (sendLength remaining).toUInt32 - remainder remaining
    let length' := if results i = .ok then length else 0
    let rest := xferLoop m results (i + 1) (remainder remaining) length'
    (exchange m ⟨offset, sendLength remaining⟩ ++ rest.1, rest.2)
termination_by remaining.toNat
decreasing_by
  have hpos : remaining.toNat ≠ 0 := fun h0 => _h (UInt32.toNat_inj.mp h0)
  rw [toNat_remainder]
  omega

/-- `spixfer`: what it does and what it returns. -/
def spixfer (m : Message) (results : Nat → HalStatus) : List Action × UInt32 :=
  let body := xferLoop m results 0 m.length m.length
  ((if m.csTake then [.cs false] else []) ++ body.1 ++ (if m.csRelease then [.cs true] else []),
    body.2)

/-- The chunks follow one another from `off` on, none of them empty or too long for
    the HAL, and stay below `n`. -/
def Tiled (n : Nat) : Nat → List Chunk → Prop
  | _, [] => True
  | off, c :: cs => c.offset.toNat = off ∧ 1 ≤ c.size.toNat ∧ c.size.toNat ≤ 65535 ∧
      off + c.size.toNat ≤ n ∧ Tiled n (off + c.size.toNat) cs

/-- The bytes of some chunks. -/
def total (cs : List Chunk) : Nat := (cs.map fun c => c.size.toNat).sum

/-- What a transfer should look like. -/
structure Chunked (m : Message) (results : Nat → HalStatus) (out : List Action × UInt32) :
    Prop where
  tiled : Tiled m.length.toNat 0 (calls out.1)
  filled : ∀ c ∈ fills out.1, c ∈ calls out.1
  stops : ∀ k, k + 1 < (calls out.1).length → results k = .ok
  complete : (∀ k < (calls out.1).length, results k = .ok) →
    total (calls out.1) = m.length.toNat ∧ out.2 = m.length
  failed : (∃ k < (calls out.1).length, results k ≠ .ok) → out.2 = 0
  released : m.csRelease = true → out.1.getLast? = some (.cs true)

variable {m : Message} {results : Nat → HalStatus}

theorem calls_append (as bs : List Action) : calls (as ++ bs) = calls as ++ calls bs :=
  List.filterMap_append

theorem fills_append (as bs : List Action) : fills (as ++ bs) = fills as ++ fills bs :=
  List.filterMap_append

/-- Whichever buffers there are, a chunk is one call. -/
theorem calls_exchange (m : Message) (c : Chunk) : calls (exchange m c) = [c] := by
  unfold exchange
  split
  · rfl
  · split <;> rfl

theorem fills_exchange (m : Message) (c : Chunk) : ∀ d ∈ fills (exchange m c), d = c := by
  unfold exchange
  split
  · nofun
  · split
    · nofun
    · intro d hd
      exact List.mem_singleton.mp hd

theorem xferLoop_zero (i : Nat) (length : UInt32) :
    xferLoop m results i 0 length = ([], length) := by
  rw [xferLoop, dif_pos rfl]

theorem xferLoop_step {i : Nat} {r length : UInt32} (hr : r ≠ 0) :
    xferLoop m results i r length =
      (exchange m ⟨length - (sendLength r).toUInt32 - remainder r, sendLength r⟩ ++
        (xferLoop m results (i + 1) (remainder r) (if results i = .ok then length else 0)).1,
        (xferLoop m results (i + 1) (remainder r) (if results i = .ok then length else 0)).2) := by
  rw [xferLoop, dif_neg hr]

/-- The chunks of a loop are numbered by multiples of the largest size, whatever the
    HAL returns. -/
theorem lt_length_calls_iff (i : Nat) (r length : UInt32) (k : Nat) :
    k < (calls (xferLoop m results i r length).1).length ↔ k * 65535 < r.toNat := by
  by_cases hr : r = 0
  · subst hr
    rw [xferLoop_zero]
    simp [calls]
  · -- The first chunk is sent in any case.
    have hpos : r.toNat ≠ 0 := fun h0 => hr (UInt32.toNat_inj.mp h0)
    have hrem := toNat_remainder r
    rw [xferLoop_step hr, calls_append, calls_exchange, List.singleton_append, List.length_cons]
    cases k with
    | zero => omega
    | succ k =>
        -- One full chunk fewer remains, and every number is one less.
        have ih := lt_length_calls_iff (i + 1) (remainder r)
          (if results i = .ok then length else 0) k
        rw [Nat.add_lt_add_iff_right, ih, hrem]
        omega
termination_by r.toNat
decreasing_by
  rw [toNat_remainder]
  omega

/-- Where a chunk starts as long as the length has not been reset. -/
theorem toNat_offset {r length : UInt32} (hle : r.toNat ≤ length.toNat) :
    (length - (sendLength r).toUInt32 - remainder r).toNat = length.toNat - r.toNat := by
  have hs := toNat_sendLength r
  have hrem := toNat_remainder r
  have hlen := length.toNat_lt
  rw [UInt32.toNat_sub, UInt32.toNat_sub, UInt16.toNat_toUInt32, hs, hrem]
  omega

/-- What the loop does from the point where `r` of `length` bytes remain: the chunks
    tile what remains, and the length survives if all of them succeed. -/
structure Loops (results : Nat → HalStatus) (i r length : Nat) (out : List Action × UInt32) :
    Prop where
  tiled : Tiled length (length - r) (calls out.1)
  filled : ∀ c ∈ fills out.1, c ∈ calls out.1
  total : total (calls out.1) = r
  kept : (∀ k < (calls out.1).length, results (i + k) = .ok) → out.2.toNat = length
  reset : (∃ k < (calls out.1).length, results (i + k) ≠ .ok) → out.2 = 0

/-- A chunk in front of a loop. -/
theorem Loops.cons {i r n : Nat} {c : Chunk} {out : List Action × UInt32} (hle : r ≤ n)
    (hoff : c.offset.toNat = n - r) (hpos : 1 ≤ c.size.toNat) (hsize : c.size.toNat ≤ r)
    (hok : results i = .ok) (h : Loops results (i + 1) (r - c.size.toNat) n out) :
    Loops results i r n (exchange m c ++ out.1, out.2) := by
  have hcalls : calls (exchange m c ++ out.1) = c :: calls out.1 := by
    rw [calls_append, calls_exchange, List.singleton_append]
  refine ⟨?_, ?_, ?_, ?_, ?_⟩
  · rw [hcalls]
    refine ⟨hoff, hpos, by have := c.size.toNat_lt; omega, by omega, ?_⟩
    have htiled := h.tiled
    rwa [show n - (r - c.size.toNat) = n - r + c.size.toNat by omega] at htiled
  · intro d hd
    rw [fills_append, List.mem_append] at hd
    rw [hcalls]
    rcases hd with hd | hd
    · rw [fills_exchange m c d hd]
      exact List.mem_cons_self
    · exact List.mem_cons_of_mem c (h.filled d hd)
  · -- The bytes of this chunk and those of the others are what remained.
    have htotal := h.total
    rw [hcalls]
    simp only [Spi.total, List.map_cons, List.sum_cons] at htotal ⊢
    omega
  · intro hall
    rw [hcalls] at hall
    refine h.kept fun k hk => ?_
    rw [show i + 1 + k = i + (k + 1) by omega]
    exact hall (k + 1) (by rw [List.length_cons]; omega)
  · rintro ⟨k, hk, hbad⟩
    rw [hcalls, List.length_cons] at hk
    -- The chunk in front went well, so the bad result belongs to one behind it.
    cases k with
    | zero => exact absurd hok hbad
    | succ k =>
        refine h.reset ⟨k, by omega, ?_⟩
        rwa [show i + 1 + k = i + (k + 1) by omega]

/-- The last chunk. -/
theorem loops_last {i n : Nat} {c : Chunk} {length : UInt32} (hn : length.toNat = n)
    (hsize : 1 ≤ c.size.toNat ∧ c.size.toNat ≤ n) (hoff : c.offset.toNat = n - c.size.toNat) :
    Loops results i c.size.toNat n
      (exchange m c ++ [], if results i = .ok then length else 0) := by
  have hcalls : calls (exchange m c ++ []) = [c] := by
    rw [List.append_nil, calls_exchange]
  refine ⟨?_, ?_, ?_, ?_, ?_⟩
  · rw [hcalls]
    exact ⟨hoff, hsize.1, by have := c.size.toNat_lt; omega, by omega, trivial⟩
  · intro d hd
    rw [List.append_nil] at hd
    rw [hcalls, fills_exchange m c d hd]
    exact List.mem_singleton.mpr rfl
  · rw [hcalls]
    simp [Spi.total]
  · intro hall
    have hok := hall 0 (by rw [hcalls]; exact Nat.one_pos)
    rw [Nat.add_zero] at hok
    rw [if_pos hok, hn]
  · rintro ⟨k, hk, hbad⟩
    rw [hcalls, List.length_singleton, Nat.lt_one_iff] at hk
    rw [hk, Nat.add_zero] at hbad
    rw [if_neg hbad]

theorem chunk_before {k r : Nat} (h : (k + 1) * 65535 < r - 65535) :
    (k + 1 + 1) * 65535 < r := by
  rw [Nat.add_mul (k + 1) 1, Nat.one_mul]
  exact Nat.add_lt_of_lt_sub h

/-- The loop as long as no chunk before the last one fails. -/
theorem xferLoop_spec {i : Nat} {r length : UInt32} (hle : r.toNat ≤ length.toNat)
    (hok : ∀ k, (k + 1) * 65535 < r.toNat → results (i + k) = .ok) :
    Loops results i r.toNat length.toNat (xferLoop m results i r length) := by
  by_cases hr : r = 0
  · subst hr
    rw [xferLoop_zero]
    exact ⟨trivial, nofun, rfl, fun _ => rfl, fun ⟨k, hk, _⟩ => absurd hk (Nat.not_lt_zero k)⟩
  · have hpos : r.toNat ≠ 0 := fun h0 => hr (UInt32.toNat_inj.mp h0)
    have hs := toNat_sendLength r
    have hrem := toNat_remainder r
    have hoff := toNat_offset hle
    rw [xferLoop_step hr]
    by_cases hlast : r.toNat ≤ 65535
    · -- One chunk takes all that remains.
      have hz : remainder r = 0 := UInt32.toNat_inj.mp (by
        have h0 : (0 : UInt32).toNat = 0 := rfl
        omega)
      have hsize : (sendLength r).toNat = r.toNat := by omega
      rw [hz, xferLoop_zero]
      rw [hz] at hoff
      have hone : 1 ≤ (sendLength r).toNat := by omega
      have hfit : (sendLength r).toNat ≤ length.toNat := by omega
      have hstart : (length - (sendLength r).toUInt32 - 0).toNat =
          length.toNat - (sendLength r).toNat := by rw [hoff, hsize]
      have h : Loops results i (sendLength r).toNat length.toNat
          (exchange m ⟨length - (sendLength r).toUInt32 - 0, sendLength r⟩ ++ [],
            if results i = .ok then length else 0) :=
        loops_last (c := ⟨length - (sendLength r).toUInt32 - 0, sendLength r⟩) rfl ⟨hone, hfit⟩
          hstart
      rwa [hsize] at h
    · -- A full chunk, which has to succeed because it is not the last.
      have hfirst : results i = .ok := hok 0 (by omega)
      have hsize : (sendLength r).toNat = 65535 := by omega
      have hone : 1 ≤ (sendLength r).toNat := by omega
      have hfit : (sendLength r).toNat ≤ r.toNat := by omega
      have hrest : ∀ k, (k + 1) * 65535 < (remainder r).toNat → results (i + 1 + k) = .ok := by
        intro k hk
        rw [hrem] at hk
        rw [show i + 1 + k = i + (k + 1) by omega]
        exact hok (k + 1) (chunk_before hk)
      have ih : Loops results (i + 1) (remainder r).toNat length.toNat
          (xferLoop m results (i + 1) (remainder r) length) :=
        xferLoop_spec (by omega) hrest
      rw [if_pos hfirst]
      rw [hrem, ← hsize] at ih
      exact Loops.cons hle hoff hone hfit hfirst ih
termination_by r.toNat
decreasing_by
  rw [toNat_remainder]
  omega

theorem calls_spixfer (m : Message) (results : Nat → HalStatus) :
    calls (spixfer m results).1 = calls (xferLoop m results 0 m.length m.length).1 := by
  have htake : calls (if m.csTake then [.cs false] else []) = [] := by split <;> rfl
  have hrelease : calls (if m.csRelease then [.cs true] else []) = [] := by split <;> rfl
  rw [spixfer, calls_append, calls_append, htake, hrelease, List.nil_append, List.append_nil]

theorem fills_spixfer (m : Message) (results : Nat → HalStatus) :
    fills (spixfer m results).1 = fills (xferLoop m results 0 m.length m.length).1 := by
  have htake : fills (if m.csTake then [.cs false] else []) = [] := by split <;> rfl
  have hrelease : fills (if m.csRelease then [.cs true] else []) = [] := by split <;> rfl
  rw [spixfer, fills_append, fills_append, htake, hrelease, List.nil_append, List.append_nil]

/-- For every message and every sequence of results of the HAL, the transfer is as it
    should be exactly if every chunk but the last one succeeds. -/
theorem chunked_iff (m : Message) (results : Nat → HalStatus) :
    Chunked m results (spixfer m results) ↔
      ∀ k, (k + 1) * 65535 < m.length.toNat → results k = .ok := by
  have hlt : ∀ k, k < (calls (xferLoop m results 0 m.length m.length).1).length ↔
      k * 65535 < m.length.toNat := lt_length_calls_iff 0 m.length m.length
  constructor
  · -- The chunk behind `k` is sent in any case, so `k` has to have succeeded.
    intro h k hk
    refine h.stops k ?_
    rw [calls_spixfer]
    exact (hlt (k + 1)).mpr hk
  · intro hok
    have hloop : Loops results 0 m.length.toNat m.length.toNat
        (xferLoop m results 0 m.length m.length) :=
      xferLoop_spec (le_refl _) fun k hk => by rw [Nat.zero_add]; exact hok k hk
    have htiled := hloop.tiled
    rw [Nat.sub_self] at htiled
    refine ⟨?_, ?_, ?_, ?_, ?_, ?_⟩
    · rw [calls_spixfer]
      exact htiled
    · rw [calls_spixfer, fills_spixfer]
      exact hloop.filled
    · intro k hk
      rw [calls_spixfer, hlt] at hk
      exact hok k hk
    · intro hall
      rw [calls_spixfer] at hall ⊢
      refine ⟨hloop.total, UInt32.toNat_inj.mp (hloop.kept fun k hk => ?_)⟩
      rw [Nat.zero_add]
      exact hall k hk
    · rintro ⟨k, hk, hbad⟩
      rw [calls_spixfer] at hk
      exact hloop.reset ⟨k, hk, by rwa [Nat.zero_add]⟩
    · intro hrel
      rw [spixfer, if_pos hrel, List.getLast?_concat]

/-- A read of two full chunks, the first of which times out. -/
def twoChunks : Message := ⟨false, true, 131070, true, true⟩

def firstFails (k : Nat) : HalStatus := if k = 0 then .timeout else .ok

/-- The second chunk is received, and before that filled, in front of the buffer. -/
theorem not_chunked_second_chunk :
    (spixfer twoChunks firstFails).1 =
      [.cs false, .memset ⟨0, 65535⟩, .receive ⟨0, 65535⟩,
        .memset ⟨4294901761, 65535⟩, .receive ⟨4294901761, 65535⟩, .cs true] ∧
    ¬ Chunked twoChunks firstFails (spixfer twoChunks firstFails) := by
  have hloop : (spixfer twoChunks firstFails).1 =
      [.cs false, .memset ⟨0, 65535⟩, .receive ⟨0, 65535⟩,
        .memset ⟨4294901761, 65535⟩, .receive ⟨4294901761, 65535⟩, .cs true] := by
    have hrem : remainder 131070 = 65535 := by decide
    have hrem' : remainder 65535 = 0 := by decide
    rw [spixfer, twoChunks, xferLoop_step (by decide), hrem, xferLoop_step (by decide), hrem',
      xferLoop_zero]
    rfl
  refine ⟨hloop, fun h => ?_⟩
  have hstop := h.stops 0 (by rw [hloop]; decide)
  exact absurd hstop (by decide)

end Spi

end Firmware
