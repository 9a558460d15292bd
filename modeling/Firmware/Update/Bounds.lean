import Firmware.Update.Server

/-!
# Buffer Bounds of the Update Server

Where the receives of the update server put their bytes, over every run.

Offsets into the page buffer and the length buffer are sums of signed results, so
whether a receive stays inside its buffer depends on everything that was returned
before it. `InBounds` is the property of one state: the pending call targets a
range inside the buffer it names, and the page buffer is allocated when it is the
target.

The property does not hold in every reachable state. A negative result is added
to `data_index` like any other and the loop goes round again, so the next receive
starts in front of its buffer; and a failed allocation is reported and then
ignored, so the page goes to a null pointer. `Contained` names the answers that
avoid both. A negative result on the last retry is harmless, no receive following
it, and a connection without a page buffer is harmless as long as no frame that
uses it arrives.

The invariant behind the theorem is `BoundsInv`: at each call, the facts about
`index`, `dataIndex` and the state of `blocking_lwip_recv` that the calls after
it need. `pack_count` outlasts connections, and staying below four is the part of
the invariant that does too.

## Main definitions

* `InBounds`: The pending call writes inside the buffer it names.
* `Contained`: An answer that keeps the offsets where they belong.
* `BoundsInv`: What holds at each call of a contained run.

## Theorems

* `boundsInv_step`: A contained step preserves the invariant.
* `inBounds_of_boundsInv`: The invariant puts the pending call in bounds.
* `run_inBounds`: Every receive of a contained run is in bounds.
* `not_inBounds_after_error`: A failed receive moves the next one in front of
  its buffer.
-/

namespace Firmware

namespace Update

/-- The server when the kernel starts it: the file-level variables are zero and
    no buffer is allocated. The locals are not initialised. -/
structure Booted (s : Server) : Prop where
  pc : s.pc = .accept
  headerBuf : s.headerBuf = fun _ => 0
  totalSize : s.totalSize = 0
  pageOffset : s.pageOffset = 0
  packCount : s.packCount = 0
  dataBuf : s.dataBuf = none

/-- The pending call targets a range inside its buffer. The information sector is
    written right behind `WBIGU4`, which has just stored into the same buffer. -/
def InBounds (s : Server) : Prop :=
  match s.call with
  | .recvHeader off len => 0 ≤ off ∧ off + len ≤ headerLen
  | .recvLength off len => 0 ≤ off ∧ off + len ≤ 4
  | .recvPage off len => s.dataBuf.isSome ∧ 0 ≤ off ∧ off + len ≤ bufSz
  | .write sector page => sector = updateInfoAddr → page.isSome
  | _ => True

/-- The answer keeps the offsets in range: a receive of a payload fails only on
    the last retry, and a connection whose allocation failed gets no `STX` and no
    `EOT` header that is accepted. -/
def Contained (s : Server) (a : Answer) : Prop :=
  match s.pc, a with
  | .headerRecv, .received (.data x [y, z]) =>
      -- A header whose check bytes do not fit is refused, whatever frame it names.
      y.toNat + z.toNat = 0xff → s.dataBuf.isSome ∨ (x ≠ stx ∧ x ≠ eot)
  | .sohRecv, .received r => 0 ≤ r.ret ∨ s.retry = 0
  | .stxRecv _, .selected ret => 0 ≤ ret ∨ s.retry = 0
  | .stxRecv _, .received r => 0 < r.ret ∨ s.retry = 0
  | _, _ => True

/-- The invariant of contained runs, call by call. -/
def BoundsInv (s : Server) : Prop :=
  s.packCount < 4 ∧
  match s.pc with
  | .headerRecv => 0 ≤ s.index ∧ s.index < headerLen
  | .headerNak => s.headerBuf 0 = nak
  | .sohRecv => 0 ≤ s.dataIndex ∧ s.dataIndex < 4
  | .sohNak => s.retry = 0
  | .stxRecv b => s.dataBuf.isSome ∧ 0 ≤ s.dataIndex ∧ s.dataIndex < maxDataSize ∧
      b.mem = s.packCount * maxDataSize + s.dataIndex ∧ b.len = maxDataSize - s.dataIndex ∧
      0 ≤ b.offset ∧ b.offset < b.len
  | .stxNak => s.dataBuf.isSome ∧ s.retry = 0
  | .eotWrite => s.dataBuf.isSome
  | .eotInfo => s.dataBuf.isSome
  | _ => True

section Pieces

variable {s : Server}

theorem boundsInv_nextFrame (hp : s.packCount < 4) : BoundsInv s.nextFrame :=
  ⟨hp, by simp only [Server.nextFrame, headerLen]; omega⟩

theorem boundsInv_exit (hp : s.packCount < 4) : BoundsInv s.exit := ⟨hp, trivial⟩

theorem boundsInv_sohDone : BoundsInv s.sohDone := by
  refine ⟨?_, trivial⟩
  simp only [Server.sohDone, Server.reply]
  omega

/-- A negative `dataIndex` does no harm once the retries are used up. -/
theorem boundsInv_sohLoop (hp : s.packCount < 4) (hd : 0 ≤ s.dataIndex ∨ s.retry = 0) :
    BoundsInv s.sohLoop := by
  unfold Server.sohLoop
  split
  · rename_i hlt
    split
    · rename_i hr
      exact ⟨hp, by simp only; omega⟩
    · exact boundsInv_sohDone
  · exact boundsInv_sohDone

theorem boundsInv_stxDone (hp : s.packCount < 4) : BoundsInv s.stxDone := by
  unfold Server.stxDone
  split
  · exact ⟨by simp only; omega, trivial⟩
  · -- The count wraps at `2 ^ 16` only in theory: below four it is raised by one.
    rename_i h4
    refine ⟨?_, trivial⟩
    simp only [Server.reply]
    omega

theorem boundsInv_stxLoop (hp : s.packCount < 4) (hb : s.dataBuf.isSome)
    (hd : 0 ≤ s.dataIndex ∨ s.retry = 0) : BoundsInv s.stxLoop := by
  unfold Server.stxLoop
  split
  · rename_i hlt
    split
    · -- A new receive of what is missing, which is something.
      rename_i hr
      refine ⟨hp, hb, by simp only; omega, hlt, rfl, rfl, le_refl 0, ?_⟩
      simp only [blockingLwipRecv]
      omega
    · exact boundsInv_stxDone hp
  · exact boundsInv_stxDone hp

theorem boundsInv_eotInfo (hp : s.packCount < 4) (hb : s.dataBuf.isSome) :
    BoundsInv s.eotInfo := by
  refine ⟨hp, ?_⟩
  simp only [Server.eotInfo, Option.isSome_map]
  exact hb

theorem boundsInv_eotStart (hp : s.packCount < 4) (hb : s.dataBuf.isSome) :
    BoundsInv s.eotStart := by
  unfold Server.eotStart
  split
  · exact ⟨by simp only; omega, hb⟩
  · exact boundsInv_eotInfo hp hb

/-- The branch on the frame byte needs the page buffer for two of the frames. -/
theorem boundsInv_dispatch (hp : s.packCount < 4)
    (hb : s.headerBuf 0 = stx ∨ s.headerBuf 0 = eot → s.dataBuf.isSome) :
    BoundsInv s.dispatch := by
  unfold Server.dispatch
  split
  · exact boundsInv_sohLoop hp (Or.inl (le_refl 0))
  · split
    · rename_i hx
      exact boundsInv_stxLoop hp (hb (Or.inl hx)) (Or.inl (le_refl 0))
    · split
      · rename_i hx
        exact boundsInv_eotStart hp (hb (Or.inr hx))
      · exact boundsInv_nextFrame hp

theorem boundsInv_onBlock (ret : Int) (hp : s.packCount < 4) (hb : s.dataBuf.isSome)
    (hd : 0 ≤ s.dataIndex) (hr : 0 ≤ ret ∨ s.retry = 0) : BoundsInv (s.onBlock ret) := by
  unfold Server.onBlock
  split
  · exact boundsInv_stxLoop hp hb (Or.inl hd)
  · simp only
    split
    · -- The retries are used up, and `NAK` is sent.
      rename_i hz
      exact ⟨hp, hb, hz⟩
    · rename_i hz
      refine boundsInv_stxLoop hp hb (Or.inl ?_)
      simp only
      omega

end Pieces

/-- A reply either leaves through `exit` or goes on. -/
theorem boundsInv_onSent {s : Server} (ret : Int) (k : Server → Server) (hp : s.packCount < 4)
    (hk : BoundsInv (k s)) : BoundsInv (s.onSent ret k) := by
  unfold Server.onSent
  split
  · exact boundsInv_exit hp
  · exact hk

theorem boundsInv_onHeader {s : Server} (r : Recv) (h : s.pc = .headerRecv) (hI : BoundsInv s)
    (hr : r.ret ≤ headerLen - s.index) (hG : Contained s (.received r)) :
    BoundsInv (s.onHeader r) := by
  have h2 := hI.2
  simp only [h] at h2
  rcases onHeader_cases s r hr with
    ⟨-, he⟩ | ⟨hp, hlt, he⟩ | ⟨-, -, -, he⟩ | ⟨x, y, z, rfl, -, hsum, he⟩ <;> rw [he]
  · exact hI
  · refine ⟨hI.1, ?_⟩
    simp only [h]
    omega
  · exact ⟨hI.1, rfl⟩
  · -- The frame byte `dispatch` looks at is the one the condition speaks of.
    refine boundsInv_dispatch hI.1 (fun hx => ?_)
    simp only [Contained, h] at hG
    rcases hG hsum with hG | ⟨h1, h2⟩
    · exact hG
    · rcases hx with hx | hx
      · exact absurd hx h1
      · exact absurd hx h2

theorem boundsInv_onLength {s : Server} (r : Recv) (h : s.pc = .sohRecv) (hI : BoundsInv s)
    (hG : Contained s (.received r)) : BoundsInv (s.onLength r) := by
  have hidx : 0 ≤ s.dataIndex := by
    have h2 := hI.2
    simp only [h] at h2
    exact h2.1
  simp only [Contained, h] at hG
  unfold Server.onLength
  simp only
  split
  · exact boundsInv_sohLoop hI.1 (Or.inl hidx)
  · split
    · rename_i hz
      exact ⟨hI.1, hz⟩
    · rename_i hz
      refine boundsInv_sohLoop hI.1 (Or.inl ?_)
      simp only
      omega

/-- `blocking_lwip_recv` waits again, with the bytes it has stored. -/
theorem boundsInv_running {s : Server} {b b' : BlockingRecv} (h : s.pc = .stxRecv b)
    (hI : BoundsInv s) (f : Page → Page) (hm : b'.mem = b.mem) (hl : b'.len = b.len)
    (ho : 0 ≤ b'.offset) (hlt : b'.offset < b'.len) :
    BoundsInv (Server.onOutcome { s with dataBuf := s.dataBuf.map f } (.running b')) := by
  have h2 := hI.2
  simp only [h] at h2
  rcases h2 with ⟨hb, hd0, hd1, hmem, hlen, -, -⟩
  refine ⟨hI.1, ?_, hd0, hd1, hm.trans hmem, hl.trans hlen, ho, hlt⟩
  change (s.dataBuf.map f).isSome = true
  rw [Option.isSome_map]
  exact hb

/-- It returns: an error only where the caller's loop ends with it. -/
theorem boundsInv_returned {s : Server} {b : BlockingRecv} (h : s.pc = .stxRecv b)
    (hI : BoundsInv s) (f : Page → Page) {ret : Int} (hret : 0 ≤ ret ∨ s.retry = 0) :
    BoundsInv (Server.onOutcome { s with dataBuf := s.dataBuf.map f } (.returned ret)) := by
  have h2 := hI.2
  simp only [h] at h2
  rcases h2 with ⟨hb, hd0, -, -, -, -, -⟩
  refine boundsInv_onBlock ret hI.1 ?_ hd0 hret
  change (s.dataBuf.map f).isSome = true
  rw [Option.isSome_map]
  exact hb

theorem boundsInv_step (s : Server) (a : Answer) (s' : Server) (hI : BoundsInv s)
    (hG : Contained s a) (hs : step s a = some s') : BoundsInv s' := by
  have h2 := hI.2
  -- Only the receives and the replies behind them lead to places with something to show.
  cases step_cases hs with
  | accept h fd => exact ⟨hI.1, trivial⟩
  | mutexTake h => exact ⟨hI.1, trivial⟩
  | malloc h p => exact boundsInv_nextFrame hI.1
  | headerRecv h r hr => exact boundsInv_onHeader r h hI hr hG
  | headerNak h ret =>
      simp only [h] at h2
      refine boundsInv_onSent ret _ hI.1 (boundsInv_dispatch hI.1 (fun hx => ?_))
      rw [h2] at hx
      exact absurd hx (by decide)
  | sohRecv h r hr => exact boundsInv_onLength r h hI hG
  | sohNak h ret =>
      simp only [h] at h2
      exact boundsInv_onSent ret _ hI.1 (boundsInv_sohLoop hI.1 (Or.inr h2))
  | sohAck h ret => exact boundsInv_onSent ret _ hI.1 (boundsInv_nextFrame hI.1)
  | select h hb ret =>
      rename_i b
      -- A select stores nothing.
      have hopt : s = { s with dataBuf := s.dataBuf.map id } := by
        simp only [Option.map_id, id_eq]
      simp only [h] at h2
      simp only [Contained, h] at hG
      rw [hopt]
      rcases onSelect_cases b ret with ⟨-, ho⟩ | ⟨-, ho⟩ | ⟨-, ho⟩
      · rw [ho]
        exact boundsInv_returned h hI id (Or.inl h2.2.2.2.2.2.1)
      · rw [ho]
        exact boundsInv_returned h hI id hG
      · rw [ho]
        exact boundsInv_running h hI id rfl rfl h2.2.2.2.2.2.1 h2.2.2.2.2.2.2
  | recvfrom h hb r hr =>
      rename_i b
      simp only [h] at h2
      simp only [Contained, h] at hG
      -- The bytes are stored whatever comes of them, and a failure ends the block's loop.
      rcases onRecvfrom_cases b r with ⟨hret, e, -, ho⟩ | ⟨-, -, ho⟩ | ⟨hpos, hpart, ho⟩
      · rw [ho]
        exact boundsInv_returned h hI _ (Or.inr (by omega))
      · rw [ho]
        exact boundsInv_returned h hI _ (Or.inl (by omega))
      · rw [ho]
        exact boundsInv_running h hI _ rfl rfl (by simp only; omega) (by simp only; omega)
  | stxNak h ret =>
      simp only [h] at h2
      exact boundsInv_onSent ret _ hI.1 (boundsInv_stxLoop hI.1 h2.1 (Or.inr h2.2))
  | stxWrite h ok => exact ⟨hI.1, trivial⟩
  | stxAck h ret => exact boundsInv_onSent ret _ hI.1 (boundsInv_nextFrame hI.1)
  | eotWrite h ok =>
      simp only [h] at h2
      exact boundsInv_eotInfo hI.1 h2
  | eotInfo h ok => exact ⟨hI.1, trivial⟩
  | eotAck h ret => exact ⟨hI.1, trivial⟩
  | cpuReset h => exact boundsInv_exit hI.1
  | mutexRelease h => exact ⟨hI.1, trivial⟩
  | close h =>
      refine ⟨hI.1, ?_⟩
      unfold Server.closed
      cases s.dataBuf with
      | none => trivial
      | some p => trivial
  | free h => exact ⟨hI.1, trivial⟩

theorem inBounds_of_boundsInv (s : Server) (hI : BoundsInv s) : InBounds s := by
  rcases hI with ⟨hp, h2⟩
  unfold InBounds Server.call
  cases hpc : s.pc with
  | headerRecv =>
      simp only [hpc] at h2 ⊢
      omega
  | sohRecv =>
      simp only [hpc] at h2 ⊢
      omega
  | stxRecv b =>
      simp only [hpc] at h2
      rcases h2 with ⟨hb, hd0, hd1, hmem, hlen, ho0, ho1⟩
      cases hbpc : b.pc with
      | select => simp only [hbpc]
      | recvfrom =>
          -- Four blocks make a page, and the request never goes beyond its own block.
          simp only [hbpc]
          simp only [bufSz, maxDataSize, Nat.cast_ofNat] at hmem hlen ⊢
          exact ⟨hb, by omega, by omega⟩
  | stxWrite =>
      simp only [updateDataAddr, updateInfoAddr]
      omega
  | eotWrite =>
      simp only [updateDataAddr, updateInfoAddr]
      omega
  | eotInfo =>
      simp only [hpc] at h2 ⊢
      exact fun _ => h2
  | _ => trivial

/-- Every receive of a run of the server stays inside its buffer, and the
    information sector is prepared in an allocated one, as long as no payload
    receive fails before the last retry and no frame that needs the page buffer
    arrives without one. -/
theorem run_inBounds (s s' : Server) (as : List Answer) (hs : Booted s)
    (hG : Along step Contained s as) (hr : run step s as = some s') : InBounds s' := by
  have h0 : BoundsInv s := by
    refine ⟨by rw [hs.packCount]; omega, ?_⟩
    simp only [hs.pc]
  exact inBounds_of_boundsInv s'
    (run_invariant_along step Contained BoundsInv boundsInv_step h0 hG hr)

/-- The server at its first `lwip_accept`, with the locals at zero too. -/
def bootServer : Server where
  pc := .accept
  headerBuf := fun _ => 0
  totalSize := 0
  pageOffset := 0
  packCount := 0
  connected := 0
  dataBuf := none
  buf := fun _ => 0
  index := 0
  dataIndex := 0
  retry := 10

theorem booted_bootServer : Booted bootServer := ⟨rfl, rfl, rfl, rfl, rfl, rfl⟩

/-- A connection without a page buffer: an `STX` header whose check bytes do not fit,
    then an announcement with two of its four bytes, then nothing. -/
def shortLength : List Answer :=
  [.accepted 3, .done, .allocated none, .received (.data stx [0x01, 0xff]), .sent 1,
    .received (.data soh [0x00, 0xff]), .received (.data 0 [0]), .received .closed]

theorem run_inBounds_shortLength :
    ∃ s', run step bootServer shortLength = some s' ∧ InBounds s' := by
  have hrun : ∃ s', run step bootServer shortLength = some s' := ⟨_, rfl⟩
  rcases hrun with ⟨s', hs'⟩
  refine ⟨s', hs', run_inBounds bootServer s' shortLength booted_bootServer ?_ hs'⟩
  refine along_cons step rfl trivial (along_cons step rfl trivial ?_)
  refine along_cons step rfl trivial (along_cons step rfl ?_ (along_cons step rfl trivial ?_))
  · intro hsum
    exact absurd hsum (by decide)
  refine along_cons step rfl ?_ (along_cons step rfl (Or.inl (by decide)) ?_)
  · intro _
    exact Or.inr ⟨by decide, by decide⟩
  exact along_cons step rfl (Or.inl (by decide)) trivial

/-- One failed receive of the length moves the next one in front of its buffer. -/
theorem not_inBounds_after_error : ¬ ∀ (s s' : Server) (as : List Answer), Booted s →
    run step s as = some s' → InBounds s' := by
  intro h
  have hbad := h bootServer _ [.accepted 3, .done, .allocated (some fun _ => 0),
    .received (.data soh [0x00, 0xff]), .received (.error 0)] booted_bootServer rfl
  exact absurd hbad.1 (by decide)

end Update

end Firmware
