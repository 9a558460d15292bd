import Firmware.Update.Termination

/-!
# Replies

Which frames the server answers, with what, and when the answer can be trusted.

A frame is the stretch of a run from one header to the point where the next one
would be read, with every reply going through. `Frame` is that stretch behind the
header, so an induction over it follows the payload loops of the source, and
`FrameFrom` puts the header in front. What a client wants from the replies is
`Disciplined`: one reply to every accepted frame, an `ACK` only for a payload that
arrived, and nothing changed by a frame that was refused.

The payload loops do not give that. The test that counts the retries down stands
in the loop condition and the test that complains stands in the body, behind a
`continue` for the results that brought nothing. A payload that never arrives uses
the retries up without the complaint and is acknowledged; one that arrives on the
last retry, or is still incomplete then, is refused and acknowledged; and a failed
receive moves `data_index` back, so that the loop takes bytes of the next frame
for its own. `InTime` is the exact condition under which none of this happens, and
`disciplined_iff` is the equivalence.

To have received a payload is a statement about positions: `fill` follows the
receives and wants each of them to continue where the last one ended, so a payload
counts only if its bytes were put where they belong. Nothing in the definition
looks at the variables of the server.

## Main definitions

* `Frame`: A run from behind a header to the next one.
* `Received`: A payload arrived in full and in place.
* `Disciplined`: What the replies to a frame promise.
* `InTime`: The payload arrives without an error and before the last retry.

## Theorems

* `frame_sohRecv_iff`, `frame_stxRecv_iff`: The two payload loops, from any point
  of the loop.
* `frame_refused`: A header that is not accepted changes nothing.
* `disciplined_iff`: The replies keep their promise exactly for the frames that
  arrive in time.
* `not_disciplined_after_timeouts`: A length that never arrives is acknowledged.
-/

namespace Firmware

namespace Update

/-- Between two frames, or at the reset that follows the last one. -/
def Over (s : Server) : Prop := (s.pc = .headerRecv ∧ s.index = 0) ∨ s.pc = .cpuReset

/-- A run up to the first state between two frames, on a connection on which
    every reply can be sent. -/
inductive Frame : Server → List Answer → Server → Prop
  | ended {s : Server} (h : Over s) : Frame s [] s
  | next {s t u : Server} {a : Answer} {as : List Answer} (h : ¬ Over s)
      (hs : step s a = some t) (hok : ¬ SendFails s a) (hf : Frame t as u) :
      Frame s (a :: as) u

/-- A frame with its header: the answer `a` starts it, `as` is the rest. -/
structure FrameFrom (s : Server) (a : Answer) (as : List Answer) (u : Server) : Prop where
  pc : s.pc = .headerRecv
  index : s.index = 0
  rest : ∃ t, step s a = some t ∧ Frame t as u

/-- The position behind the payload bytes received so far, or `none` once a
    receive did not continue where the last one ended. -/
def fill (pos : Option Int) (e : Call × Answer) : Option Int :=
  match e with
  | (.recvLength off _, .received (.data _ bs)) =>
      pos.bind fun p => if off = p then some (p + (bs.length + 1)) else none
  | (.recvPage off _, .received (.data _ bs)) =>
      pos.bind fun p => if off = p then some (p + (bs.length + 1)) else none
  | _ => pos

/-- The receives brought `size` bytes to the positions from `base` on, in order. -/
def Received (base size : Int) (tr : List (Call × Answer)) : Prop :=
  tr.foldl fill (some base) = some (base + size)

/-- Where the payload of a frame belongs, in the buffer it goes to. -/
def payloadBase (s : Server) (x : UInt8) : Int := if x = stx then s.packCount * maxDataSize else 0

/-- How long the payload of a frame is. -/
def payloadSize (x : UInt8) : Int := if x = soh then 4 else if x = stx then maxDataSize else 0

/-- The answer is a whole header that passes the check, with frame byte `x`. -/
def Accepted (a : Answer) (x : UInt8) : Prop :=
  ∃ y z, a = .received (.data x [y, z]) ∧ y.toNat + z.toNat = 0xff

/-- The file-level variables are as before and nothing was written to flash. -/
def Unchanged (s u : Server) (tr : List (Call × Answer)) : Prop :=
  u.totalSize = s.totalSize ∧ u.packCount = s.packCount ∧ u.pageOffset = s.pageOffset ∧
    writes tr = []

/-- One reply to an accepted frame, `ACK` only for a complete payload, and no
    change by a frame that was answered with `NAK` or whose header was refused. -/
def Disciplined (s : Server) (a : Answer) (as : List Answer) (u : Server) : Prop :=
  (∀ x, Accepted a x → (replies (events s (a :: as))).length = 1 ∧
    (ack ∈ replies (events s (a :: as)) →
      Received (payloadBase s x) (payloadSize x) (events s (a :: as)))) ∧
  (nak ∈ replies (events s (a :: as)) → Unchanged s u (events s (a :: as))) ∧
  ((∀ x, ¬ Accepted a x) → Unchanged s u (events s (a :: as)))

/-- A receive. -/
def Answer.isReceived : Answer → Bool
  | .received _ => true
  | _ => false

/-- A select that timed out. -/
def Answer.isTimeout : Answer → Bool
  | .selected ret => ret = 0
  | _ => false

/-- The payload arrives without a failed call, within nine receives for the length
    and with at most eighteen time-outs for a block. -/
def InTime (x : UInt8) (as : List Answer) : Prop :=
  (x = soh ∧ (∀ r, .received r ∈ as → 0 ≤ r.ret) ∧ as.countP Answer.isReceived ≤ 9) ∨
  (x = stx ∧ (∀ ret, .selected ret ∈ as → 0 ≤ ret) ∧ (∀ r, .received r ∈ as → 0 < r.ret) ∧
    as.countP Answer.isTimeout ≤ 18) ∨
  x = eot

theorem not_over_of_pc {s : Server} {p : Pc} (h : s.pc = p) (h1 : p ≠ .headerRecv)
    (h2 : p ≠ .cpuReset) : ¬ Over s := by
  rintro (⟨hc, -⟩ | hc)
  · exact h1 (h.symm.trans hc)
  · exact h2 (h.symm.trans hc)

theorem frame_inv {s u : Server} {as : List Answer} (h : ¬ Over s) (hf : Frame s as u) :
    ∃ a t bs, as = a :: bs ∧ step s a = some t ∧ ¬ SendFails s a ∧ Frame t bs u ∧
      events s as = (s.call, a) :: events t bs := by
  cases hf with
  | ended ho => exact absurd ho h
  | next _ hs hok hf => exact ⟨_, _, _, rfl, hs, hok, hf, trace_cons step observe hs _⟩

theorem frame_cons {s u : Server} {a : Answer} {bs : List Answer} (hf : Frame s (a :: bs) u) :
    ∃ t, step s a = some t ∧ ¬ SendFails s a ∧ Frame t bs u ∧
      events s (a :: bs) = (s.call, a) :: events t bs := by
  cases hf with
  | next _ hs hok hf => exact ⟨_, hs, hok, hf, trace_cons step observe hs _⟩

theorem frame_over {s u : Server} {as : List Answer} (h : Over s) (hf : Frame s as u) :
    as = [] ∧ u = s := by
  cases hf with
  | ended _ => exact ⟨rfl, rfl⟩
  | next hn _ _ _ => exact absurd h hn

theorem foldl_fill_none (tr : List (Call × Answer)) : tr.foldl fill none = none := by
  induction tr with
  | nil => rfl
  | cons e tr ih =>
      have he : fill none e = none := by
        unfold fill
        split <;> rfl
      rw [List.foldl_cons, he]
      exact ih

/-- The end of an accepted frame: no more receives, and the reply is `ACK`. -/
structure Closing (as : List Answer) (tr : List (Call × Answer)) : Prop where
  reply : replies tr = [ack]
  filled : ∀ p, tr.foldl fill p = p
  received : ∀ r, Answer.received r ∉ as
  selected : ∀ ret, Answer.selected ret ∉ as
  counts : as.countP Answer.isReceived = 0 ∧ as.countP Answer.isTimeout = 0

theorem onSent_eq {s : Server} {ret : Int} {b : UInt8} (k : Server → Server)
    (hc : s.call = .send b) (hok : ¬ SendFails s (.sent ret)) : s.onSent ret k = k s := by
  refine Server.onSent_of_nonneg k (Int.not_lt.mp ?_)
  exact fun hlt => hok ⟨⟨b, hc⟩, ret, rfl, hlt⟩

theorem not_sendFails_received (s : Server) (r : Recv) : ¬ SendFails s (.received r) := by
  rintro ⟨-, ret, hr, -⟩
  cases hr

theorem not_sendFails_sent {s : Server} {ret : Int} (h : 0 ≤ ret) : ¬ SendFails s (.sent ret) := by
  rintro ⟨-, ret', hr, hlt⟩
  cases hr
  omega

/-- The acknowledgement behind a payload loop ends the frame. -/
theorem closing_ack {s u : Server} {as : List Answer} (hpc : s.pc = .sohAck ∨ s.pc = .stxAck)
    (hb : s.headerBuf 0 = ack) (hf : Frame s as u) : Closing as (events s as) := by
  have hno : ¬ Over s := by
    rcases hpc with h | h
    · exact not_over_of_pc h (by decide) (by decide)
    · exact not_over_of_pc h (by decide) (by decide)
  have hcall : s.call = .send ack := by
    rcases hpc with h | h <;> simp only [Server.call, h, hb]
  rcases frame_inv hno hf with ⟨a, t, bs, rfl, hs, hok, hf', htr⟩
  -- Both calls are answered by the result of `lwip_send` and go on to the next frame.
  have hsent : ∃ ret, a = .sent ret ∧ t = s.onSent ret Server.nextFrame := by
    rcases hpc with h | h
    · exact step_sohAck h hs
    · exact step_stxAck h hs
  rcases hsent with ⟨ret, rfl, rfl⟩
  rw [onSent_eq _ hcall hok] at hf' htr
  rcases frame_over (Or.inl ⟨rfl, rfl⟩) hf' with ⟨rfl, -⟩
  rw [htr, hcall]
  refine ⟨rfl, fun p => rfl, fun r hr => ?_, fun ret' hr => ?_, rfl, rfl⟩
  · simp only [List.mem_cons, reduceCtorEq, List.not_mem_nil, or_self] at hr
  · simp only [List.mem_cons, reduceCtorEq, List.not_mem_nil, or_self] at hr

theorem closing_sohDone {s u : Server} {as : List Answer} (hf : Frame s.sohDone as u) :
    Closing as (events s.sohDone as) :=
  closing_ack (Or.inl rfl) rfl hf

theorem closing_stxDone {s u : Server} {as : List Answer} (hf : Frame s.stxDone as u) :
    Closing as (events s.stxDone as) := by
  by_cases h4 : (s.packCount + 1) % 2 ^ 16 = 4
  · -- The fourth block: the page is written before the reply.
    have hdone : s.stxDone = { s with packCount := 0, pc := .stxWrite } := by
      simp only [Server.stxDone, if_pos h4]
    rw [hdone] at hf ⊢
    rcases frame_inv (not_over_of_pc (p := .stxWrite) rfl (by decide) (by decide)) hf with
      ⟨a, t, bs, rfl, hs, -, hf', htr⟩
    rcases step_stxWrite rfl hs with ⟨ok, rfl, rfl⟩
    have hc := closing_ack (Or.inr rfl) rfl hf'
    rw [htr]
    refine ⟨hc.reply, fun p => hc.filled p, fun r hr => ?_, fun ret hr => ?_, ?_, ?_⟩
    · rcases List.mem_cons.mp hr with he | he
      · cases he
      · exact hc.received r he
    · rcases List.mem_cons.mp hr with he | he
      · cases he
      · exact hc.selected ret he
    · rw [List.countP_cons_of_neg (by simp only [Answer.isReceived, Bool.false_eq_true,
        not_false_eq_true]), hc.counts.1]
    · rw [List.countP_cons_of_neg (by simp only [Answer.isTimeout, Bool.false_eq_true,
        not_false_eq_true]), hc.counts.2]
  · have hdone : s.stxDone = Server.reply
        { s with packCount := (s.packCount + 1) % 2 ^ 16 } ack .stxAck := by
      simp only [Server.stxDone, if_neg h4]
    rw [hdone] at hf ⊢
    exact closing_ack (Or.inr rfl) rfl hf

/-- A complaint is followed by whatever ends the frame behind it. -/
theorem frame_nak {s u : Server} {as : List Answer} (k : Server → Server) (hno : ¬ Over s)
    (hcall : s.call = .send (s.headerBuf 0))
    (hstep : ∀ a t, step s a = some t → ∃ ret, a = .sent ret ∧ t = s.onSent ret k)
    (hend : ∀ bs, Frame (k s) bs u → Closing bs (events (k s) bs)) (hf : Frame s as u) :
    replies (events s as) = [s.headerBuf 0, ack] ∧ ∀ p, (events s as).foldl fill p = p := by
  rcases frame_inv hno hf with ⟨a, t, bs, rfl, hs, hok, hf', htr⟩
  rcases hstep a t hs with ⟨ret, rfl, rfl⟩
  rw [onSent_eq _ hcall hok] at hf' htr
  have hc := hend bs hf'
  rw [htr, hcall]
  exact ⟨congrArg (s.headerBuf 0 :: ·) hc.reply, fun p => hc.filled p⟩

/-- A complaint on the last retry is followed by the acknowledgement all the same. -/
theorem frame_sohNak {s u : Server} {as : List Answer} (hf : Frame s as u) (h : s.pc = .sohNak)
    (hk : s.retry = 0) : replies (events s as) = [s.headerBuf 0, ack] ∧
      ∀ p, (events s as).foldl fill p = p := by
  refine frame_nak Server.sohLoop (not_over_of_pc h (by decide) (by decide))
    (by simp only [Server.call, h]) (fun _ _ hs => step_sohNak h hs) (fun bs hf' => ?_) hf
  rcases Server.sohLoop_of_retry hk with ⟨k, hv⟩
  rw [hv] at hf' ⊢
  exact closing_sohDone hf'

theorem frame_stxNak {s u : Server} {as : List Answer} (hf : Frame s as u) (h : s.pc = .stxNak)
    (hk : s.retry = 0) : replies (events s as) = [s.headerBuf 0, ack] ∧
      ∀ p, (events s as).foldl fill p = p := by
  refine frame_nak Server.stxLoop (not_over_of_pc h (by decide) (by decide))
    (by simp only [Server.call, h]) (fun _ _ hs => step_stxNak h hs) (fun bs hf' => ?_) hf
  rcases Server.stxLoop_of_retry hk with ⟨k, hv⟩
  rw [hv] at hf' ⊢
  exact closing_stxDone hf'

theorem fill_recvLength (p off len : Int) (r : Recv) :
    fill (some p) (.recvLength off len, .received r) =
      if r.ret ≤ 0 then some p else if off = p then some (p + r.ret) else none := by
  cases r with
  | data b bs =>
      have hpos : ¬ (Recv.data b bs).ret ≤ 0 := by
        simp only [Recv.ret]
        omega
      rw [if_neg hpos]
      rfl
  | closed => rfl
  | error e =>
      have hneg : (Recv.error e).ret ≤ 0 := by
        simp only [Recv.ret]
        omega
      rw [if_pos hneg]
      rfl

theorem fill_recvPage (p off len : Int) (r : Recv) :
    fill (some p) (.recvPage off len, .received r) =
      if r.ret ≤ 0 then some p else if off = p then some (p + r.ret) else none := by
  rw [← fill_recvLength p off len r]
  cases r <;> rfl

theorem not_frame_nil {s u : Server} (h : ¬ Over s) : ¬ Frame s [] u := by
  intro hf
  rcases frame_inv h hf with ⟨a, t, bs, hc, -⟩
  cases hc

/-- A receive that starts in front of the bytes already received spoils the
    payload, and a loop that is behind stays behind. -/
theorem fill_sohRecv_behind (p : Int) (hp : p < 4) {s u : Server} {as : List Answer}
    (h : s.pc = .sohRecv) (hlt : s.dataIndex < p) (hf : Frame s as u) :
    (events s as).foldl fill (some p) ≠ some 4 := by
  have hno : ∀ v : Server, v.pc = .sohRecv → ¬ Over v :=
    fun v hv => not_over_of_pc hv (by decide) (by decide)
  have hp4 : some p ≠ some (4 : Int) := by
    rw [ne_eq, Option.some.injEq]
    omega
  induction as generalizing s with
  | nil => exact absurd hf (not_frame_nil (hno s h))
  | cons a bs ih =>
      rcases frame_cons hf with ⟨t, hs, -, hf', htr⟩
      rcases step_sohRecv h hs with ⟨r, rfl, hr, rfl⟩
      have hcall : s.call = .recvLength s.dataIndex (4 - s.dataIndex) := by
        simp only [Server.call, h]
      rw [htr, hcall, List.foldl_cons, fill_recvLength]
      by_cases hret : r.ret ≤ 0
      · -- Nothing was stored, and an error moves the index further back.
        rw [if_pos hret]
        rcases onLength_cases s r (by omega) with
          ⟨-, -, hon⟩ | ⟨-, hge, -⟩ | ⟨hk, -, hon⟩ | ⟨-, -, hon⟩
        · rw [hon] at hf' ⊢
          refine ih rfl ?_ hf'
          simp only
          omega
        · omega
        · rw [hon] at hf' ⊢
          rw [(frame_sohNak hf' rfl hk).2]
          exact hp4
        · rw [hon] at hf' ⊢
          rw [(closing_sohDone hf').filled]
          exact hp4
      · rw [if_neg hret, if_neg (by omega), foldl_fill_none]
        exact fun hc => by cases hc

/-- The length loop, from any of its receives: one reply and all the bytes in
    place, exactly when no receive fails and the last retry is not needed. -/
theorem frame_sohRecv_iff {s u : Server} {as : List Answer} (h : s.pc = .sohRecv)
    (hlt : s.dataIndex < 4) (hf : Frame s as u) :
    ((replies (events s as)).length = 1 ∧
      (events s as).foldl fill (some s.dataIndex) = some 4) ↔
    ((∀ r, .received r ∈ as → 0 ≤ r.ret) ∧ as.countP Answer.isReceived ≤ s.retry) := by
  have hno : ∀ v : Server, v.pc = .sohRecv → ¬ Over v :=
    fun v hv => not_over_of_pc hv (by decide) (by decide)
  induction as generalizing s with
  | nil => exact absurd hf (not_frame_nil (hno s h))
  | cons a bs ih =>
      rcases frame_cons hf with ⟨t, hs, -, hf', htr⟩
      rcases step_sohRecv h hs with ⟨r, rfl, hr, rfl⟩
      have hcall : s.call = .recvLength s.dataIndex (4 - s.dataIndex) := by
        simp only [Server.call, h]
      -- The receive is no reply, and it counts as one receive.
      have hrep : replies (events s (.received r :: bs)) = replies (events (s.onLength r) bs) := by
        rw [htr, hcall]
        rfl
      have hcount : (Answer.received r :: bs).countP Answer.isReceived =
          bs.countP Answer.isReceived + 1 := List.countP_cons_of_pos rfl
      have hmem : (∀ q, Answer.received q ∈ Answer.received r :: bs → 0 ≤ q.ret) ↔
          0 ≤ r.ret ∧ ∀ q, Answer.received q ∈ bs → 0 ≤ q.ret := by
        simp only [List.mem_cons, Answer.received.injEq, forall_eq_or_imp]
      rw [hrep, hcount, hmem, htr, hcall, List.foldl_cons, fill_recvLength]
      rcases onLength_cases s r hlt with
        ⟨hk, hlt', hon⟩ | ⟨hk, hge, hon⟩ | ⟨hk, -, hon⟩ | ⟨hk, hret, hon⟩
      · -- The loop goes round.
        rw [hon] at hf' ⊢
        by_cases hneg : r.ret < 0
        · rw [if_pos (by omega)]
          have hbad := fill_sohRecv_behind s.dataIndex hlt (s := _) rfl
            (by simp only; omega) hf'
          exact ⟨fun hc => absurd hc.2 hbad, fun hc => absurd hc.1.1 (by omega)⟩
        · have hpos : (if r.ret ≤ 0 then some s.dataIndex else
              if s.dataIndex = s.dataIndex then some (s.dataIndex + r.ret) else none) =
              some (s.dataIndex + r.ret) := by
            by_cases hz : r.ret ≤ 0
            · rw [if_pos hz, (by omega : r.ret = 0), add_zero]
            · rw [if_neg hz, if_pos rfl]
          rw [hpos]
          refine (ih rfl hlt' hf').trans ?_
          simp only
          constructor
          · rintro ⟨h1, h2⟩
            exact ⟨⟨by omega, h1⟩, by omega⟩
          · rintro ⟨⟨-, h1⟩, h2⟩
            exact ⟨h1, by omega⟩
      · -- The fourth byte arrived with retries to spare.
        have hc : Closing bs (events (s.onLength r) bs) := by
          rw [hon] at hf' ⊢
          exact closing_sohDone hf'
        rw [if_neg (by omega), if_pos rfl, hc.filled, hc.reply, hc.counts.1]
        refine ⟨fun _ => ⟨⟨by omega, fun q hq => absurd hq (hc.received q)⟩, by omega⟩,
          fun _ => ⟨rfl, ?_⟩⟩
        rw [Option.some.injEq]
        omega
      · -- The last retry brought something: it is refused and acknowledged.
        have hnak : replies (events (s.onLength r) bs) = [nak, ack] := by
          rw [hon] at hf' ⊢
          exact (frame_sohNak hf' rfl hk).1
        rw [hnak]
        exact ⟨fun hc => absurd hc.1 (by decide), fun hc => absurd hc.2 (by omega)⟩
      · -- The last retry brought nothing: acknowledged without the payload.
        have hc : Closing bs (events (s.onLength r) bs) := by
          rw [hon] at hf' ⊢
          exact closing_sohDone hf'
        rw [if_pos (by omega), hc.filled, hk]
        refine ⟨fun hx => ?_, fun hx => absurd hx.2 (by omega)⟩
        have h4 := hx.2
        rw [Option.some.injEq] at h4
        omega

/-- The local state of `blocking_lwip_recv` belongs to the block being received. -/
structure InBlock (s : Server) (b : BlockingRecv) : Prop where
  pc : s.pc = .stxRecv b
  mem : b.mem = s.packCount * maxDataSize + s.dataIndex
  len : b.len = maxDataSize - s.dataIndex
  index : s.dataIndex < maxDataSize
  offset : 0 ≤ b.offset
  more : b.offset < b.len

/-- A new call of `blocking_lwip_recv` for the rest of the block. -/
theorem inBlock_next (s : Server) (d : Int) (k : Nat) (hd : d < maxDataSize) :
    InBlock { s with
      dataIndex := d
      retry := k
      pc := .stxRecv (blockingLwipRecv (s.packCount * maxDataSize + d) (maxDataSize - d)) }
      (blockingLwipRecv (s.packCount * maxDataSize + d) (maxDataSize - d)) := by
  refine ⟨rfl, rfl, rfl, hd, le_refl 0, ?_⟩
  simp only [blockingLwipRecv]
  omega

section Block

variable {s u : Server} {b : BlockingRecv} {as : List Answer}

theorem not_over_inBlock (h : InBlock s b) : ¬ Over s :=
  not_over_of_pc h.pc (fun hc => by cases hc) (fun hc => by cases hc)

/-- A returned count that does not complete the block: the loop goes round, or on
    the last retry the frame ends without the rest of it. -/
theorem frame_onBlock_short (ret : Int) (hlt : s.dataIndex + ret < maxDataSize)
    (hd : s.dataIndex < maxDataSize) (hf : Frame (s.onBlock ret) as u) :
    (s.retry ≠ 0 ∧ ∃ t c, s.onBlock ret = t ∧ InBlock t c ∧ t.packCount = s.packCount ∧
      t.retry = s.retry - 1 ∧ c.mem + c.offset = s.packCount * maxDataSize + s.dataIndex + ret) ∨
    (s.retry = 0 ∧ (∀ p, (events (s.onBlock ret) as).foldl fill p = p)) := by
  rcases onBlock_cases s ret hd with
    ⟨hk, hlt', hon⟩ | ⟨-, hge, -⟩ | ⟨hk, -, hon⟩ | ⟨hk, -, hon⟩
  · refine Or.inl ⟨hk, _, _, hon, inBlock_next s _ _ hlt', rfl, rfl, ?_⟩
    simp only [blockingLwipRecv]
    omega
  · omega
  · rw [hon] at hf ⊢
    exact Or.inr ⟨hk, (frame_stxNak hf rfl hk).2⟩
  · rw [hon] at hf ⊢
    exact Or.inr ⟨hk, (closing_stxDone hf).filled⟩

/-- A receive in front of the bytes already received spoils the block, and a loop
    that is behind stays behind. -/
theorem fill_stxRecv_behind (p : Int) (h : InBlock s b) (hb : b.mem + b.offset < p)
    (hp : p < s.packCount * maxDataSize + maxDataSize) (hf : Frame s as u) :
    (events s as).foldl fill (some p) ≠ some ((s.packCount : Int) * maxDataSize + maxDataSize) := by
  induction as generalizing s b with
  | nil => exact absurd hf (not_frame_nil (not_over_inBlock h))
  | cons a bs ih =>
      have hpe : some p ≠ some ((s.packCount : Int) * maxDataSize + maxDataSize) := by
        rw [ne_eq, Option.some.injEq]
        omega
      rcases frame_cons hf with ⟨t, hs, -, hf', htr⟩
      have hmem := h.mem
      have hlen := h.len
      have hmore := h.more
      have hoff := h.offset
      -- The next call of `blocking_lwip_recv` starts no further than this one.
      have hagain : ∀ (v : Server) (ret : Int), v.packCount = s.packCount →
          v.dataIndex = s.dataIndex → ret ≤ b.offset → Frame (v.onBlock ret) bs u →
          (events (v.onBlock ret) bs).foldl fill (some p) ≠
            some ((s.packCount : Int) * maxDataSize + maxDataSize) := by
        intro v ret hvp hvd hret hfv
        rcases frame_onBlock_short ret (by omega) (by rw [hvd]; exact h.index) hfv with
          ⟨-, t, c, ht, hc, htp, -, hpos⟩ | ⟨-, hfill⟩
        · rw [ht] at hfv ⊢
          rw [hvp, hvd] at hpos
          rw [← hvp, ← htp]
          exact ih hc (by omega) (by rw [htp, hvp]; exact hp) hfv
        · rw [hfill]
          exact hpe
      cases hbpc : b.pc with
      | select =>
          rcases step_select h.pc hbpc hs with ⟨ret, rfl, rfl⟩
          have hcall : s.call = .select := by simp only [Server.call, h.pc, hbpc]
          have hfill : fill (some p) (.select, .selected ret) = some p := rfl
          rw [htr, hcall, List.foldl_cons, hfill]
          rcases onSelect_cases b ret with ⟨-, ho⟩ | ⟨hneg, ho⟩ | ⟨-, ho⟩
          · rw [ho] at hf' ⊢
            exact hagain s b.offset rfl rfl (le_refl _) hf'
          · rw [ho] at hf' ⊢
            exact hagain s ret rfl rfl (by omega) hf'
          · rw [ho] at hf' ⊢
            exact ih (b := { b with pc := .recvfrom }) ⟨rfl, h.mem, h.len, h.index, hoff, hmore⟩
              hb hp hf'
      | recvfrom =>
          rcases step_recvfrom h.pc hbpc hs with ⟨r, rfl, hr, rfl⟩
          have hcall : s.call = .recvPage (b.mem + b.offset) (b.len - b.offset) := by
            simp only [Server.call, h.pc, hbpc]
          rw [htr, hcall, List.foldl_cons, fill_recvPage]
          by_cases hret : r.ret ≤ 0
          · rw [if_pos hret]
            rcases onRecvfrom_cases b r with ⟨-, e, he, ho⟩ | ⟨hpos, -⟩ | ⟨hpos, -⟩
            · rw [ho] at hf' ⊢
              exact hagain _ e rfl rfl (by omega) hf'
            · omega
            · omega
          · rw [if_neg hret, if_neg (by omega), foldl_fill_none]
            exact fun hc => by cases hc

/-- Counting what one answer adds in front of a list. -/
theorem inTime_cons (a : Answer) (bs : List Answer) (k : Nat) :
    ((∀ ret, .selected ret ∈ a :: bs → 0 ≤ ret) ∧ (∀ r, .received r ∈ a :: bs → 0 < r.ret) ∧
      (a :: bs).countP Answer.isTimeout < k) ↔
    ((∀ ret, a = .selected ret → 0 ≤ ret) ∧ (∀ r, a = .received r → 0 < r.ret)) ∧
      (∀ ret, .selected ret ∈ bs → 0 ≤ ret) ∧ (∀ r, .received r ∈ bs → 0 < r.ret) ∧
      bs.countP Answer.isTimeout + (if a.isTimeout then 1 else 0) < k := by
  rw [List.countP_cons]
  simp only [List.mem_cons]
  constructor
  · rintro ⟨h1, h2, h3⟩
    exact ⟨⟨fun ret hr => h1 ret (Or.inl hr.symm), fun r hr => h2 r (Or.inl hr.symm)⟩,
      fun ret hr => h1 ret (Or.inr hr), fun r hr => h2 r (Or.inr hr), h3⟩
  · rintro ⟨⟨h1, h2⟩, h3, h4, h5⟩
    exact ⟨fun ret hr => hr.elim (fun he => h1 ret he.symm) (h3 ret),
      fun r hr => hr.elim (fun he => h2 r he.symm) (h4 r), h5⟩

/-- The block loop, from any of its calls: one reply and all the bytes in place,
    exactly when no call fails and the last retry is not needed. -/
theorem frame_stxRecv_iff (h : InBlock s b) (hf : Frame s as u) :
    ((replies (events s as)).length = 1 ∧ (events s as).foldl fill (some (b.mem + b.offset)) =
      some ((s.packCount : Int) * maxDataSize + maxDataSize)) ↔
    ((∀ ret, .selected ret ∈ as → 0 ≤ ret) ∧ (∀ r, .received r ∈ as → 0 < r.ret) ∧
      as.countP Answer.isTimeout < s.retry) := by
  induction as generalizing s b with
  | nil => exact absurd hf (not_frame_nil (not_over_inBlock h))
  | cons a bs ih =>
      rcases frame_cons hf with ⟨t, hs, -, hf', htr⟩
      have hmem := h.mem
      have hlen := h.len
      have hmore := h.more
      have hoff := h.offset
      have hend : b.mem + b.len = s.packCount * maxDataSize + maxDataSize := by omega
      -- A failed call: the next receive, if there is one, is behind.
      have hfail : ∀ (v : Server) (e : Int), v.packCount = s.packCount →
          v.dataIndex = s.dataIndex → e < 0 → Frame (v.onBlock e) bs u →
          (events (v.onBlock e) bs).foldl fill (some (b.mem + b.offset)) ≠
            some ((s.packCount : Int) * maxDataSize + maxDataSize) := by
        intro v e hvp hvd he hfv
        rcases frame_onBlock_short e (by have := h.index; omega) (by rw [hvd]; exact h.index)
          hfv with ⟨-, t, c, ht, hc, htp, -, hpos⟩ | ⟨-, hfill⟩
        · rw [ht] at hfv ⊢
          rw [hvp, hvd] at hpos
          rw [← hvp, ← htp]
          exact fill_stxRecv_behind _ hc (by omega) (by rw [htp, hvp]; omega) hfv
        · rw [hfill, ne_eq, Option.some.injEq]
          omega
      rw [inTime_cons]
      cases hbpc : b.pc with
      | select =>
          rcases step_select h.pc hbpc hs with ⟨ret, rfl, rfl⟩
          have hcall : s.call = .select := by simp only [Server.call, h.pc, hbpc]
          have hrep : replies (events s (.selected ret :: bs)) =
              replies (events (s.onOutcome (b.onSelect ret)) bs) := by
            rw [htr, hcall]
            rfl
          rw [hrep, htr, hcall, List.foldl_cons, show fill (some (b.mem + b.offset))
            (.select, .selected ret) = some (b.mem + b.offset) from rfl]
          rcases onSelect_cases b ret with ⟨hz, ho⟩ | ⟨hneg, ho⟩ | ⟨hpos, ho⟩
          · -- A time-out uses up a retry.
            rw [ho] at hf' ⊢
            rw [show Answer.isTimeout (.selected ret) = true from decide_eq_true hz, if_pos rfl]
            rcases frame_onBlock_short b.offset (by omega) h.index hf' with
              ⟨hk, t, c, ht, hc, htp, htk, hpos⟩ | ⟨hk, hfill⟩
            · rw [show s.onOutcome (.returned b.offset) = t from ht] at hf' ⊢
              rw [show b.mem + b.offset = c.mem + c.offset by omega, ← htp]
              refine (ih hc hf').trans ?_
              rw [htk]
              constructor
              · rintro ⟨h1, h2, h3⟩
                exact ⟨⟨fun x hx => by cases hx; omega, fun r hr => by cases hr⟩, h1, h2, by omega⟩
              · rintro ⟨-, h1, h2, h3⟩
                exact ⟨h1, h2, by omega⟩
            · rw [show s.onOutcome (.returned b.offset) = s.onBlock b.offset from rfl, hfill]
              refine ⟨fun hc => ?_, fun hc => absurd hc.2.2.2 (by omega)⟩
              have he := hc.2
              rw [Option.some.injEq] at he
              omega
          · rw [ho] at hf' ⊢
            exact ⟨fun hc => absurd hc.2 (hfail s ret rfl rfl hneg hf'),
              fun hc => absurd (hc.1.1 ret rfl) (by omega)⟩
          · rw [ho] at hf' ⊢
            rw [show Answer.isTimeout (.selected ret) = false from decide_eq_false (by omega),
              if_neg (by decide)]
            refine (ih (s := { s with pc := .stxRecv { b with pc := .recvfrom } })
              ⟨rfl, h.mem, h.len, h.index, hoff, hmore⟩ hf').trans ?_
            constructor
            · rintro ⟨h1, h2, h3⟩
              exact ⟨⟨fun x hx => by cases hx; omega, fun r hr => by cases hr⟩, h1, h2, h3⟩
            · rintro ⟨-, h1, h2, h3⟩
              exact ⟨h1, h2, h3⟩
      | recvfrom =>
          rcases step_recvfrom h.pc hbpc hs with ⟨r, rfl, hr, rfl⟩
          have hcall : s.call = .recvPage (b.mem + b.offset) (b.len - b.offset) := by
            simp only [Server.call, h.pc, hbpc]
          -- The bytes go to the page buffer, which no later choice looks at.
          generalize hv : ({ s with
            dataBuf := s.dataBuf.map fun q : Page => q.store (b.mem + b.offset) r.bytes } :
              Server) = v at hf' htr
          have hvp : v.packCount = s.packCount := by rw [← hv]
          have hvd : v.dataIndex = s.dataIndex := by rw [← hv]
          have hvk : v.retry = s.retry := by rw [← hv]
          have hrep : replies (events s (.received r :: bs)) =
              replies (events (v.onOutcome (b.onRecvfrom r)) bs) := by
            rw [htr, hcall]
            rfl
          rw [hrep, htr, hcall, List.foldl_cons, fill_recvPage,
            show Answer.isTimeout (.received r) = false from rfl, if_neg Bool.false_ne_true]
          rcases onRecvfrom_cases b r with ⟨hret, e, he, ho⟩ | ⟨hpos, hfull, ho⟩ | ⟨hpos, hpart, ho⟩
          · rw [ho] at hf' ⊢
            rw [if_pos hret]
            exact ⟨fun hc => absurd hc.2 (hfail v e hvp hvd he hf'),
              fun hc => absurd (hc.1.2 r rfl) (by omega)⟩
          · rw [ho] at hf' ⊢
            rw [if_neg (by omega), if_pos rfl]
            rcases onBlock_cases v b.len (by rw [hvd]; exact h.index) with
              ⟨-, hlt, -⟩ | ⟨hk, -, hon⟩ | ⟨hk, -, hon⟩ | ⟨-, hz, -⟩
            · omega
            · -- The block is complete with retries to spare.
              have hc : Closing bs (events (v.onOutcome (.returned b.len)) bs) := by
                rw [show v.onOutcome (.returned b.len) = v.onBlock b.len from rfl, hon] at hf' ⊢
                exact closing_stxDone hf'
              rw [hc.filled, hc.reply, hc.counts.2]
              refine ⟨fun _ => ⟨⟨fun x hx => (by cases hx), fun q hq => by cases hq; exact hpos⟩,
                fun x hx => absurd hx (hc.selected x), fun q hq => absurd hq (hc.received q),
                by omega⟩, fun _ => ⟨rfl, ?_⟩⟩
              rw [Option.some.injEq]
              omega
            · -- Complete on the last retry: refused and acknowledged.
              have hnak : replies (events (v.onOutcome (.returned b.len)) bs) = [nak, ack] := by
                rw [show v.onOutcome (.returned b.len) = v.onBlock b.len from rfl, hon] at hf' ⊢
                exact (frame_stxNak hf' rfl hk).1
              rw [hnak]
              exact ⟨fun hc => absurd hc.1 (by decide), fun hc => absurd hc.2.2.2 (by omega)⟩
            · omega
          · rw [ho] at hf' ⊢
            rw [if_neg (by omega), if_pos rfl, add_assoc, ← hvp]
            have hin : InBlock (v.onOutcome (.running { b with
                offset := b.offset + r.ret, pc := .select }))
                { b with offset := b.offset + r.ret, pc := .select } := by
              refine ⟨rfl, ?_, ?_, ?_, ?_, ?_⟩
              · simp only [Server.onOutcome, hvp, hvd, hmem]
              · simp only [Server.onOutcome, hvd, hlen]
              · simp only [Server.onOutcome, hvd]
                exact h.index
              · simp only
                omega
              · simp only
                omega
            refine (ih hin hf').trans ?_
            simp only [Server.onOutcome, hvk]
            constructor
            · rintro ⟨h1, h2, h3⟩
              exact ⟨⟨fun x hx => (by cases hx), fun q hq => by cases hq; exact hpos⟩, h1, h2, h3⟩
            · rintro ⟨-, h1, h2, h3⟩
              exact ⟨h1, h2, h3⟩

end Block

/-- Inside a frame with a payload, at a point from which the server cannot leave
    the frame without an `ACK`. -/
def Acking (s : Server) : Prop :=
  match s.pc with
  | .sohRecv | .sohNak | .stxRecv _ | .stxNak | .stxWrite => True
  | .sohAck | .stxAck => s.headerBuf 0 = ack
  | _ => False

theorem acking_sohAck (s : Server) : Acking (s.reply ack .sohAck) := rfl

theorem acking_stxAck (s : Server) : Acking (s.reply ack .stxAck) := rfl

theorem acking_sohLoop (s : Server) : Acking s.sohLoop := by
  unfold Server.sohLoop
  by_cases hd : s.dataIndex < 4
  · rw [if_pos hd]
    by_cases hk : s.retry ≠ 0
    · rw [if_pos hk]
      trivial
    · rw [if_neg hk]
      exact acking_sohAck _
  · rw [if_neg hd]
    exact acking_sohAck _

theorem acking_stxDone (s : Server) : Acking s.stxDone := by
  unfold Server.stxDone
  by_cases h4 : (s.packCount + 1) % 2 ^ 16 = 4
  · rw [if_pos h4]
    trivial
  · rw [if_neg h4]
    exact acking_stxAck _

theorem acking_stxLoop (s : Server) : Acking s.stxLoop := by
  unfold Server.stxLoop
  by_cases hd : s.dataIndex < maxDataSize
  · rw [if_pos hd]
    by_cases hk : s.retry ≠ 0
    · rw [if_pos hk]
      trivial
    · rw [if_neg hk]
      exact acking_stxDone _
  · rw [if_neg hd]
    exact acking_stxDone _

theorem acking_onLength (s : Server) (r : Recv) : Acking (s.onLength r) := by
  unfold Server.onLength
  by_cases hret : r.ret = 0
  · simp only [if_pos hret]
    exact acking_sohLoop _
  · simp only [if_neg hret]
    by_cases hk : s.retry = 0
    · rw [if_pos hk]
      trivial
    · rw [if_neg hk]
      exact acking_sohLoop _

theorem acking_onOutcome (s : Server) (o : Outcome) : Acking (s.onOutcome o) := by
  cases o with
  | running b => trivial
  | returned ret =>
      simp only [Server.onOutcome, Server.onBlock]
      by_cases hret : ret = 0
      · rw [if_pos hret]
        exact acking_stxLoop s
      · rw [if_neg hret]
        by_cases hk : s.retry = 0
        · rw [if_pos hk]
          trivial
        · rw [if_neg hk]
          exact acking_stxLoop _

/-- One step inside such a frame stays inside or sends the `ACK`. -/
theorem acking_step {s t : Server} {a : Answer} (h : Acking s) (hs : step s a = some t)
    (hok : ¬ SendFails s a) : Acking t ∨ s.call = .send ack := by
  -- Both loops end at their `ACK`, however they end; the two calls are the last cases.
  cases hpc : s.pc with
  | sohRecv =>
      rcases step_sohRecv hpc hs with ⟨r, -, -, rfl⟩
      exact Or.inl (acking_onLength s r)
  | sohNak =>
      rcases step_sohNak hpc hs with ⟨ret, rfl, rfl⟩
      rw [onSent_eq (b := s.headerBuf 0) _ (by simp only [Server.call, hpc]) hok]
      exact Or.inl (acking_sohLoop s)
  | stxRecv b =>
      cases hb : b.pc with
      | select =>
          rcases step_select hpc hb hs with ⟨ret, -, rfl⟩
          exact Or.inl (acking_onOutcome s _)
      | recvfrom =>
          rcases step_recvfrom hpc hb hs with ⟨r, -, -, rfl⟩
          exact Or.inl (acking_onOutcome _ _)
  | stxNak =>
      rcases step_stxNak hpc hs with ⟨ret, rfl, rfl⟩
      rw [onSent_eq (b := s.headerBuf 0) _ (by simp only [Server.call, hpc]) hok]
      exact Or.inl (acking_stxLoop s)
  | stxWrite =>
      rcases step_stxWrite hpc hs with ⟨ok, -, rfl⟩
      exact Or.inl (acking_stxAck _)
  | sohAck =>
      simp only [Acking, hpc] at h
      exact Or.inr (by simp only [Server.call, hpc, h])
  | stxAck =>
      simp only [Acking, hpc] at h
      exact Or.inr (by simp only [Server.call, hpc, h])
  | _ =>
      simp only [Acking, hpc] at h

theorem not_acking_over {s : Server} (h : Acking s) : ¬ Over s := by
  rintro (⟨hpc, -⟩ | hpc)
  · simp only [Acking, hpc] at h
  · simp only [Acking, hpc] at h

/-- Complete or not, a payload loop ends in an `ACK`. -/
theorem frame_acks {s u : Server} {as : List Answer} (hf : Frame s as u) (h : Acking s) :
    ack ∈ replies (events s as) := by
  induction hf with
  | ended ho => exact absurd ho (not_acking_over h)
  | @next s t u a as _ hs hok _ ih =>
      rw [show events s (a :: as) = (s.call, a) :: events t as from trace_cons step observe hs _]
      rcases acking_step h hs hok with ht | hc
      · have hmem := ih ht
        simp only [replies, List.filterMap_cons]
        split
        · exact hmem
        · exact List.mem_cons_of_mem _ hmem
      · rw [hc]
        exact List.mem_cons_self

/-- Between a refused header and the next frame, or in the middle of a header. -/
def Refusing (s : Server) : Prop :=
  (s.pc = .headerRecv ∧ 0 ≤ s.index) ∨ (s.pc = .headerNak ∧ s.headerBuf 0 = nak)

theorem unchanged_refl (s : Server) : Unchanged s s [] := ⟨rfl, rfl, rfl, rfl⟩

/-- One more step in front that changes nothing and writes nothing. -/
theorem unchanged_cons {s t u : Server} {e : Call × Answer} {tr : List (Call × Answer)}
    (ht : t.totalSize = s.totalSize ∧ t.packCount = s.packCount ∧ t.pageOffset = s.pageOffset)
    (he : ∀ sector page, e.1 ≠ .write sector page) (h : Unchanged t u tr) :
    Unchanged s u (e :: tr) := by
  refine ⟨h.1.trans ht.1, h.2.1.trans ht.2.1, h.2.2.1.trans ht.2.2, ?_⟩
  simp only [writes, List.filterMap_cons]
  exact h.2.2.2

/-- The receive of a header, unless it accepts one, changes nothing. -/
theorem refusing_onHeader {s : Server} {r : Recv} (h : s.pc = .headerRecv) (h0 : 0 ≤ s.index)
    (hr : r.ret ≤ headerLen - s.index)
    (hna : s.index = 0 → ∀ x, ¬ Accepted (.received r) x) :
    Refusing (s.onHeader r) ∧ (s.onHeader r).totalSize = s.totalSize ∧
      (s.onHeader r).packCount = s.packCount ∧ (s.onHeader r).pageOffset = s.pageOffset := by
  rcases onHeader_cases s r hr with
    ⟨-, hon⟩ | ⟨hpos, -, hon⟩ | ⟨-, -, -, hon⟩ | ⟨x, y, z, rfl, hz, hsum, -⟩
  · rw [hon]
    exact ⟨Or.inl ⟨h, h0⟩, rfl, rfl, rfl⟩
  · rw [hon]
    exact ⟨Or.inl ⟨h, by simp only; omega⟩, rfl, rfl, rfl⟩
  · rw [hon]
    exact ⟨Or.inr ⟨rfl, rfl⟩, rfl, rfl, rfl⟩
  · exact absurd ⟨y, z, rfl, hsum⟩ (hna hz x)

/-- A header that is not accepted changes nothing: the rest of it, the `NAK` and
    the way back to the next header leave the file-level variables alone. -/
theorem frame_refused {s u : Server} {as : List Answer} (hf : Frame s as u) (h : Refusing s) :
    Unchanged s u (events s as) := by
  induction hf with
  | @ended s ho => exact unchanged_refl s
  | @next s t u a as hno hs hok hf ih =>
      rw [show events s (a :: as) = (s.call, a) :: events t as from trace_cons step observe hs _]
      rcases h with ⟨hpc, h0⟩ | ⟨hpc, hnak⟩
      · rcases step_headerRecv hpc hs with ⟨r, rfl, hr, rfl⟩
        have hidx : s.index ≠ 0 := fun hz => hno (Or.inl ⟨hpc, hz⟩)
        rcases refusing_onHeader hpc h0 hr (fun hz => absurd hz hidx) with ⟨href, hst⟩
        exact unchanged_cons hst (fun _ _ => by simp only [Server.call, hpc, ne_eq, reduceCtorEq,
          not_false_eq_true]) (ih href)
      · rcases step_headerNak hpc hs with ⟨ret, rfl, rfl⟩
        have hcall : s.call = .send nak := by simp only [Server.call, hpc, hnak]
        -- `NAK` is none of the three frame bytes, so the dispatch falls through.
        have hdisp : s.dispatch = s.nextFrame := by
          simp only [Server.dispatch, hnak]
          rfl
        have hback : s.onSent ret Server.dispatch = s.nextFrame := by
          rw [onSent_eq _ hcall hok, hdisp]
        have href : Refusing (s.onSent ret Server.dispatch) := by
          rw [hback]
          exact Or.inl ⟨rfl, le_refl 0⟩
        refine unchanged_cons ?_ (fun _ _ => by rw [hcall]; exact fun hc => by cases hc) (ih href)
        rw [hback]
        exact ⟨rfl, rfl, rfl⟩

/-- The last reply of a session. -/
theorem frame_eotAck {s u : Server} {as : List Answer} (h : s.pc = .eotAck)
    (hb : s.headerBuf 0 = ack) (hf : Frame s as u) :
    replies (events s as) = [ack] ∧ ∀ p, (events s as).foldl fill p = p := by
  rcases frame_inv (not_over_of_pc h (by decide) (by decide)) hf with
    ⟨a, t, bs, rfl, hs, -, hf', htr⟩
  rcases step_eotAck h hs with ⟨ret, rfl, rfl⟩
  rcases frame_over (Or.inr rfl) hf' with ⟨rfl, -⟩
  rw [htr, show s.call = .send ack by simp only [Server.call, h, hb]]
  exact ⟨rfl, fun _ => rfl⟩

theorem frame_eotInfo {s u : Server} {as : List Answer} (hf : Frame s.eotInfo as u) :
    replies (events s.eotInfo as) = [ack] ∧ ∀ p, (events s.eotInfo as).foldl fill p = p := by
  rcases frame_inv (not_over_of_pc (p := .eotInfo) rfl (by decide) (by decide)) hf with
    ⟨a, t, bs, rfl, hs, -, hf', htr⟩
  rcases step_eotInfo rfl hs with ⟨ok, rfl, rfl⟩
  rcases frame_eotAck rfl rfl hf' with ⟨hrep, hfill⟩
  rw [htr]
  exact ⟨hrep, fun p => hfill p⟩

/-- The flash writes behind `EOT` come before its reply and receive nothing. -/
theorem frame_eotStart {s u : Server} {as : List Answer} (hf : Frame s.eotStart as u) :
    replies (events s.eotStart as) = [ack] ∧ ∀ p, (events s.eotStart as).foldl fill p = p := by
  by_cases hp : s.packCount ≠ 0
  · have hstart : s.eotStart = { s with packCount := 0, pc := .eotWrite } := by
      simp only [Server.eotStart, if_pos hp]
    rw [hstart] at hf ⊢
    rcases frame_inv (not_over_of_pc (p := .eotWrite) rfl (by decide) (by decide)) hf with
      ⟨a, t, bs, rfl, hs, -, hf', htr⟩
    rcases step_eotWrite rfl hs with ⟨ok, rfl, rfl⟩
    rcases frame_eotInfo hf' with ⟨hrep, hfill⟩
    rw [htr]
    exact ⟨hrep, fun p => hfill p⟩
  · have hstart : s.eotStart = s.eotInfo := by simp only [Server.eotStart, if_neg hp]
    rw [hstart] at hf ⊢
    exact frame_eotInfo hf

section Header

variable {s u : Server} {x y z : UInt8} {as : List Answer}

/-- The state behind an accepted header. -/
def afterHeader (s : Server) (x y z : UInt8) : Server :=
  Server.dispatch { s with headerBuf := s.headerBuf.store 0 [x, y, z], index := headerLen }

/-- The receive of the header is no reply and brings no payload. -/
theorem events_header (h : FrameFrom s (.received (.data x [y, z])) as u)
    (hsum : y.toNat + z.toNat = 0xff) : Frame (afterHeader s x y z) as u ∧
      replies (events s (.received (.data x [y, z]) :: as)) =
        replies (events (afterHeader s x y z) as) ∧
      ∀ p, (events s (.received (.data x [y, z]) :: as)).foldl fill p =
        (events (afterHeader s x y z) as).foldl fill p := by
  rcases h.rest with ⟨t, hs, hf⟩
  have htr := trace_cons step observe hs as
  rcases step_headerRecv h.pc hs with ⟨r, hr, -, rfl⟩
  cases hr
  rw [onHeader_accept s x y z h.index hsum] at hf htr
  have hcall : s.call = .recvHeader s.index (headerLen - s.index) := by
    simp only [Server.call, h.pc]
  rw [events, htr, observe, hcall]
  exact ⟨hf, rfl, fun p => rfl⟩

theorem afterHeader_soh (s : Server) (y z : UInt8) : afterHeader s soh y z =
    { s with
      headerBuf := s.headerBuf.store 0 [soh, y, z]
      index := headerLen
      dataIndex := 0
      retry := 9
      pc := .sohRecv } := rfl

theorem afterHeader_stx (s : Server) (y z : UInt8) : afterHeader s stx y z =
    { s with
      headerBuf := s.headerBuf.store 0 [stx, y, z]
      index := headerLen
      dataIndex := 0
      retry := 19
      pc := .stxRecv (blockingLwipRecv (s.packCount * maxDataSize + 0) (maxDataSize - 0)) } := rfl

theorem afterHeader_eot (s : Server) (y z : UInt8) : afterHeader s eot y z =
    Server.eotStart { s with headerBuf := s.headerBuf.store 0 [eot, y, z], index := headerLen } :=
  rfl

theorem afterHeader_other (hsoh : x ≠ soh) (hstx : x ≠ stx) (heot : x ≠ eot) :
    Over (afterHeader s x y z) := by
  have hnext : afterHeader s x y z = Server.nextFrame
      { s with headerBuf := s.headerBuf.store 0 [x, y, z], index := headerLen } :=
    (if_neg hsoh).trans ((if_neg hstx).trans (if_neg heot))
  rw [hnext]
  exact Or.inl ⟨rfl, rfl⟩

/-- An accepted header, whatever its frame byte: one reply and the whole payload,
    exactly for a payload that is in time. -/
theorem accepted_iff (h : FrameFrom s (.received (.data x [y, z])) as u)
    (hsum : y.toNat + z.toNat = 0xff) :
    ((replies (events s (.received (.data x [y, z]) :: as))).length = 1 ∧
      Received (payloadBase s x) (payloadSize x) (events s (.received (.data x [y, z]) :: as))) ↔
    InTime x as := by
  rcases events_header h hsum with ⟨hf, hrep, hfill⟩
  rw [Received, hrep, hfill]
  by_cases hsoh : x = soh
  · subst hsoh
    rw [afterHeader_soh] at hf ⊢
    refine (frame_sohRecv_iff rfl (by simp only; omega) hf).trans ?_
    constructor
    · rintro ⟨hr, hc⟩
      exact Or.inl ⟨rfl, hr, hc⟩
    · rintro (⟨-, hr, hc⟩ | ⟨hc, -⟩ | hc)
      · exact ⟨hr, hc⟩
      · exact absurd hc (by decide)
      · exact absurd hc (by decide)
  · by_cases hstx : x = stx
    · subst hstx
      rw [afterHeader_stx] at hf ⊢
      have hblock := inBlock_next { s with
        headerBuf := s.headerBuf.store 0 [stx, y, z], index := headerLen } 0 19 (by decide)
      refine Iff.trans ?_ ((frame_stxRecv_iff hblock hf).trans ?_)
      · simp only [blockingLwipRecv, add_zero]
        rfl
      constructor
      · rintro ⟨h1, h2, h3⟩
        exact Or.inr (Or.inl ⟨rfl, h1, h2, Nat.le_of_lt_succ h3⟩)
      · rintro (⟨hc, -⟩ | ⟨-, h1, h2, h3⟩ | hc)
        · exact absurd hc (by decide)
        · exact ⟨h1, h2, Nat.lt_succ_of_le h3⟩
        · exact absurd hc (by decide)
    · by_cases heot : x = eot
      · subst heot
        rw [afterHeader_eot] at hf ⊢
        rcases frame_eotStart hf with ⟨hr, hp⟩
        rw [hr, hp]
        exact ⟨fun _ => Or.inr (Or.inr rfl), fun _ => ⟨rfl, rfl⟩⟩
      · -- An unknown frame byte: the server is back at the next header, without a reply.
        rcases frame_over (afterHeader_other hsoh hstx heot) hf with ⟨rfl, -⟩
        refine ⟨fun hc => absurd hc.1 Nat.zero_ne_one, ?_⟩
        rintro (⟨hc, -⟩ | ⟨hc, -⟩ | hc)
        · exact absurd hc hsoh
        · exact absurd hc hstx
        · exact absurd hc heot

/-- Complete or not, the frame of an accepted header that has a payload is
    acknowledged. -/
theorem accepted_acks (h : FrameFrom s (.received (.data x [y, z])) as u)
    (hsum : y.toNat + z.toNat = 0xff)
    (hone : (replies (events s (.received (.data x [y, z]) :: as))).length = 1) :
    replies (events s (.received (.data x [y, z]) :: as)) = [ack] := by
  rcases events_header h hsum with ⟨hf, hrep, -⟩
  rw [hrep] at hone ⊢
  have hmem : ack ∈ replies (events (afterHeader s x y z) as) := by
    by_cases hsoh : x = soh
    · subst hsoh
      exact frame_acks hf (by rw [afterHeader_soh]; trivial)
    · by_cases hstx : x = stx
      · subst hstx
        exact frame_acks hf (by rw [afterHeader_stx]; trivial)
      · by_cases heot : x = eot
        · subst heot
          rw [afterHeader_eot] at hf ⊢
          rw [(frame_eotStart hf).1]
          exact List.mem_singleton.mpr rfl
        · rcases frame_over (afterHeader_other hsoh hstx heot) hf with ⟨rfl, -⟩
          exact absurd hone Nat.zero_ne_one
  rcases List.length_eq_one_iff.mp hone with ⟨b, hb⟩
  rw [hb] at hmem ⊢
  rw [List.mem_singleton.mp hmem]

end Header

/-- The replies to a frame keep their promise if and only if the frame, should its
    header be accepted, is of a known kind and its payload arrives in time. -/
theorem disciplined_iff {s u : Server} {a : Answer} {as : List Answer}
    (h : FrameFrom s a as u) :
    Disciplined s a as u ↔ ∀ x, Accepted a x → InTime x as := by
  constructor
  · rintro ⟨hacc, -, -⟩ x hx
    rcases hx with ⟨y, z, rfl, hsum⟩
    rcases hacc x ⟨y, z, rfl, hsum⟩ with ⟨hone, hrec⟩
    refine (accepted_iff h hsum).mp ⟨hone, hrec ?_⟩
    rw [accepted_acks h hsum hone]
    exact List.mem_singleton.mpr rfl
  · intro hin
    by_cases hacc : ∃ x, Accepted a x
    · -- An accepted frame in time has one reply, and it is no `NAK`.
      rcases hacc with ⟨x, y, z, rfl, hsum⟩
      rcases (accepted_iff h hsum).mpr (hin x ⟨y, z, rfl, hsum⟩) with ⟨hone, hrec⟩
      have hreply := accepted_acks h hsum hone
      refine ⟨?_, fun hnak => ?_, fun hnone => absurd ⟨y, z, rfl, hsum⟩ (hnone x)⟩
      · rintro x' ⟨y', z', heq, -⟩
        cases heq
        exact ⟨hone, fun _ => hrec⟩
      · rw [hreply] at hnak
        exact absurd (List.mem_singleton.mp hnak) (by decide)
    · -- A refused header changes nothing, whatever is sent.
      have hnone : ∀ x, ¬ Accepted a x := fun x hx => hacc ⟨x, hx⟩
      have hsame : Unchanged s u (events s (a :: as)) := by
        rcases h.rest with ⟨t, hs, hf⟩
        rcases step_headerRecv h.pc hs with ⟨r, rfl, hr, rfl⟩
        have hz : 0 ≤ s.index := by rw [h.index]
        rcases refusing_onHeader h.pc hz hr (fun _ => hnone) with ⟨href, hst⟩
        rw [show events s (.received r :: as) = (s.call, .received r) :: events (s.onHeader r) as
          from trace_cons step observe hs _]
        refine unchanged_cons hst (fun _ _ => ?_) (frame_refused hf href)
        simp only [Server.call, h.pc, ne_eq, reduceCtorEq, not_false_eq_true]
      exact ⟨fun x hx => absurd hx (hnone x), fun _ => hsame, fun _ => hsame⟩

/-- A server that has accepted its first connection and waits for a frame. -/
def idleServer : Server :=
  Server.nextFrame { bootServer with connected := 3, dataBuf := some fun _ => 0 }

/-- A receive in the middle of a frame. -/
theorem frame_received {s t u : Server} {r : Recv} {bs : List Answer} (h : s.pc = .sohRecv)
    (hs : step s (.received r) = some t) (hf : Frame t bs u) : Frame s (.received r :: bs) u :=
  .next (not_over_of_pc h (by decide) (by decide)) hs (not_sendFails_received s r) hf

theorem frame_sohAck {s : Server} (h : s.pc = .sohAck) : Frame s [.sent 1] s.nextFrame :=
  .next (not_over_of_pc h (by decide) (by decide)) (by simp only [step, h]; rfl)
    (not_sendFails_sent (by decide)) (.ended (Or.inl ⟨rfl, rfl⟩))

/-- A length that arrives in two pieces with a pause between them. -/
theorem disciplined_splitLength : ∃ u, Disciplined idleServer (.received (.data soh [0, 255]))
    [.received (.data 0 [0, 4]), .received .closed, .received (.data 0 []), .sent 1] u := by
  have hframe : ∃ u, FrameFrom idleServer (.received (.data soh [0, 255]))
      [.received (.data 0 [0, 4]), .received .closed, .received (.data 0 []), .sent 1] u :=
    ⟨_, rfl, rfl, _, rfl, frame_received rfl rfl
      (frame_received rfl rfl (frame_received rfl rfl (frame_sohAck rfl)))⟩
  rcases hframe with ⟨u, hf⟩
  refine ⟨u, (disciplined_iff hf).mpr ?_⟩
  rintro x ⟨y, z, heq, -⟩
  cases heq
  refine Or.inl ⟨rfl, fun r hr => ?_, by decide⟩
  simp only [List.mem_cons, Answer.received.injEq, reduceCtorEq, List.not_mem_nil, or_false] at hr
  rcases hr with rfl | rfl | rfl
  · decide
  · decide
  · decide

theorem step_closed {s : Server} (h : s.pc = .sohRecv) (hd : s.dataIndex < 4) :
    step s (.received .closed) = some (s.onLength .closed) := by
  simp only [step, h]
  exact if_pos (by simp only [Recv.ret]; omega)

/-- Waiting for a length that does not come uses the retries up and is acknowledged. -/
theorem frame_silent {s : Server} (h : s.pc = .sohRecv) (hd : s.dataIndex < 4) :
    ∃ u, Frame s (List.replicate (s.retry + 1) (.received .closed) ++ [.sent 1]) u := by
  generalize hk : s.retry = k
  induction k generalizing s with
  | zero =>
      have hs := step_closed h hd
      rcases onLength_cases s .closed hd with ⟨hn, -⟩ | ⟨hn, -⟩ | ⟨-, hn, -⟩ | ⟨-, -, hon⟩
      · exact absurd hk hn
      · exact absurd hk hn
      · exact absurd rfl hn
      · rw [hon] at hs
        exact ⟨_, frame_received h hs (frame_sohAck rfl)⟩
  | succ k ih =>
      have hs := step_closed h hd
      rcases onLength_cases s .closed hd with ⟨-, hlt, hon⟩ | ⟨-, hge, -⟩ | ⟨hn, -⟩ | ⟨hn, -⟩
      · rcases ih (s := s.onLength .closed) (by rw [hon]) (by rw [hon]; exact hlt)
          (by rw [hon]; simp only [hk, Nat.add_sub_cancel]) with ⟨u, hf⟩
        exact ⟨u, frame_received h hs hf⟩
      · simp only [Recv.ret] at hge
        omega
      · omega
      · omega

/-- A length that never arrives is acknowledged all the same. -/
theorem not_disciplined_after_timeouts :
    ¬ ∀ (s u : Server) (a : Answer) (as : List Answer), FrameFrom s a as u →
      Disciplined s a as u := by
  intro h
  rcases frame_silent (s := afterHeader idleServer soh 0 255) rfl (by decide) with ⟨u, hf⟩
  have hd := h idleServer u (.received (.data soh [0, 255])) _ ⟨rfl, rfl, _, rfl, hf⟩
  have hrec := (hd.1 soh ⟨0, 255, rfl, rfl⟩).2 (by decide)
  exact absurd hrec (by unfold Received; decide)

end Update

end Firmware
