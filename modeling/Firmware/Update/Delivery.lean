import Firmware.Update.Replies

/-!
# Delivery

A session that goes well, from the connection to the reset: whatever the server
was left with by earlier connections and however the network cuts the stream, the
image ends up in flash.

What the client sends and how it arrives is a grammar of answers. `Pieces` is a
payload cut into receives of any positive sizes, `Arrives` the same with the
`lwip_select` in front of every receive and a number of time-outs in between,
`Blocks` the image block by block and `Session` the whole connection. The flash
and the replies go through, so their answers are part of the grammar too; where
they stand is not an assumption, because a run is only defined if every answer is
one to the call the server is waiting in.

The proof goes up the same ladder. A `Passage` is a stretch of a run together
with the replies and the flash writes it makes, and passages compose. Each loop of
the source has one, by induction on the grammar: the length, a block, a frame with
its page write, and all the blocks, where the invariant is `Filled`. After `n`
blocks `page_offset` and `pack_count` are quotient and remainder of `n` by four,
and the page buffer starts with the blocks that are not in flash yet.

## Main definitions

* `Arrives`: How a block reaches the server.
* `Session`: How a connection that delivers an image goes.
* `Passage`: A stretch of a run, what it replies and what it writes.
* `Filled`: The state between two blocks.
* `Delivered`: The flash writes of an image.

## Theorems

* `passage_pieces`, `passage_arrives`: The two payload loops.
* `passage_block`: One `STX` frame.
* `passage_blocks`: All of them.
* `session_delivers`: Every such session delivers the image.
-/

namespace Firmware

namespace Update

/-- The bytes, cut into receives of any positive sizes. -/
inductive Pieces : List UInt8 → List Answer → Prop
  | nil : Pieces [] []
  | piece (b : UInt8) (bs : List UInt8) {rest : List UInt8} {as : List Answer}
      (h : Pieces rest as) : Pieces ((b :: bs) ++ rest) (.received (.data b bs) :: as)

/-- The bytes, cut into receives of any positive sizes with a select in front of
    each, and with `k` selects that time out before the last byte is there. -/
inductive Arrives : Nat → List UInt8 → List Answer → Prop
  | nil : Arrives 0 [] []
  | timeout {k : Nat} {rest : List UInt8} {as : List Answer} (hne : rest ≠ [])
      (h : Arrives k rest as) : Arrives (k + 1) rest (.selected 0 :: as)
  | piece (ret : Int) (hret : 0 < ret) (b : UInt8) (bs : List UInt8) {k : Nat}
      {rest : List UInt8} {as : List Answer} (h : Arrives k rest as) :
      Arrives k ((b :: bs) ++ rest) (.selected ret :: .received (.data b bs) :: as)

/-- The answer to the page write behind block `n`, if it is the fourth of its page. -/
def pageAnswer (n : Nat) : List Answer := if n % 4 = 3 then [.stored true] else []

/-- The blocks from block `n` on: header, payload with fewer than 19 time-outs,
    page write and reply. -/
inductive Blocks : Nat → List (List UInt8) → List Answer → Prop
  | nil (n : Nat) : Blocks n [] []
  | block {n k : Nat} {a : Answer} {b : List UInt8} {bs : List (List UInt8)}
      {payload as : List Answer} {ret : Int} (ha : Accepted a stx) (hb : b.length = maxDataSize)
      (hp : Arrives k b payload) (hk : k < 19) (hret : 0 ≤ ret) (h : Blocks (n + 1) bs as) :
      Blocks n (b :: bs) (a :: (payload ++ (pageAnswer n ++ .sent ret :: as)))

/-- The answers behind an `EOT` header: a page write if the last page is not full,
    the information sector and the reply. -/
def eotAnswer (n : Nat) (ret : Int) : List Answer :=
  (if n % 4 ≠ 0 then [.stored true] else []) ++ [.stored true, .sent ret]

/-- A connection that delivers `image`, cut into `blocks` with some padding in the
    last one, without an error. The length goes first, in four bytes. -/
inductive Session (image : List UInt8) (blocks : List (List UInt8)) : List Answer → Prop
  | session {a e : Answer} {length body : List Answer} {fd ret ret' : Int} {p : Page}
      {padding bytes : List UInt8} (hcut : blocks.flatten = image ++ padding)
      (hpad : padding.length < maxDataSize) (hpages : (blocks.length + 3) / 4 ≤ 65535)
      (ha : Accepted a soh) (hn : BigEndian image.length bytes) (hl : Pieces bytes length)
      (hret : 0 ≤ ret) (hb : Blocks 0 blocks body) (he : Accepted e eot) (hret' : 0 ≤ ret') :
      Session image blocks (.accepted fd :: .done :: .allocated (some p) :: a ::
        (length ++ .sent ret :: (body ++ e :: eotAnswer blocks.length ret')))

/-- A stretch of a run, the replies it sends and the flash writes it makes. -/
structure Passage (s : Server) (as : List Answer) (t : Server) (rs : List UInt8)
    (ws : List (Nat × Option Page)) : Prop where
  run : run step s as = some t
  replies : replies (events s as) = rs
  writes : writes (events s as) = ws

namespace Passage

variable {s t u : Server} {a : Answer} {as bs : List Answer} {rs rs' : List UInt8}
  {ws ws' : List (Nat × Option Page)}

theorem refl (s : Server) : Passage s [] s [] [] := ⟨rfl, rfl, rfl⟩

theorem append (h : Passage s as t rs ws) (h' : Passage t bs u rs' ws') :
    Passage s (as ++ bs) u (rs ++ rs') (ws ++ ws') := by
  have htr : events s (as ++ bs) = events s as ++ events t bs := trace_append step observe h.run bs
  refine ⟨by rw [run_append step h.run]; exact h'.run, ?_, ?_⟩
  · rw [htr, ← h.replies, ← h'.replies]
    exact List.filterMap_append
  · rw [htr, ← h.writes, ← h'.writes]
    exact List.filterMap_append

/-- One call in front of a stretch, with what it adds. -/
theorem cons {c : Call} (hs : step s a = some t) (hc : s.call = c) (h : Passage t as u rs ws) :
    Passage s (a :: as) u (Update.replies [(c, a)] ++ rs) (Update.writes [(c, a)] ++ ws) := by
  have htr : events s (a :: as) = [(c, a)] ++ events t as := by
    rw [← hc]
    exact trace_cons step observe hs as
  refine ⟨by rw [run_cons step hs]; exact h.run, ?_, ?_⟩
  · rw [htr, ← h.replies]
    exact List.filterMap_append
  · rw [htr, ← h.writes]
    exact List.filterMap_append

/-- A call that neither replies nor writes. -/
theorem quiet {c : Call} (hs : step s a = some t) (hc : s.call = c) (hsilent : c.silent = true)
    (h : Passage t as u rs ws) : Passage s (a :: as) u rs ws := by
  rcases (Call.silent_iff c).mp hsilent with ⟨hsend, hwrite⟩
  have hcons := cons hs hc h
  simpa only [Update.replies, Update.writes, List.filterMap_cons, List.filterMap_nil,
    List.nil_append] using hcons

theorem send {b : UInt8} (hs : step s a = some t) (hc : s.call = .send b)
    (h : Passage t as u rs ws) : Passage s (a :: as) u (b :: rs) ws :=
  cons hs hc h

theorem write {sector : Nat} {page : Option Page} (hs : step s a = some t)
    (hc : s.call = .write sector page) (h : Passage t as u rs ws) :
    Passage s (a :: as) u rs ((sector, page) :: ws) :=
  cons hs hc h

end Passage

/-- The length loop: any pieces of the four bytes, with retries to spare. -/
theorem passage_pieces {s : Server} {bytes : List UInt8} {as : List Answer}
    (hp : Pieces bytes as) (h : s.pc = .sohRecv) (hne : bytes ≠ []) (h0 : 0 ≤ s.dataIndex)
    (hlen : s.dataIndex + bytes.length = 4) (hk : bytes.length ≤ s.retry) :
    ∃ d k p, Passage s as (Server.sohDone
      { s with buf := s.buf.store s.dataIndex bytes, dataIndex := d, retry := k, pc := p })
      [] [] := by
  induction hp generalizing s with
  | nil => exact absurd rfl hne
  | @piece b bs rest as _ ih =>
      have hret : (Recv.data b bs).ret = ((b :: bs).length : Int) := Recv.ret_data b bs
      rw [List.length_append] at hlen hk
      have hpos : 0 < (b :: bs).length := Nat.succ_pos _
      -- A piece is never longer than what the call has asked for.
      have hs : step s (.received (.data b bs)) = some (s.onLength (.data b bs)) := by
        simp only [step, h]
        exact if_pos (by rw [hret]; omega)
      have hcall : s.call = .recvLength s.dataIndex (4 - s.dataIndex) := by
        simp only [Server.call, h]
      have hquiet : ∀ {t rs ws as'}, Passage (s.onLength (.data b bs)) as' t rs ws →
          Passage s (.received (.data b bs) :: as') t rs ws := fun ht =>
        ht.quiet hs hcall rfl
      rcases onLength_cases s (.data b bs) (by omega) with
        ⟨-, hlt, hon⟩ | ⟨-, hge, hon⟩ | ⟨hz, -⟩ | ⟨hz, -⟩
      · -- More to come: the rest goes behind this piece.
        rw [hret] at hlt
        have hrest : rest ≠ [] := by
          rintro rfl
          simp only [List.length_nil] at hlen
          omega
        rcases ih (s := s.onLength (.data b bs)) (by rw [hon]) hrest
          (by rw [hon, hret]; simp only; omega) (by rw [hon, hret]; simp only; omega)
          (by rw [hon]; simp only; omega) with ⟨d, k, p, hpass⟩
        refine ⟨d, k, p, hquiet ?_⟩
        rw [hon, hret] at hpass
        rw [hon, hret, ← Buffer.store_append]
        exact hpass
      · -- The last piece.
        rw [hret] at hge
        have hrest : rest = [] := List.length_eq_zero_iff.mp (by omega)
        subst hrest
        rename_i hnil
        cases hnil
        refine ⟨s.dataIndex + (Recv.data b bs).ret, s.retry, s.pc, hquiet ?_⟩
        rw [hon, List.append_nil]
        exact Passage.refl _
      · omega
      · omega

/-- The receive of a piece: the bytes are in the page buffer. -/
theorem step_piece {s : Server} {b : BlockingRecv} {p : Page} (x : UInt8) (bs : List UInt8)
    (h : s.pc = .stxRecv b) (hb : b.pc = .recvfrom) (hd : s.dataBuf = some p)
    (hlen : ((x :: bs).length : Int) ≤ b.len - b.offset) :
    step s (.received (.data x bs)) = some (Server.onOutcome
      { s with dataBuf := some (p.store (b.mem + b.offset) (x :: bs)) }
      (b.onRecvfrom (.data x bs))) := by
  simp only [step, h, hb, hd, Answer.asReceived, Option.bind_some, Option.map_some, Recv.bytes]
  rw [if_pos (by rw [Recv.ret_data]; exact hlen)]

/-- The block loop: any pieces of the block and fewer time-outs than retries. The
    induction is on how the block arrives; a time-out starts a new call of
    `blocking_lwip_recv` where the last one ended. -/
theorem passage_arrives {s : Server} {b : BlockingRecv} {p : Page} {n : Nat}
    {bytes : List UInt8} {as : List Answer} (ha : Arrives n bytes as) (h : InBlock s b)
    (hpc : b.pc = .select) (hne : bytes ≠ []) (hlen : b.offset + bytes.length = b.len)
    (hd : s.dataBuf = some p) (hk : n < s.retry) :
    ∃ d k q, Passage s as (Server.stxDone
      { s with
        dataBuf := some (p.store (b.mem + b.offset) bytes)
        dataIndex := d
        retry := k
        pc := q }) [] [] := by
  induction ha generalizing s b p with
  | nil => exact absurd rfl hne
  | @timeout n rest as _ _ ih =>
      have hmem := h.mem
      have hblen := h.len
      have hmore := h.more
      have hcall : s.call = .select := by simp only [Server.call, h.pc, hpc]
      -- The call returns what it has, and that is no error.
      have hs : step s (.selected 0) = some (s.onBlock b.offset) := by
        simp only [step, h.pc, hpc]
        rfl
      rcases onBlock_cases s b.offset h.index with
        ⟨-, hlt, hon⟩ | ⟨-, hge, -⟩ | ⟨hz, -⟩ | ⟨hz, -⟩
      · -- The loop goes round; the other ways out need more bytes or fewer retries.
        have hin := inBlock_next s (s.dataIndex + b.offset) (s.retry - 1) hlt
        rcases ih hin rfl hne (by simp only [blockingLwipRecv]; omega) hd
          (by simp only; omega) with ⟨d, k, q, hpass⟩
        refine ⟨d, k, q, Passage.quiet hs hcall rfl ?_⟩
        have hpos : b.mem + b.offset =
            s.packCount * maxDataSize + (s.dataIndex + b.offset) + 0 := by
          omega
        rw [hon, hpos]
        exact hpass
      · omega
      · omega
      · omega
  | @piece ret hret x bs n rest as ht ih =>
      have hmem := h.mem
      have hblen := h.len
      have hidx := h.index
      have hoff := h.offset
      have hpos : 0 < (x :: bs).length := Nat.succ_pos _
      rw [List.length_append] at hlen
      have hcall : s.call = .select := by simp only [Server.call, h.pc, hpc]
      -- Data is there, so `lwip_recvfrom` follows in the same call.
      have hs : step s (.selected ret) =
          some { s with pc := .stxRecv { b with pc := .recvfrom } } := by
        simp only [step, h.pc, hpc, Answer.asSelected, Option.map_some, BlockingRecv.onSelect,
          if_neg (by omega : ¬ ret = 0), if_neg (by omega : ¬ ret < 0), Server.onOutcome]
      have hs' := step_piece (s := { s with pc := .stxRecv { b with pc := .recvfrom } })
        (b := { b with pc := .recvfrom }) x bs rfl rfl hd (by simp only; omega)
      have hquiet : ∀ {t as'}, Passage (Server.onOutcome
          { s with
            pc := .stxRecv { b with pc := .recvfrom }
            dataBuf := some (p.store (b.mem + b.offset) (x :: bs)) }
          (BlockingRecv.onRecvfrom { b with pc := .recvfrom } (.data x bs))) as' t [] [] →
          Passage s (.selected ret :: .received (.data x bs) :: as') t [] [] := by
        intro t as' hpass
        refine Passage.quiet hs hcall rfl ?_
        exact Passage.quiet hs' rfl rfl hpass
      rcases onRecvfrom_cases { b with pc := .recvfrom } (.data x bs) with
        ⟨hz, -⟩ | ⟨-, hfull, ho⟩ | ⟨-, hpart, ho⟩
      · rw [Recv.ret_data] at hz
        omega
      · -- The last piece: `blocking_lwip_recv` returns the whole length.
        rw [Recv.ret_data] at hfull
        simp only at hfull
        have hrest : rest = [] := List.length_eq_zero_iff.mp (by omega)
        subst hrest
        cases ht with
        | nil =>
            rw [ho] at hquiet
            rcases onBlock_cases { s with
                pc := .stxRecv { b with pc := .recvfrom }
                dataBuf := some (p.store (b.mem + b.offset) (x :: bs)) } b.len hidx with
              ⟨-, hlt, -⟩ | ⟨-, -, hon⟩ | ⟨hz, -⟩ | ⟨hz, -⟩
            · simp only at hlt
              omega
            · refine ⟨s.dataIndex + b.len, s.retry, .stxRecv { b with pc := .recvfrom }, hquiet ?_⟩
              rw [List.append_nil]
              exact hon ▸ Passage.refl _
            · simp only at hz
              omega
            · simp only at hz
              omega
        | timeout hne' _ => exact absurd rfl hne'
      · -- More to come: the next select belongs to the same call.
        rw [Recv.ret_data] at hpart
        simp only at hpart
        have hrest : rest ≠ [] := by
          rintro rfl
          simp only [List.length_nil] at hlen
          omega
        rw [ho, Recv.ret_data] at hquiet
        rcases ih (s := { s with
              pc := .stxRecv { b with offset := b.offset + ((x :: bs).length : Int), pc := .select }
              dataBuf := some (p.store (b.mem + b.offset) (x :: bs)) })
            (b := { b with offset := b.offset + ((x :: bs).length : Int), pc := .select })
            ⟨rfl, hmem, hblen, hidx, by simp only; omega, by simp only; omega⟩ rfl hrest
            (by simp only; omega) rfl hk with ⟨d, k, q, hpass⟩
        refine ⟨d, k, q, hquiet ?_⟩
        rw [← Buffer.store_append, add_assoc]
        exact hpass

/-- The server between two frames, `n` blocks after the length, `sent` being their
    bytes: the pages that are full are in flash, the blocks of the next one at the
    start of the page buffer. -/
structure Filled (n : Nat) (sent : List UInt8) (s : Server) : Prop where
  pc : s.pc = .headerRecv
  index : s.index = 0
  packCount : s.packCount = n % 4
  pageOffset : s.pageOffset = n / 4
  length : sent.length = maxDataSize * n
  page : ∃ p, s.dataBuf = some p ∧ p.Holds 0 (sent.drop (bufSz * (n / 4)))

/-- The flash writes of consecutive pages, the first of them page `o`. -/
def pageWrites (o : Nat) (pages : List Page) : List (Nat × Option Page) :=
  pages.mapIdx fun i p => (updateDataAddr + (o + i), some p)

/-- The pages, the first of them page `o`, begin with the bytes that belong there. -/
def Slices (total : List UInt8) (o : Nat) (pages : List Page) : Prop :=
  ∀ (i : Nat) (p : Page), pages[i]? = some p →
    p.Holds 0 ((total.drop (bufSz * (o + i))).take bufSz)

/-- The flash writes of a whole image: its pages in order, each in its own sector,
    then the information sector with the length and `MAGIC`. -/
def Delivered (total : List UInt8) (length : Nat) (ws : List (Nat × Option Page)) : Prop :=
  ∃ pages info, ws = pageWrites 0 pages ++ [(updateInfoAddr, some info)] ∧
    pages.length = (total.length + (bufSz - 1)) / bufSz ∧ Slices total 0 pages ∧
    InfoSector length info

theorem pageWrites_cons (o : Nat) (p : Page) (pages : List Page) :
    pageWrites o (p :: pages) = (updateDataAddr + o, some p) :: pageWrites (o + 1) pages := by
  simp only [pageWrites, List.mapIdx_cons, add_zero, List.cons.injEq, true_and]
  congr 1
  funext i q
  rw [Nat.add_assoc o 1 i, Nat.add_comm 1 i]

theorem pageWrites_append (o : Nat) (pages pages' : List Page) :
    pageWrites o (pages ++ pages') =
      pageWrites o pages ++ pageWrites (o + pages.length) pages' := by
  induction pages generalizing o with
  | nil => rfl
  | cons p pages ih =>
      rw [List.cons_append, pageWrites_cons, pageWrites_cons, ih, List.length_cons,
        List.cons_append, Nat.add_assoc o 1, Nat.add_comm 1]

theorem slices_nil (total : List UInt8) (o : Nat) : Slices total o [] := by
  intro i p h
  cases h

theorem slices_cons {total : List UInt8} {o : Nat} {p : Page} {pages : List Page}
    (hp : p.Holds 0 ((total.drop (bufSz * o)).take bufSz)) (h : Slices total (o + 1) pages) :
    Slices total o (p :: pages) := by
  intro i q hq
  cases i with
  | zero =>
      rw [List.getElem?_cons_zero, Option.some.injEq] at hq
      rw [← hq]
      exact hp
  | succ i =>
      rw [List.getElem?_cons_succ] at hq
      have hq' := h i q hq
      rw [Nat.add_assoc o 1, Nat.add_comm 1] at hq'
      exact hq'

theorem slices_append {total : List UInt8} {o : Nat} {pages pages' : List Page}
    (h : Slices total o pages) (h' : Slices total (o + pages.length) pages') :
    Slices total o (pages ++ pages') := by
  induction pages generalizing o with
  | nil => exact h'
  | cons p pages ih =>
      refine slices_cons (h 0 p rfl) (ih (fun i q hq => ?_) ?_)
      · rw [Nat.add_assoc o 1, Nat.add_comm 1]
        exact h (i + 1) q hq
      · rw [List.length_cons] at h'
        rw [Nat.add_assoc o 1, Nat.add_comm 1]
        exact h'

/-- Behind a block: the page write if it was the fourth, and the reply. -/
theorem passage_stxDone {s : Server} {p : Page} {n : Nat} {ret : Int}
    (hp : s.packCount = n % 4) (ho : s.pageOffset = n / 4) (hd : s.dataBuf = some p)
    (hn : n / 4 < 65535) (hret : 0 ≤ ret) :
    Passage s.stxDone (pageAnswer n ++ [.sent ret])
      (Server.nextFrame (Server.reply
        { s with packCount := (n + 1) % 4, pageOffset := (n + 1) / 4 } ack .stxAck))
      [ack] (if n % 4 = 3 then [(updateDataAddr + n / 4, some p)] else []) := by
  have hreply : ∀ t : Server, Passage (t.reply ack .stxAck) [.sent ret]
      (Server.nextFrame (t.reply ack .stxAck)) [ack] [] := by
    intro t
    refine Passage.send ?_ rfl (Passage.refl _)
    simp only [step, Server.reply, Answer.asSent, Option.map_some, Server.onSent,
      if_neg (by omega : ¬ ret < 0)]
  by_cases h3 : n % 4 = 3
  · -- The fourth block of its page.
    have hdone : s.stxDone = { s with packCount := 0, pc := .stxWrite } := by
      simp only [Server.stxDone, hp, h3]
      rfl
    have hwritten : Server.pageWritten { s with packCount := 0, pc := .stxWrite } =
        { s with packCount := (n + 1) % 4, pageOffset := (n + 1) / 4, pc := .stxWrite } := by
      simp only [Server.pageWritten, ho]
      rw [Nat.mod_eq_of_lt (by omega : n / 4 + 1 < 2 ^ 16), (by omega : (n + 1) % 4 = 0),
        (by omega : (n + 1) / 4 = n / 4 + 1)]
    have hs : step { s with packCount := 0, pc := .stxWrite } (.stored true) = some (Server.reply
        { s with packCount := (n + 1) % 4, pageOffset := (n + 1) / 4, pc := .stxWrite }
        ack .stxAck) := by
      rw [← hwritten]
      rfl
    rw [pageAnswer, if_pos h3, if_pos h3, hdone]
    exact Passage.write hs (by simp only [Server.call, ho, hd]) (hreply _)
  · have hdone : s.stxDone = Server.reply
        { s with packCount := (n + 1) % 4, pageOffset := (n + 1) / 4 } ack .stxAck := by
      have hmod : (n % 4 + 1) % 2 ^ 16 = (n + 1) % 4 := by omega
      simp only [Server.stxDone, hp, hmod, if_neg (by omega : ¬ (n + 1) % 4 = 4)]
      rw [(by omega : (n + 1) / 4 = n / 4), ← ho]
    rw [pageAnswer, if_neg h3, if_neg h3, hdone]
    exact hreply _

/-- The receive of a valid header. -/
theorem passage_header {s t : Server} {x y z : UInt8} {as : List Answer} {rs : List UInt8}
    {ws : List (Nat × Option Page)} (h : s.pc = .headerRecv) (h0 : s.index = 0)
    (hsum : y.toNat + z.toNat = 0xff) (hp : Passage (afterHeader s x y z) as t rs ws) :
    Passage s (.received (.data x [y, z]) :: as) t rs ws := by
  have hcall : s.call = .recvHeader s.index (headerLen - s.index) := by
    simp only [Server.call, h]
  have hs : step s (.received (.data x [y, z])) = some (afterHeader s x y z) := by
    have hle : (Recv.data x [y, z]).ret ≤ headerLen - s.index := by
      rw [h0]
      exact le_refl _
    rw [afterHeader, ← onHeader_accept s x y z h0 hsum]
    simp only [step, h, Answer.asReceived, Option.bind_some, if_pos hle]
  exact Passage.quiet hs hcall rfl hp

/-- The page buffer behind a block that follows the ones it holds already. -/
theorem holds_block {p : Page} {sent b : List UInt8} {n : Nat}
    (hlen : sent.length = maxDataSize * n) (hb : b.length = maxDataSize)
    (hp : p.Holds 0 (sent.drop (bufSz * (n / 4)))) :
    (p.store ((n % 4 : Nat) * maxDataSize) b).Holds 0 ((sent ++ b).drop (bufSz * (n / 4))) := by
  have hle : bufSz * (n / 4) ≤ sent.length := by
    rw [hlen, maxDataSize, bufSz]
    omega
  have hdrop : (sent.drop (bufSz * (n / 4))).length = n % 4 * maxDataSize := by
    rw [List.length_drop, hlen, maxDataSize, bufSz]
    omega
  -- The block lands behind the bytes of its page, which are those of the blocks before.
  rw [List.drop_append_of_le_length hle]
  refine Buffer.holds_append _ _ _ _ (Buffer.holds_store_after _ _ _ _ _ hp ?_) ?_
  · rw [hdrop]
    push_cast
    omega
  · rw [hdrop, Nat.zero_add]
    exact Buffer.holds_store p (n % 4 * maxDataSize) b
      (by rw [hb, maxDataSize, bufSz]; omega)

/-- One block: its header, its payload, the page write if it completes a page, and
    the reply. -/
theorem passage_block {s : Server} {n k : Nat} {sent b : List UInt8} {a : Answer}
    {payload : List Answer} {ret : Int} (hf : Filled n sent s) (ha : Accepted a stx)
    (hb : b.length = maxDataSize) (hp : Arrives k b payload) (hk : k < 19) (hret : 0 ≤ ret)
    (hn : n / 4 < 65535) :
    ∃ t p, Filled (n + 1) (sent ++ b) t ∧ t.totalSize = s.totalSize ∧
      p.Holds 0 ((sent ++ b).drop (bufSz * (n / 4))) ∧
      Passage s (a :: (payload ++ (pageAnswer n ++ [.sent ret]))) t [ack]
        (if n % 4 = 3 then [(updateDataAddr + n / 4, some p)] else []) := by
  rcases ha with ⟨y, z, rfl, hsum⟩
  rcases hf.page with ⟨p, hd, hholds⟩
  have hlen := hf.length
  have hblock := inBlock_next { s with
    headerBuf := s.headerBuf.store 0 [stx, y, z], index := headerLen } 0 19 (by decide)
  rcases passage_arrives hp hblock rfl (by rintro rfl; cases hb)
    (by simp only [blockingLwipRecv, hb]; omega) hd hk with ⟨d, r, q, hload⟩
  -- Where the block went: behind the blocks of its page that came before it.
  have hpos : ((s.packCount : Int) * maxDataSize + 0 + 0) = (n % 4 : Nat) * maxDataSize := by
    rw [hf.packCount, add_zero, add_zero]
  have hpage := holds_block hlen hb hholds
  rw [← hpos] at hpage
  have hdone := passage_stxDone (s := { s with
      headerBuf := s.headerBuf.store 0 [stx, y, z]
      index := headerLen
      dataBuf := some (p.store (s.packCount * maxDataSize + 0 + 0) b)
      dataIndex := d
      retry := r
      pc := q }) (n := n) hf.packCount hf.pageOffset rfl hn hret
  -- `total_size` is only written by the length frame.
  refine ⟨_, p.store (s.packCount * maxDataSize + 0 + 0) b, ?filled, ?size, hpage,
    passage_header hf.pc hf.index hsum (afterHeader_stx s y z ▸ hload.append hdone)⟩
  case size => rfl
  case filled =>
    refine ⟨rfl, rfl, rfl, rfl, ?_, _, rfl, ?_⟩
    · rw [List.length_append, hlen, hb, maxDataSize]
      omega
    · -- A page that has just been written leaves nothing for the next one.
      by_cases h3 : n % 4 = 3
      · rw [List.drop_eq_nil_of_le (by
          rw [List.length_append, hlen, hb, maxDataSize, bufSz]
          omega)]
        exact Buffer.holds_nil _ _
      · rw [(by omega : (n + 1) / 4 = n / 4)]
        exact hpage

/-- A page that is full holds the same bytes whatever is sent behind it. -/
theorem take_full {total sent : List UInt8} {rest : List UInt8} {n : Nat}
    (htotal : total = sent ++ rest) (hlen : sent.length = maxDataSize * (n + 1))
    (h3 : n % 4 = 3) :
    (total.drop (bufSz * (n / 4))).take bufSz = sent.drop (bufSz * (n / 4)) := by
  have hle : bufSz * (n / 4) ≤ sent.length := by
    rw [hlen, maxDataSize, bufSz]
    omega
  have hdrop : (sent.drop (bufSz * (n / 4))).length = bufSz := by
    rw [List.length_drop, hlen, maxDataSize, bufSz]
    omega
  rw [htotal, List.drop_append_of_le_length hle, List.take_append_of_le_length hdrop.ge,
    List.take_of_length_le hdrop.le]

/-- All the blocks: one reply for each, and the full pages in flash. The induction
    is on the blocks still to come. -/
theorem passage_blocks {s : Server} {n : Nat} {sent total : List UInt8}
    {blocks : List (List UInt8)} {as : List Answer} (hbs : Blocks n blocks as)
    (hf : Filled n sent s) (htotal : total = sent ++ blocks.flatten)
    (hn : n + blocks.length ≤ 4 * 65535) :
    ∃ t pages, Filled (n + blocks.length) total t ∧ t.totalSize = s.totalSize ∧
      Passage s as t (List.replicate blocks.length ack) (pageWrites (n / 4) pages) ∧
      n / 4 + pages.length = (n + blocks.length) / 4 ∧ Slices total (n / 4) pages := by
  induction hbs generalizing s sent with
  | nil n =>
      rw [List.flatten_nil, List.append_nil] at htotal
      rw [htotal]
      exact ⟨s, [], hf, rfl, Passage.refl s, rfl, slices_nil _ _⟩
  | @block n k a b bs payload as ret ha hb hp hk hret _ ih =>
      rw [List.length_cons] at hn ⊢
      rw [List.flatten_cons, ← List.append_assoc] at htotal
      rcases passage_block hf ha hb hp hk hret (by omega) with ⟨t, p, ht, hsize, hpage, hpass⟩
      rcases ih ht htotal (by omega) with ⟨u, pages, hu, hsize', hpass', hcount, hslices⟩
      have hcut : a :: (payload ++ (pageAnswer n ++ .sent ret :: as)) =
          a :: (payload ++ (pageAnswer n ++ [.sent ret])) ++ as := by
        simp only [List.append_assoc, List.cons_append, List.nil_append]
      -- Behind this block the server is between two frames again, with one more block.
      have hlen : n + (bs.length + 1) = n + 1 + bs.length := by omega
      rw [hcut, hlen, List.replicate_succ]
      have hboth := hpass.append hpass'
      by_cases h3 : n % 4 = 3
      · -- The block completes page `n / 4`.
        have hnext : (n + 1) / 4 = n / 4 + 1 := by omega
        rw [hnext] at hboth hcount hslices
        rw [if_pos h3] at hboth
        rw [← take_full htotal ht.length h3] at hpage
        refine ⟨u, p :: pages, hu, hsize'.trans hsize, ?_, ?_, slices_cons hpage hslices⟩
        · rw [pageWrites_cons]
          exact hboth
        · rw [List.length_cons]
          omega
      · -- It stays in the buffer, and the next blocks go behind it.
        have hnext : (n + 1) / 4 = n / 4 := by omega
        rw [hnext] at hboth hcount hslices
        rw [if_neg h3, List.nil_append] at hboth
        exact ⟨u, pages, hu, hsize'.trans hsize, hboth, hcount, hslices⟩

/-- The length frame: the four bytes are `total_size` and the count starts over. -/
theorem passage_soh {s : Server} {p : Page} {a : Answer} {n : Nat} {bytes : List UInt8}
    {length : List Answer} {ret : Int} (h : s.pc = .headerRecv) (h0 : s.index = 0)
    (hd : s.dataBuf = some p) (ha : Accepted a soh) (hn : BigEndian n bytes)
    (hl : Pieces bytes length) (hret : 0 ≤ ret) :
    ∃ t, Filled 0 [] t ∧ t.totalSize.toNat = n ∧
      Passage s (a :: (length ++ [.sent ret])) t [ack] [] := by
  rcases ha with ⟨y, z, rfl, hsum⟩
  -- The number is what the bytes are worth, not what some encoder makes of it.
  rcases hn with ⟨hcount, hvalue⟩
  have hne : bytes ≠ [] := by
    rintro rfl
    cases hcount
  rcases passage_pieces (s := afterHeader s soh y z) hl rfl hne (le_refl 0)
    (by rw [hcount]; rfl) (by rw [hcount]; exact Nat.le_add_left 4 5) with ⟨d, k, q, hload⟩
  have hreply : ∀ v : Server, Passage v.sohDone [.sent ret] (Server.nextFrame v.sohDone)
      [ack] [] := by
    intro v
    refine Passage.send ?_ rfl (Passage.refl _)
    simp only [step, Server.sohDone, Server.reply, Answer.asSent, Option.map_some, Server.onSent,
      if_neg (by omega : ¬ ret < 0)]
  refine ⟨_, ?filled, ?size, passage_header h h0 hsum (hload.append (hreply _))⟩
  case filled => exact ⟨rfl, rfl, rfl, rfl, rfl, p, hd, Buffer.holds_nil _ _⟩
  case size =>
      rw [← hvalue]
      exact toNat_rbigu4 (Buffer.holds_store _ 0 bytes (by rw [hcount])) hcount

/-- The information sector of the announced length, and the reply. -/
theorem passage_eotInfo {s : Server} {p : Page} (ret : Int) (hd : s.dataBuf = some p) :
    ∃ t info, t.pc = .cpuReset ∧ InfoSector s.totalSize.toNat info ∧
      Passage s.eotInfo [.stored true, .sent ret] t [ack] [(updateInfoAddr, some info)] := by
  -- The length comes first and `MAGIC` behind it, in the page that the blocks were in.
  refine ⟨_, wbigu4 (wbigu4 p 0 s.totalSize) 4 magic, ?pc, infoSector_wbigu4 p s.totalSize,
    Passage.write rfl ?call (Passage.send rfl rfl (Passage.refl _))⟩
  case pc => rfl
  case call => simp only [Server.call, Server.eotInfo, hd, Option.map_some]

/-- The last frame: the blocks left over, the information sector and the reply. -/
theorem passage_eot {s : Server} {e : Answer} {n : Nat} {total : List UInt8} (ret : Int)
    (hf : Filled n total s) (he : Accepted e eot) :
    ∃ t info pages, t.pc = .cpuReset ∧ InfoSector s.totalSize.toNat info ∧
      Slices total (n / 4) pages ∧ n / 4 + pages.length = (n + 3) / 4 ∧
      Passage s (e :: eotAnswer n ret) t [ack]
        (pageWrites (n / 4) pages ++ [(updateInfoAddr, some info)]) := by
  rcases he with ⟨y, z, rfl, hsum⟩
  rcases hf.page with ⟨p, hd, hholds⟩
  have hlen := hf.length
  by_cases hz : n % 4 ≠ 0
  · -- A page that is not full: its blocks are at the start of the buffer.
    rcases passage_eotInfo ret (s := Server.pageWritten { s with
      headerBuf := s.headerBuf.store 0 [eot, y, z], index := headerLen, packCount := 0,
      pc := .eotWrite }) hd with ⟨t, info, ht, hinfo, hpass⟩
    have hstart : afterHeader s eot y z = { s with
        headerBuf := s.headerBuf.store 0 [eot, y, z], index := headerLen, packCount := 0,
        pc := .eotWrite } := by
      rw [afterHeader_eot]
      simp only [Server.eotStart, hf.packCount, if_pos hz]
    refine ⟨t, info, [p], ht, hinfo, slices_cons ?_ (slices_nil _ _), ?_,
      passage_header hf.pc hf.index hsum ?_⟩
    · rw [List.take_of_length_le (by rw [List.length_drop, hlen, maxDataSize, bufSz]; omega)]
      exact hholds
    · rw [List.length_singleton]
      omega
    · rw [hstart, eotAnswer, if_pos hz, pageWrites_cons]
      refine Passage.write rfl ?_ hpass
      simp only [Server.call, hf.pageOffset, hd]
  · -- No block is left over, and the information sector is next.
    rcases passage_eotInfo ret (s := { s with
      headerBuf := s.headerBuf.store 0 [eot, y, z], index := headerLen }) hd with
      ⟨t, info, ht, hinfo, hpass⟩
    have hstart : afterHeader s eot y z = Server.eotInfo { s with
        headerBuf := s.headerBuf.store 0 [eot, y, z], index := headerLen } := by
      rw [afterHeader_eot]
      exact if_neg (by rw [hf.packCount]; exact hz)
    refine ⟨t, info, [], ht, hinfo, slices_nil _ _, ?_, passage_header hf.pc hf.index hsum ?_⟩
    · rw [List.length_nil]
      omega
    · rw [hstart, eotAnswer, if_neg hz]
      exact hpass

theorem length_blocks {n : Nat} {blocks : List (List UInt8)} {as : List Answer}
    (h : Blocks n blocks as) : blocks.flatten.length = maxDataSize * blocks.length := by
  induction h with
  | nil => rfl
  | block _ hb _ _ _ _ ih =>
      rw [List.flatten_cons, List.length_append, ih, hb, List.length_cons, maxDataSize]
      omega

/-- A session without errors delivers the image, whatever the server was left with
    and however the stream was cut: one `ACK` for each frame, the padded image page
    by page in its sectors, then the sector with its length and `MAGIC`. -/
theorem session_delivers {image : List UInt8} {blocks : List (List UInt8)} {as : List Answer}
    (s : Server) (h : s.pc = .accept) (hs : Session image blocks as) :
    ∃ t, run step s as = some t ∧ t.pc = .cpuReset ∧
      replies (events s as) = List.replicate (blocks.length + 2) ack ∧
      Delivered blocks.flatten image.length (writes (events s as)) := by
  cases hs with
  | @session a e length body fd ret ret' p padding bytes hcut hpad hpages ha hn hl hret hb he
      hret' =>
      -- Up to the first header: the connection, the mutex and the page buffer.
      have hstart : ∀ {v as' rs ws}, Passage (Server.nextFrame
          { s with connected := fd, dataBuf := some p, pc := .malloc }) as' v rs ws →
          Passage s (.accepted fd :: .done :: .allocated (some p) :: as') v rs ws := by
        intro v as' rs ws hpass
        have hcall : s.call = .accept := by simp only [Server.call, h]
        have hacc : step s (.accepted fd) = some { s with connected := fd, pc := .mutexTake } := by
          simp only [step, h]
          rfl
        refine Passage.quiet hacc hcall rfl ?_
        refine Passage.quiet rfl rfl rfl ?_
        exact Passage.quiet rfl rfl rfl hpass
      -- The three kinds of frame one behind the other, each from where the last one left off.
      rcases passage_soh (s := Server.nextFrame
        { s with connected := fd, dataBuf := some p, pc := .malloc }) rfl rfl rfl ha hn hl hret with
        ⟨t, hfilled, hsize, hsoh⟩
      rcases passage_blocks hb hfilled (List.nil_append _).symm (by omega) with
        ⟨u, pages, hfilled', hsize', hblocks, hcount, hslices⟩
      simp only [Nat.zero_div, Nat.zero_add] at hfilled' hblocks hslices hcount
      rcases passage_eot ret' hfilled' he with
        ⟨v, info, pages', hv, hinfo, hslices', hcount', heot⟩
      have hall := hstart (hsoh.append (hblocks.append heot))
      have hcut' : a :: (length ++ .sent ret :: (body ++ e :: eotAnswer blocks.length ret')) =
          a :: (length ++ [.sent ret]) ++ (body ++ e :: eotAnswer blocks.length ret') := by
        simp only [List.append_assoc, List.cons_append, List.nil_append]
      rw [hcut']
      refine ⟨v, hall.run, hv, ?_, pages ++ pages', info, ?_, ?_, ?_, ?_⟩
      · rw [hall.replies, ← List.replicate_succ', ← List.replicate_one, ← List.replicate_add,
          Nat.add_comm 1]
      · -- The full pages, the one left over if there is one, and the information sector.
        rw [hall.writes, pageWrites_append, Nat.zero_add, hcount, List.nil_append,
          List.append_assoc]
      · rw [List.length_append, length_blocks hb, maxDataSize, bufSz]
        omega
      · exact slices_append hslices (by rw [Nat.zero_add, hcount]; exact hslices')
      · rw [← hsize, ← hsize']
        exact hinfo

/-- An image of one byte, padded to a block. -/
def oneBlock : List UInt8 := [7] ++ List.replicate 1023 0xff

/-- Its session, with the length in two pieces and a time-out between the two
    pieces of the block. -/
def oneByteSession : List Answer :=
  .accepted 3 :: .done :: .allocated (some fun _ => 0) :: .received (.data soh [0, 255]) ::
    ([Answer.received (.data 0 [0]), Answer.received (.data 0 [1])] ++ Answer.sent 1 ::
      ((Answer.received (.data stx [1, 254]) ::
        ([Answer.selected 1, Answer.received (.data 7 []), Answer.selected 0, Answer.selected 1,
          Answer.received (.data 0xff (List.replicate 1022 0xff))] ++
            (pageAnswer 0 ++ Answer.sent 1 :: []))) ++
        Answer.received (.data eot [2, 253]) :: eotAnswer 1 1))

theorem session_oneByte : Session [7] [oneBlock] oneByteSession := by
  have hblock : Arrives 1 oneBlock [.selected 1, .received (.data 7 []), .selected 0, .selected 1,
      .received (.data 0xff (List.replicate 1022 0xff))] := by
    have hlast := Arrives.piece 1 (by decide) 0xff (List.replicate 1022 0xff) Arrives.nil
    rw [List.append_nil] at hlast
    exact Arrives.piece 1 (by decide) 7 [] (Arrives.timeout (List.cons_ne_nil _ _) hlast)
  have hcut : [oneBlock].flatten = [7] ++ List.replicate 1023 0xff := List.append_nil _
  exact .session hcut
    (by rw [List.length_replicate]; decide) (by decide) ⟨0, 255, rfl, rfl⟩ ⟨rfl, rfl⟩
    (Pieces.piece 0 [0] (Pieces.piece 0 [1] Pieces.nil)) (by decide)
    (.block ⟨1, 254, rfl, rfl⟩ (by rw [oneBlock, List.length_append, List.length_replicate]; rfl)
      hblock (by decide) (by decide) (.nil 1))
    ⟨2, 253, rfl, rfl⟩ (by decide)

theorem session_delivers_oneByte :
    ∃ t, run step bootServer oneByteSession = some t ∧ t.pc = .cpuReset ∧
      replies (events bootServer oneByteSession) = [ack, ack, ack] ∧
      Delivered [oneBlock].flatten 1 (writes (events bootServer oneByteSession)) :=
  session_delivers bootServer rfl session_oneByte

end Update

end Firmware
