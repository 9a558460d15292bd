import Firmware.Update.Commit

/-!
# Segmentation

Whether it matters where the network cuts the client's stream.

TCP delivers bytes, not messages, so a server that speaks over it should depend
on the bytes alone. `Feed` is such a server: it takes one byte at a time, keeps
what the protocol has to keep, and answers with the replies and the flash writes
the byte leads to. It has no receives and no retries, and nothing in it could
depend on a cut.

The server follows it as long as no header that passes the check is completed by
a receive of fewer than three bytes. `Tracks` is the correspondence, call by call:
at a receive the two agree on what has arrived, and while the server is busy
replying or writing, `owed` is the list of calls it has still to make to catch up.
Where the correspondence breaks is the header check, which compares the size of
the last receive with `HEADER_LEN` instead of the number of bytes there are, so
that a good header in two pieces is refused. `Unsplit` excludes that and nothing
else.

## Main definitions

* `Feed`: The protocol, byte by byte.
* `Plain`: A receive that brings something, a select that does not time out, a
  reply that is sent.
* `Reads`: A session that reads a stream.
* `Unsplit`: No good header is completed by a short receive.
* `Tracks`: The correspondence between the server and the feed.

## Theorems

* `tracks_step`: A step of the server keeps the correspondence.
* `tracks_run`: So does a run, and it makes the calls the feed asks for.
* `reads_agree`: Two sessions that read the same stream do the same.
* `not_reads_agree_split`: A header in two pieces is refused, in one it is not.
-/

namespace Firmware

namespace Update

/-- What the next byte belongs to: a header, a length or a block, of which some is
    there already. -/
inductive Mode
  | header (got : List UInt8)
  | length (got : List UInt8)
  | block (count : Nat)
  | ended

/-- The protocol without receives: the variables that outlast a frame, the page
    buffer, and what the next byte belongs to. -/
structure Feed where
  mode : Mode
  totalSize : UInt32
  pageOffset : Nat
  packCount : Nat
  page : Option Page

namespace Feed

/-- The information sector as `EOT` prepares it. -/
def info (f : Feed) : Option Page :=
  f.page.map fun p => wbigu4 (wbigu4 p 0 f.totalSize) 4 magic

/-- The image ends: the open page, the information sector and the last reply. -/
def finish (f : Feed) : Feed × List Call :=
  if f.packCount ≠ 0 then
    ({ f with
        mode := .ended
        packCount := 0
        pageOffset := (f.pageOffset + 1) % 2 ^ 16
        page := f.info },
      [.write (updateDataAddr + f.pageOffset) f.page, .write updateInfoAddr f.info, .send ack])
  else
    ({ f with mode := .ended, page := f.info }, [.write updateInfoAddr f.info, .send ack])

/-- A complete header. -/
def header (f : Feed) (x y z : UInt8) : Feed × List Call :=
  if y.toNat + z.toNat ≠ 0xff then ({ f with mode := .header [] }, [.send nak])
  else if x = soh then ({ f with mode := .length [] }, [])
  else if x = stx then ({ f with mode := .block 0 }, [])
  else if x = eot then f.finish
  else ({ f with mode := .header [] }, [])

/-- A complete length. -/
def length (f : Feed) (bytes : List UInt8) : Feed × List Call :=
  ({ f with
      mode := .header []
      totalSize := bigValue bytes
      pageOffset := 0
      packCount := 0 },
    [.send ack])

/-- A complete block, already in the page buffer. -/
def block (f : Feed) : Feed × List Call :=
  if (f.packCount + 1) % 2 ^ 16 = 4 then
    ({ f with
        mode := .header []
        packCount := 0
        pageOffset := (f.pageOffset + 1) % 2 ^ 16 },
      [.write (updateDataAddr + f.pageOffset) f.page, .send ack])
  else
    ({ f with mode := .header [], packCount := (f.packCount + 1) % 2 ^ 16 }, [.send ack])

/-- Bytes of the current block, the first of them number `count`. -/
def put (f : Feed) (count : Nat) (bytes : List UInt8) : Feed :=
  { f with page := f.page.map fun p => p.store (f.packCount * maxDataSize + count) bytes }

/-- The next byte of the stream. -/
def byte (f : Feed) (b : UInt8) : Feed × List Call :=
  match f.mode with
  | .header [x, y] => f.header x y b
  | .header got => ({ f with mode := .header (got ++ [b]) }, [])
  | .length got =>
      if (got ++ [b]).length = 4 then f.length (got ++ [b])
      else ({ f with mode := .length (got ++ [b]) }, [])
  | .block count =>
      let g := f.put count [b]
      if count + 1 = maxDataSize then g.block else ({ g with mode := .block (count + 1) }, [])
  | .ended => (f, [])

end Feed

/-- The bytes a call brought. -/
def arrived (e : Call × Answer) : List UInt8 :=
  match e.2 with
  | .received r => r.bytes
  | _ => []

/-- The calls of a run that the outside can see as an effect. -/
def effects (tr : List (Call × Answer)) : List Call :=
  tr.filterMap fun e => match e.1 with
    | .send b => some (.send b)
    | .write sector page => some (.write sector page)
    | _ => none

/-- A step of a session in which nothing goes wrong on the network: every receive
    brings something, no select times out, every reply is sent. -/
def Plain (s : Server) (a : Answer) : Prop :=
  s.pc ≠ .accept ∧
  match a with
  | .received r => 0 < r.ret
  | .selected ret => 0 < ret
  | .sent ret => 0 ≤ ret
  | _ => True

/-- A header that was not received in one piece does not pass the check. -/
def Unsplit (s : Server) (a : Answer) : Prop :=
  ∀ r, a = .received r → s.pc = .headerRecv → s.index ≠ 0 → s.index + r.ret = headerLen →
    Server.headerSum (s.headerBuf.store s.index r.bytes) = false

/-- The server waits for the client. -/
def Waiting (s : Server) : Prop :=
  s.pc = .headerRecv ∨ s.pc = .sohRecv ∨ ∃ b, s.pc = .stxRecv b

/-- A session, from its first header on, that reads the stream: to its end, or to
    the reset, whichever comes first. -/
structure Reads (s : Server) (stream : List UInt8) (as : List Answer) (t : Server) : Prop where
  run : run step s as = some t
  plain : Along step Plain s as
  arrived : (events s as).flatMap arrived <+: stream
  finished : t.pc = .cpuReset ∨ (Waiting t ∧ (events s as).flatMap Update.arrived = stream)

/-- Two pieces of a block are one. -/
theorem put_append (f : Feed) (count : Nat) (xs ys : List UInt8) (mode : Mode) :
    Feed.put { f.put count xs with mode := mode } (count + xs.length) ys =
      { f.put count (xs ++ ys) with mode := mode } := by
  simp only [Feed.put, Option.map_map, Feed.mk.injEq, true_and]
  congr 1
  funext p
  simp only [Function.comp_apply, Nat.cast_add, ← add_assoc, Buffer.store_append]

section Pieces

variable {f : Feed} {got bytes : List UInt8} {count : Nat}

/-- A piece of a header that does not complete it. -/
theorem feed_header_part (hm : f.mode = .header got) (hlt : got.length + bytes.length < headerLen) :
    transduce Feed.byte f bytes = ({ f with mode := .header (got ++ bytes) }, []) := by
  induction bytes generalizing f got with
  | nil =>
      rw [List.append_nil, ← hm]
      rfl
  | cons b bytes ih =>
      rw [List.length_cons, headerLen] at hlt
      -- Fewer than two bytes are there, so this one cannot be the third.
      have hbyte : f.byte b = ({ f with mode := .header (got ++ [b]) }, []) := by
        unfold Feed.byte
        rw [hm]
        rcases got with _ | ⟨x, _ | ⟨y, got⟩⟩
        · rfl
        · rfl
        · simp only [List.length_cons] at hlt
          omega
      have hrest : (got ++ [b]).length + bytes.length < headerLen := by
        rw [List.length_append, List.length_singleton, headerLen]
        omega
      rw [transduce_cons, hbyte, ih rfl hrest, List.append_assoc]
      rfl

/-- The piece that completes a header. -/
theorem feed_header_full {x y z : UInt8} (hm : f.mode = .header got) (hne : bytes ≠ [])
    (hfull : got ++ bytes = [x, y, z]) : transduce Feed.byte f bytes = f.header x y z := by
  -- The last byte decides, and the ones before it only wait for it.
  rcases List.eq_nil_or_concat bytes with rfl | ⟨init, b, rfl⟩
  · exact absurd rfl hne
  · rw [List.concat_eq_append, ← List.append_assoc] at hfull
    have hsplit : got ++ init = [x, y] ∧ b = z := by
      have hsame : got ++ init ++ [b] = [x, y] ++ [z] := hfull
      exact ⟨(List.append_inj' hsame rfl).1, by
        have h := (List.append_inj' hsame rfl).2
        rw [List.cons.injEq] at h
        exact h.1⟩
    rcases hsplit with ⟨hgot, rfl⟩
    have hlen : got.length + init.length = 2 := by
      rw [← List.length_append, hgot]
      rfl
    rw [List.concat_eq_append, transduce_append,
      feed_header_part hm (by rw [hlen, headerLen]; omega), transduce_singleton, hgot]
    rfl

theorem feed_length_part (hm : f.mode = .length got) (hlt : got.length + bytes.length < 4) :
    transduce Feed.byte f bytes = ({ f with mode := .length (got ++ bytes) }, []) := by
  induction bytes generalizing f got with
  | nil =>
      rw [List.append_nil, ← hm]
      rfl
  | cons b bytes ih =>
      rw [List.length_cons] at hlt
      -- The byte is not the fourth, so the feed keeps collecting.
      have hshort : ¬ (got ++ [b]).length = 4 := by
        rw [List.length_append, List.length_singleton]
        omega
      have hbyte : f.byte b = ({ f with mode := .length (got ++ [b]) }, []) := by
        unfold Feed.byte
        rw [hm]
        exact if_neg hshort
      rw [transduce_cons, hbyte, ih rfl (by rw [List.length_append, List.length_singleton]; omega),
        List.append_assoc]
      rfl

theorem feed_length_full (hm : f.mode = .length got) (hne : bytes ≠ [])
    (hfull : got.length + bytes.length = 4) :
    transduce Feed.byte f bytes = f.length (got ++ bytes) := by
  rcases List.eq_nil_or_concat bytes with rfl | ⟨init, b, rfl⟩
  · exact absurd rfl hne
  · rw [List.concat_eq_append, List.length_append, List.length_singleton] at hfull
    -- The bytes before the last one are a piece that does not complete the length.
    have hlast : (got ++ init ++ [b]).length = 4 := by
      rw [List.length_append, List.length_append, List.length_singleton]
      omega
    have hbyte : Feed.byte { f with mode := .length (got ++ init) } b =
        f.length (got ++ init ++ [b]) := if_pos hlast
    rw [List.concat_eq_append, transduce_append, feed_length_part hm (by omega),
      transduce_singleton, hbyte, List.append_assoc]
    rfl

/-- A piece of a block that does not complete it goes behind what is there. -/
theorem feed_block_part (hm : f.mode = .block count) (hlt : count + bytes.length < maxDataSize) :
    transduce Feed.byte f bytes =
      ({ f.put count bytes with mode := .block (count + bytes.length) }, []) := by
  induction bytes generalizing f count with
  | nil =>
      -- Storing no byte leaves the page alone, also where there is none.
      have hput : f.put count [] = f := by
        simp only [Feed.put, Buffer.store_nil, Option.map_id_fun']
        rfl
      rw [hput, List.length_nil, Nat.add_zero, ← hm]
      rfl
  | cons b bytes ih =>
      rw [List.length_cons] at hlt
      have hbyte : f.byte b = ({ f.put count [b] with mode := .block (count + 1) }, []) := by
        unfold Feed.byte
        rw [hm]
        exact if_neg (by omega)
      -- One byte and the bytes behind it are stored as they would be together.
      have hput : Feed.put { f.put count [b] with mode := .block (count + 1) } (count + 1) bytes =
          { f.put count (b :: bytes) with mode := .block (count + 1) } :=
        put_append f count [b] bytes _
      rw [transduce_cons, hbyte, ih rfl (by omega), hput, List.length_cons,
        Nat.add_assoc count 1, Nat.add_comm 1]
      rfl

theorem feed_block_full (hm : f.mode = .block count) (hne : bytes ≠ [])
    (hfull : count + bytes.length = maxDataSize) :
    transduce Feed.byte f bytes = (f.put count bytes).block := by
  rcases List.eq_nil_or_concat bytes with rfl | ⟨init, b, rfl⟩
  · exact absurd rfl hne
  · rw [List.concat_eq_append, List.length_append, List.length_singleton] at hfull
    -- Everything up to the last byte is stored without completing the block.
    have hbyte : Feed.byte { f.put count init with mode := .block (count + init.length) } b =
        Feed.block (Feed.put { f.put count init with mode := .block (count + init.length) }
          (count + init.length) [b]) := if_pos (by omega)
    rw [List.concat_eq_append, transduce_append, feed_block_part hm (by omega),
      transduce_singleton, hbyte, put_append]
    rfl

end Pieces

/-- The variables of the server are those of the feed. -/
structure Agrees (s : Server) (f : Feed) : Prop where
  totalSize : f.totalSize = s.totalSize
  pageOffset : f.pageOffset = s.pageOffset
  packCount : f.packCount = s.packCount
  page : f.page = s.dataBuf

/-- The server has to make the calls `owed` and is then where the feed is. -/
def Tracks (s : Server) (f : Feed) (owed : List Call) : Prop :=
  match s.pc with
  | .headerRecv => owed = [] ∧ Agrees s f ∧ ∃ got, f.mode = .header got ∧
      s.headerBuf.Holds 0 got ∧ s.index = got.length ∧ got.length < headerLen
  | .headerNak => owed = [.send nak] ∧ Agrees s f ∧ f.mode = .header [] ∧ s.headerBuf 0 = nak
  | .sohRecv => owed = [] ∧ Agrees s f ∧ ∃ got, f.mode = .length got ∧ s.buf.Holds 0 got ∧
      s.dataIndex = got.length ∧ got.length < 4 ∧ 9 ≤ s.retry + got.length
  | .sohAck | .stxAck => owed = [.send ack] ∧ Agrees s f ∧ f.mode = .header [] ∧
      s.headerBuf 0 = ack
  | .stxRecv b => owed = [] ∧ Agrees s f ∧ ∃ count : Nat, f.mode = .block count ∧
      InBlock s b ∧ s.dataIndex = 0 ∧ b.offset = count ∧ s.retry = 19
  | .stxWrite => owed = [.write (updateDataAddr + s.pageOffset) s.dataBuf, .send ack] ∧
      Agrees s.pageWritten f ∧ f.mode = .header []
  | .eotWrite => owed = [.write (updateDataAddr + s.pageOffset) s.dataBuf,
      .write updateInfoAddr s.eotInfo.dataBuf, .send ack] ∧ f.mode = .ended
  | .eotInfo => owed = [.write updateInfoAddr s.dataBuf, .send ack] ∧ f.mode = .ended
  | .eotAck => owed = [.send ack] ∧ f.mode = .ended ∧ s.headerBuf 0 = ack
  | .cpuReset | .mutexRelease | .close | .free | .accept => owed = [] ∧ f.mode = .ended
  | _ => False

/-- Behind a step the server is where the feed is after the bytes of the step, and
    what it made of its calls and what it still owes are what was owed before and
    what the bytes lead to. -/
def Follows (s t : Server) (f : Feed) (owed : List Call) (a : Answer) : Prop :=
  ∃ owed', Tracks t (transduce Feed.byte f (arrived (observe s a))).1 owed' ∧
    effects [observe s a] ++ owed' =
      owed ++ (transduce Feed.byte f (arrived (observe s a))).2

/-- A receive: nothing was owed, and what the bytes lead to is. -/
theorem follows_received {s t : Server} {f : Feed} {r : Recv}
    (hcall : effects [observe s (.received r)] = [])
    (h : Tracks t (transduce Feed.byte f r.bytes).1 (transduce Feed.byte f r.bytes).2) :
    Follows s t f [] (.received r) := by
  refine ⟨_, h, ?_⟩
  rw [hcall]
  rfl

/-- A reply or a write: the first of the calls that were owed is made. -/
theorem follows_effect {s t : Server} {f : Feed} {a : Answer} {c : Call} {owed : List Call}
    (hcall : effects [observe s a] = [c]) (ha : arrived (observe s a) = []) (h : Tracks t f owed) :
    Follows s t f (c :: owed) a := by
  refine ⟨owed, ?_, ?_⟩
  · rw [ha]
    exact h
  · rw [ha, hcall]
    simp only [transduce, List.append_nil, List.singleton_append]

/-- A call of no effect that brings no bytes. -/
theorem follows_silent {s t : Server} {f : Feed} {a : Answer} {owed : List Call}
    (hcall : effects [observe s a] = []) (ha : arrived (observe s a) = []) (h : Tracks t f owed) :
    Follows s t f owed a := by
  refine ⟨owed, ?_, ?_⟩
  · rw [ha]
    exact h
  · rw [ha, hcall]
    simp only [transduce, List.append_nil, List.nil_append]

/-- The check looks at the last two bytes of the header. -/
theorem headerSum_of_holds {b : Buffer UInt8 headerLen} {x y z : UInt8} (h : b.Holds 0 [x, y, z]) :
    Server.headerSum b = decide (y.toNat + z.toNat = 0xff) := by
  rcases h 1 (Nat.lt_add_left_iff_pos.mpr Nat.two_pos) with ⟨_, h1⟩
  rcases h 2 (Nat.lt_succ_self 2) with ⟨_, h2⟩
  have h1' : b 1 = y := h1
  have h2' : b 2 = z := h2
  simp only [Server.headerSum, h1', h2']

/-- The frame byte decides alike in the server and in the feed. -/
theorem tracks_afterHeader {s : Server} {f : Feed} {x y z : UInt8} (h : Agrees s f)
    (hsum : y.toNat + z.toNat = 0xff) :
    Tracks (afterHeader s x y z) (f.header x y z).1 (f.header x y z).2 := by
  have hok : ¬ y.toNat + z.toNat ≠ 0xff := not_not.mpr hsum
  by_cases hsoh : x = soh
  · subst hsoh
    have hf : f.header soh y z = ({ f with mode := .length [] }, []) :=
      (if_neg hok).trans (if_pos rfl)
    rw [hf, afterHeader_soh]
    exact ⟨rfl, ⟨h.totalSize, h.pageOffset, h.packCount, h.page⟩, [], rfl, Buffer.holds_nil _ _,
      rfl, by decide, le_refl _⟩
  · by_cases hstx : x = stx
    · subst hstx
      have hf : f.header stx y z = ({ f with mode := .block 0 }, []) :=
        (if_neg hok).trans ((if_neg hsoh).trans (if_pos rfl))
      rw [hf, afterHeader_stx]
      exact ⟨rfl, ⟨h.totalSize, h.pageOffset, h.packCount, h.page⟩, 0, rfl, inBlock_next { s with
        headerBuf := s.headerBuf.store 0 [stx, y, z], index := headerLen } 0 19 (by decide),
        rfl, rfl, rfl⟩
    · by_cases heot : x = eot
      · subst heot
        have hf : f.header eot y z = f.finish :=
          (if_neg hok).trans ((if_neg hsoh).trans ((if_neg hstx).trans (if_pos rfl)))
        have hinfo : f.info = s.eotInfo.dataBuf := by
          simp only [Feed.info, Server.eotInfo, h.page, h.totalSize]
        rw [hf, afterHeader_eot]
        -- The open page, if there is one, comes before the information sector.
        by_cases hp : s.packCount ≠ 0
        · have hfin : f.finish.2 = [.write (updateDataAddr + s.pageOffset) s.dataBuf,
              .write updateInfoAddr s.eotInfo.dataBuf, .send ack] := by
            rw [← hinfo, ← h.page, ← h.pageOffset]
            simp only [Feed.finish, h.packCount, if_pos hp]
          have hend : f.finish.1.mode = .ended := by
            simp only [Feed.finish, h.packCount, if_pos hp]
          have hstart : Server.eotStart { s with
              headerBuf := s.headerBuf.store 0 [eot, y, z], index := headerLen } =
              { s with
                headerBuf := s.headerBuf.store 0 [eot, y, z]
                index := headerLen
                packCount := 0
                pc := .eotWrite } := if_pos hp
          rw [hstart]
          exact ⟨hfin, hend⟩
        · have hfin : f.finish.2 = [.write updateInfoAddr s.eotInfo.dataBuf, .send ack] := by
            rw [← hinfo]
            simp only [Feed.finish, h.packCount, if_neg hp]
          have hend : f.finish.1.mode = .ended := by
            simp only [Feed.finish, h.packCount, if_neg hp]
          have hstart : Server.eotStart { s with
              headerBuf := s.headerBuf.store 0 [eot, y, z], index := headerLen } =
              Server.eotInfo { s with
                headerBuf := s.headerBuf.store 0 [eot, y, z], index := headerLen } := if_neg hp
          rw [hstart]
          exact ⟨hfin, hend⟩
      · -- No frame has this byte, and the server too waits for the next header.
        have hf : f.header x y z = ({ f with mode := .header [] }, []) :=
          (if_neg hok).trans ((if_neg hsoh).trans ((if_neg hstx).trans (if_neg heot)))
        have hnext : afterHeader s x y z = Server.nextFrame
            { s with headerBuf := s.headerBuf.store 0 [x, y, z], index := headerLen } :=
          (if_neg hsoh).trans ((if_neg hstx).trans (if_neg heot))
        rw [hf, hnext]
        exact ⟨rfl, ⟨h.totalSize, h.pageOffset, h.packCount, h.page⟩, [], rfl,
          Buffer.holds_nil _ _, rfl, by decide⟩

theorem effects_silent {s : Server} {a : Answer} {c : Call} (h : s.call = c)
    (hsilent : c.silent = true) : effects [observe s a] = [] := by
  subst h
  rcases (Call.silent_iff _).mp hsilent with ⟨hsend, hwrite⟩
  simp only [effects, observe, List.filterMap_cons, List.filterMap_nil]

theorem effects_send {s : Server} {a : Answer} {b : UInt8} (h : s.call = .send b) :
    effects [observe s a] = [.send b] := by
  rw [observe, h]
  rfl

theorem effects_write {s : Server} {a : Answer} {sector : Nat} {page : Option Page}
    (h : s.call = .write sector page) : effects [observe s a] = [.write sector page] := by
  rw [observe, h]
  rfl

/-- The header loop and the feed, piece by piece. -/
theorem tracks_onHeader {s : Server} {f : Feed} {owed : List Call} {r : Recv}
    (hpc : s.pc = .headerRecv) (h : Tracks s f owed) (hpos : 0 < r.ret)
    (hu : Unsplit s (.received r)) (hr : r.ret ≤ headerLen - s.index) :
    Follows s (s.onHeader r) f owed (.received r) := by
  simp only [Tracks, hpc] at h
  rcases h with ⟨rfl, hag, got, hmode, hholds, hidx, hlt⟩
  have hlen := Recv.bytes_length_of_pos r (le_of_lt hpos)
  have hne := Recv.bytes_ne_nil r hpos
  have hcall : s.call = .recvHeader s.index (headerLen - s.index) := by
    simp only [Server.call, hpc]
  refine follows_received (effects_silent hcall rfl) ?_
  rcases onHeader_cases s r hr with
    ⟨hneg, -⟩ | ⟨-, hpart, hon⟩ | ⟨-, hfull, hbad, hon⟩ | ⟨x, y, z, rfl, hz, hsum, hon⟩
  · omega
  · -- More of the header to come.
    have hshort : got.length + r.bytes.length < headerLen := by omega
    rw [feed_header_part hmode hshort, hon]
    simp only [Tracks, hpc]
    refine ⟨trivial, ⟨hag.totalSize, hag.pageOffset, hag.packCount, hag.page⟩, got ++ r.bytes, rfl,
      Buffer.holds_behind hholds hidx (le_of_lt hshort), ?_, ?_⟩
    · rw [List.length_append]
      omega
    · rw [List.length_append]
      exact hshort
  · -- The header is complete and refused, and the check is the reason.
    have hcount : (got ++ r.bytes).length = 3 := by
      simp only [headerLen, Nat.cast_ofNat] at hfull
      rw [List.length_append]
      omega
    rcases List.length_eq_three.mp hcount with ⟨x, y, z, hxyz⟩
    have hholds' : (s.headerBuf.store s.index r.bytes).Holds 0 [x, y, z] := by
      rw [← hxyz]
      exact Buffer.holds_behind hholds hidx (by omega)
    have hfalse : Server.headerSum (s.headerBuf.store s.index r.bytes) = false := by
      rcases hbad with hsplit | hfalse
      · exact hu r rfl hpc (by omega) hfull
      · exact hfalse
    rw [headerSum_of_holds hholds', decide_eq_false_iff_not] at hfalse
    have hfeed : f.header x y z = ({ f with mode := .header [] }, [.send nak]) := if_pos hfalse
    rw [feed_header_full hmode hne hxyz, hfeed, hon]
    exact ⟨rfl, ⟨hag.totalSize, hag.pageOffset, hag.packCount, hag.page⟩, rfl, rfl⟩
  · -- The header is accepted; it came in one piece.
    -- The code compares the result of one receive with three, so nothing was there before.
    have hgot : got = [] := by
      rw [hz] at hidx
      exact List.length_eq_zero_iff.mp (by omega)
    subst hgot
    rw [feed_header_full hmode hne rfl, hon]
    exact tracks_afterHeader hag hsum

/-- The length loop and the feed. The retries cannot run out: every receive brings
    a byte, and there are only four. -/
theorem tracks_onLength {s : Server} {f : Feed} {owed : List Call} {r : Recv}
    (hpc : s.pc = .sohRecv) (h : Tracks s f owed) (hpos : 0 < r.ret)
    (hr : r.ret ≤ 4 - s.dataIndex) : Follows s (s.onLength r) f owed (.received r) := by
  simp only [Tracks, hpc] at h
  rcases h with ⟨rfl, hag, got, hmode, hholds, hidx, hlt, hretry⟩
  have hlen := Recv.bytes_length_of_pos r (le_of_lt hpos)
  have hne := Recv.bytes_ne_nil r hpos
  have hcall : s.call = .recvLength s.dataIndex (4 - s.dataIndex) := by
    simp only [Server.call, hpc]
  have hholds' := Buffer.holds_behind hholds hidx (by omega : got.length + r.bytes.length ≤ 4)
  refine follows_received (effects_silent hcall rfl) ?_
  rcases onLength_cases s r (by omega) with ⟨hk, hpart, hon⟩ | ⟨-, hfull, hon⟩ | ⟨hk, -⟩ | ⟨hk, -⟩
  · -- More of the length to come, with a retry used up for at least a byte.
    rw [feed_length_part hmode (by omega), hon]
    refine ⟨rfl, ⟨hag.totalSize, hag.pageOffset, hag.packCount, hag.page⟩, got ++ r.bytes, rfl,
      hholds', ?_, ?_, ?_⟩
    · rw [List.length_append]
      simp only
      omega
    · rw [List.length_append]
      omega
    · rw [List.length_append]
      simp only
      omega
  · -- The fourth byte has come.
    have hcount : got.length + r.bytes.length = 4 := by omega
    have hval := rbigu4_of_holds hholds' (by rw [List.length_append]; exact hcount)
    rw [feed_length_full hmode hne hcount, hon]
    exact ⟨rfl, ⟨hval.symm, rfl, rfl, hag.page⟩, rfl, rfl⟩
  · omega
  · omega

/-- A complete block: counted and, the fourth of its page, on its way to flash. -/
theorem tracks_stxDone {s : Server} {f : Feed} (h : Agrees s f) :
    Tracks s.stxDone f.block.1 f.block.2 := by
  by_cases h4 : (s.packCount + 1) % 2 ^ 16 = 4
  · -- The fourth block: the page is written before the reply is sent.
    have hdone : s.stxDone = { s with packCount := 0, pc := .stxWrite } := by
      simp only [Server.stxDone, if_pos h4]
    have hblock : f.block = ({ f with
          mode := .header []
          packCount := 0
          pageOffset := (f.pageOffset + 1) % 2 ^ 16 },
        [.write (updateDataAddr + f.pageOffset) f.page, .send ack]) :=
      if_pos (by rw [h.packCount]; exact h4)
    rw [hdone, hblock, h.pageOffset, h.page]
    exact ⟨rfl, ⟨h.totalSize, rfl, rfl, rfl⟩, rfl⟩
  · -- The page is not full yet, and the block is only acknowledged.
    have hdone : s.stxDone = Server.reply
        { s with packCount := (s.packCount + 1) % 2 ^ 16 } ack .stxAck := by
      simp only [Server.stxDone, if_neg h4]
    have hblock : f.block = ({ f with
          mode := .header []
          packCount := (f.packCount + 1) % 2 ^ 16 }, [.send ack]) :=
      if_neg (by rw [h.packCount]; exact h4)
    rw [hdone, hblock, h.packCount]
    exact ⟨rfl, ⟨h.totalSize, h.pageOffset, rfl, h.page⟩, rfl, rfl⟩

/-- A receive inside a block and the feed. -/
theorem tracks_recvfrom {s : Server} {f : Feed} {owed : List Call} {b : BlockingRecv} {r : Recv}
    (hpc : s.pc = .stxRecv b) (hb : b.pc = .recvfrom) (h : Tracks s f owed) (hpos : 0 < r.ret)
    (hr : r.ret ≤ b.len - b.offset) :
    Follows s (Server.onOutcome
      { s with dataBuf := s.dataBuf.map (·.store (b.mem + b.offset) r.bytes) } (b.onRecvfrom r))
      f owed (.received r) := by
  simp only [Tracks, hpc] at h
  rcases h with ⟨rfl, hag, count, hmode, hblock, hd, hoff, hretry⟩
  have hlen := Recv.bytes_length_of_pos r (le_of_lt hpos)
  have hmem := hblock.mem
  have hblen := hblock.len
  have hidx := hblock.index
  have hne := Recv.bytes_ne_nil r hpos
  have hcall : s.call = .recvPage (b.mem + b.offset) (b.len - b.offset) := by
    simp only [Server.call, hpc, hb]
  -- Both put the bytes in the same place.
  have hput : Agrees { s with dataBuf := s.dataBuf.map (·.store (b.mem + b.offset) r.bytes) }
      (f.put count r.bytes) := by
    refine ⟨hag.totalSize, hag.pageOffset, hag.packCount, ?_⟩
    have hpos' : b.mem + b.offset = (f.packCount : Int) * maxDataSize + count := by
      rw [hmem, hd, hoff, hag.packCount, add_zero]
    simp only [Feed.put, hpos', hag.page]
  refine follows_received (effects_silent hcall rfl) ?_
  rcases onRecvfrom_cases b r with ⟨hneg, -⟩ | ⟨-, hfull, ho⟩ | ⟨-, hpart, ho⟩
  · omega
  · -- `blocking_lwip_recv` has the block, so the retries of its caller do not matter.
    rw [feed_block_full hmode hne (by omega), ho]
    rcases onBlock_cases
        { s with dataBuf := s.dataBuf.map (·.store (b.mem + b.offset) r.bytes) } b.len hidx with
      ⟨-, hlt, -⟩ | ⟨-, -, hon⟩ | ⟨hk, -⟩ | ⟨hk, -⟩
    · simp only at hlt
      omega
    · simp only [Server.onOutcome]
      rw [hon]
      exact tracks_stxDone ⟨hput.totalSize, hput.pageOffset, hput.packCount, hput.page⟩
    · simp only at hk
      omega
    · simp only at hk
      omega
  · rw [feed_block_part hmode (by omega), ho]
    refine ⟨rfl, ⟨hput.totalSize, hput.pageOffset, hput.packCount, hput.page⟩,
      count + r.bytes.length, rfl, ⟨rfl, hmem, hblen, hidx, ?_, ?_⟩, hd, ?_, hretry⟩
    · simp only
      omega
    · simp only
      omega
    · simp only [Nat.cast_add]
      omega

/-- Back at the top of the receive loop. -/
theorem tracks_nextFrame {s : Server} {f : Feed} (h : Agrees s f) (hm : f.mode = .header []) :
    Tracks s.nextFrame f [] :=
  ⟨rfl, ⟨h.totalSize, h.pageOffset, h.packCount, h.page⟩, [], hm, Buffer.holds_nil _ _, rfl,
    by decide⟩

/-- A reply that was owed is sent, and the server is back at the top of its loop. -/
theorem follows_reply {s : Server} {f : Feed} {ret : Int} {b : UInt8} {next : Server → Server}
    (hcall : s.call = .send b) (hret : 0 ≤ ret) (hnext : next s = s.nextFrame) (hag : Agrees s f)
    (hm : f.mode = .header []) : Follows s (s.onSent ret next) f [.send b] (.sent ret) := by
  rw [Server.onSent_of_nonneg _ hret, hnext]
  exact follows_effect (effects_send hcall) rfl (tracks_nextFrame hag hm)

/-- One step of the server, and what the feed makes of its bytes. -/
theorem tracks_step {s t : Server} {f : Feed} {owed : List Call} {a : Answer}
    (h : Tracks s f owed) (hp : Plain s a) (hu : Unsplit s a) (hs : step s a = some t) :
    Follows s t f owed a := by
  rcases hp with ⟨hacc, hp⟩
  -- Three calls bring bytes; behind the others the feed stays where it is.
  cases step_cases hs with
  | accept hpc fd => exact absurd hpc hacc
  | headerRecv hpc r hr => exact tracks_onHeader hpc h hp hu hr
  | headerNak hpc ret =>
      simp only [Tracks, hpc] at h
      rcases h with ⟨rfl, hag, hm, hbuf⟩
      have hdisp : s.dispatch = s.nextFrame := by
        simp only [Server.dispatch, hbuf]
        rfl
      exact follows_reply (by simp only [Server.call, hpc, hbuf]) hp hdisp hag hm
  | sohRecv hpc r hr => exact tracks_onLength hpc h hp hr
  | sohAck hpc ret =>
      simp only [Tracks, hpc] at h
      rcases h with ⟨rfl, hag, hm, hbuf⟩
      exact follows_reply (by simp only [Server.call, hpc, hbuf]) hp rfl hag hm
  | @select b hpc hb ret =>
      have hcall : s.call = .select := by simp only [Server.call, hpc, hb]
      have hpos : 0 < ret := hp
      simp only [Tracks, hpc] at h
      rcases h with ⟨rfl, hag, count, hm, hblock, hd, hoff, hretry⟩
      -- A socket with something to read, since there are no time-outs in these runs.
      have ho : b.onSelect ret = .running { b with pc := .recvfrom } := by
        rcases onSelect_cases b ret with ⟨hz, -⟩ | ⟨hneg, -⟩ | ⟨-, ho⟩
        · omega
        · omega
        · exact ho
      rw [ho]
      refine follows_silent (effects_silent hcall rfl) rfl ?_
      exact ⟨rfl, ⟨hag.totalSize, hag.pageOffset, hag.packCount, hag.page⟩, count, hm,
        ⟨rfl, hblock.mem, hblock.len, hblock.index, hblock.offset, hblock.more⟩, hd, hoff, hretry⟩
  | recvfrom hpc hb r hr => exact tracks_recvfrom hpc hb h hp hr
  | stxWrite hpc ok =>
      simp only [Tracks, hpc] at h
      rcases h with ⟨rfl, hag, hm⟩
      refine follows_effect (effects_write (by simp only [Server.call, hpc])) rfl ?_
      exact ⟨rfl, ⟨hag.totalSize, hag.pageOffset, hag.packCount, hag.page⟩, hm, rfl⟩
  | stxAck hpc ret =>
      simp only [Tracks, hpc] at h
      rcases h with ⟨rfl, hag, hm, hbuf⟩
      exact follows_reply (by simp only [Server.call, hpc, hbuf]) hp rfl hag hm
  | eotWrite hpc ok =>
      simp only [Tracks, hpc] at h
      rcases h with ⟨rfl, hm⟩
      exact follows_effect (effects_write (by simp only [Server.call, hpc])) rfl ⟨rfl, hm⟩
  | eotInfo hpc ok =>
      simp only [Tracks, hpc] at h
      rcases h with ⟨rfl, hm⟩
      exact follows_effect (effects_write (by simp only [Server.call, hpc])) rfl ⟨rfl, hm, rfl⟩
  | eotAck hpc ret =>
      simp only [Tracks, hpc] at h
      rcases h with ⟨rfl, hm, hbuf⟩
      exact follows_effect (effects_send (by simp only [Server.call, hpc, hbuf])) rfl ⟨rfl, hm⟩
  | cpuReset hpc =>
      simp only [Tracks, hpc] at h
      exact follows_silent (effects_silent (by simp only [Server.call, hpc]; rfl) rfl) rfl h
  | mutexRelease hpc =>
      simp only [Tracks, hpc] at h
      exact follows_silent (effects_silent (by simp only [Server.call, hpc]; rfl) rfl) rfl h
  | close hpc =>
      simp only [Tracks, hpc] at h
      refine follows_silent (effects_silent (by simp only [Server.call, hpc]; rfl) rfl) rfl ?_
      unfold Server.closed
      cases s.dataBuf.isSome
      · exact h
      · exact h
  | free hpc =>
      simp only [Tracks, hpc] at h
      exact follows_silent (effects_silent (by simp only [Server.call, hpc]; rfl) rfl) rfl h
  -- No run from the top of the loop comes here without a time-out or a new connection.
  | mutexTake hpc => simp only [Tracks, hpc] at h
  | malloc hpc p => simp only [Tracks, hpc] at h
  | sohNak hpc ret => simp only [Tracks, hpc] at h
  | stxNak hpc ret => simp only [Tracks, hpc] at h

theorem effects_cons (e : Call × Answer) (tr : List (Call × Answer)) :
    effects (e :: tr) = effects [e] ++ effects tr := by
  simp only [effects]
  exact List.filterMap_append (l := [e])

/-- A run of the server makes the calls the feed asks for, up to the ones it still
    owes. -/
theorem tracks_run {s t : Server} {f : Feed} {owed : List Call} {as : List Answer}
    (h : Tracks s f owed) (hp : Along step Plain s as) (hu : Along step Unsplit s as)
    (hr : run step s as = some t) :
    ∃ owed', Tracks t (transduce Feed.byte f ((events s as).flatMap arrived)).1 owed' ∧
      effects (events s as) ++ owed' =
        owed ++ (transduce Feed.byte f ((events s as).flatMap arrived)).2 := by
  induction as generalizing s f owed with
  | nil =>
      simp only [run, Option.some.injEq] at hr
      subst hr
      exact ⟨owed, h, (List.append_nil owed).symm⟩
  | cons a as ih =>
      rcases run_cons_some step hr with ⟨s', hs, hr'⟩
      rcases tracks_step h hp.1 hu.1 hs with ⟨owed', ht, heq⟩
      rcases ih ht (hp.2 s' hs) (hu.2 s' hs) hr' with ⟨owed'', ht', heq'⟩
      have htr : events s (a :: as) = observe s a :: events s' as := trace_cons step observe hs as
      refine ⟨owed'', ?_, ?_⟩
      · rw [htr, List.flatMap_cons, transduce_append]
        exact ht'
      · rw [htr, List.flatMap_cons, transduce_append, effects_cons, List.append_assoc, heq',
          ← List.append_assoc, heq, List.append_assoc]

theorem byte_ended {f : Feed} (h : f.mode = .ended) (b : UInt8) : f.byte b = (f, []) := by
  simp only [Feed.byte, h]

/-- Where a session stops, nothing is owed. -/
theorem tracks_finished {t : Server} {f : Feed} {owed : List Call} (h : Tracks t f owed)
    (ht : t.pc = .cpuReset ∨ Waiting t) : owed = [] := by
  rcases ht with hpc | hpc | hpc | ⟨b, hpc⟩
  · simp only [Tracks, hpc] at h
    exact h.1
  · simp only [Tracks, hpc] at h
    exact h.1
  · simp only [Tracks, hpc] at h
    exact h.1
  · simp only [Tracks, hpc] at h
    exact h.1

/-- What a session does is what the feed asks for on the whole stream. A session
    that stops at the reset has not read the end of it, and the feed ignores it. -/
theorem effects_reads {s t : Server} {f : Feed} {stream : List UInt8} {as : List Answer}
    (h : Tracks s f []) (hr : Reads s stream as t) (hu : Along step Unsplit s as) :
    effects (events s as) = (transduce Feed.byte f stream).2 := by
  rcases tracks_run h hr.plain hu hr.run with ⟨owed, ht, heq⟩
  have hfin : t.pc = .cpuReset ∨ Waiting t := hr.finished.imp_right And.left
  rw [tracks_finished ht hfin, List.append_nil, List.nil_append] at heq
  rcases hr.finished with hpc | ⟨-, hall⟩
  · rcases hr.arrived with ⟨rest, hrest⟩
    simp only [Tracks, hpc] at ht
    have hignore : ∀ b, Feed.byte (transduce Feed.byte f ((events s as).flatMap arrived)).1 b =
        ((transduce Feed.byte f ((events s as).flatMap arrived)).1, []) := by
      intro b
      exact byte_ended ht.2 b
    rw [heq, ← hrest, transduce_append, transduce_of_ignores _ _ hignore, List.append_nil]
  · rw [heq, hall]

/-- The replies and the writes are among the effects. -/
theorem replies_effects (tr : List (Call × Answer)) : replies tr =
    (effects tr).filterMap fun c => match c with
      | .send b => some b
      | _ => none := by
  simp only [replies, effects, List.filterMap_filterMap]
  congr 1
  funext e
  cases e.1 <;> rfl

theorem writes_effects (tr : List (Call × Answer)) : writes tr =
    (effects tr).filterMap fun c => match c with
      | .write sector page => some (sector, page)
      | _ => none := by
  simp only [writes, effects, List.filterMap_filterMap]
  congr 1
  funext e
  cases e.1 <;> rfl

/-- The feed that starts where a session does. -/
def feedOf (s : Server) : Feed :=
  { mode := .header []
    totalSize := s.totalSize
    pageOffset := s.pageOffset
    packCount := s.packCount
    page := s.dataBuf }

/-- Two sessions that read the same stream, cut as it may be, send the same replies
    and make the same flash writes, provided no header that passes the check was
    completed by a short receive in either of them. -/
theorem reads_agree {s t t' : Server} {stream : List UInt8} {as as' : List Answer}
    (h : s.pc = .headerRecv) (h0 : s.index = 0) (hr : Reads s stream as t)
    (hr' : Reads s stream as' t') (hu : Along step Unsplit s as)
    (hu' : Along step Unsplit s as') :
    replies (events s as) = replies (events s as') ∧
      writes (events s as) = writes (events s as') := by
  have hstart : Tracks s (feedOf s) [] := by
    simp only [Tracks, h]
    exact ⟨trivial, ⟨rfl, rfl, rfl, rfl⟩, [], rfl, Buffer.holds_nil _ _, h0, by decide⟩
  have heq : effects (events s as) = effects (events s as') := by
    rw [effects_reads hstart hr hu, effects_reads hstart hr' hu']
  exact ⟨by rw [replies_effects, heq, ← replies_effects],
    by rw [writes_effects, heq, ← writes_effects]⟩

theorem plain_received (s : Server) (r : Recv) (h : s.pc ≠ .accept) (hr : 0 < r.ret) :
    Plain s (.received r) := ⟨h, hr⟩

/-- A length frame of four bytes, the length in one piece and in two. -/
theorem reads_agree_length :
    replies (events idleServer [.received (.data soh [0, 255]), .received (.data 0 [0, 0, 4]),
      .sent 1]) = replies (events idleServer [.received (.data soh [0, 255]),
        .received (.data 0 []), .received (.data 0 [0, 4]), .sent 1]) ∧
    writes (events idleServer [.received (.data soh [0, 255]), .received (.data 0 [0, 0, 4]),
      .sent 1]) = writes (events idleServer [.received (.data soh [0, 255]),
        .received (.data 0 []), .received (.data 0 [0, 4]), .sent 1]) := by
  refine @reads_agree idleServer _ _ [soh, 0, 255, 0, 0, 0, 4] _ _ rfl rfl
    ⟨rfl, ?_, List.prefix_rfl, Or.inr ⟨Or.inl rfl, rfl⟩⟩
    ⟨rfl, ?_, List.prefix_rfl, Or.inr ⟨Or.inl rfl, rfl⟩⟩ ?_ ?_
  · refine along_cons step rfl (plain_received _ _ (by decide) (by decide)) ?_
    refine along_cons step rfl (plain_received _ _ (by decide) (by decide)) ?_
    exact along_cons step rfl ⟨by decide, Int.one_nonneg⟩ trivial
  · refine along_cons step rfl (plain_received _ _ (by decide) (by decide)) ?_
    refine along_cons step rfl (plain_received _ _ (by decide) (by decide)) ?_
    refine along_cons step rfl (plain_received _ _ (by decide) (by decide)) ?_
    exact along_cons step rfl ⟨by decide, Int.one_nonneg⟩ trivial
  · refine along_cons step rfl (fun _ _ _ hne => absurd rfl hne) ?_
    refine along_cons step rfl (fun _ _ hpc => absurd hpc (by decide)) ?_
    exact along_cons step rfl (fun _ _ hpc => absurd hpc (by decide)) trivial
  · refine along_cons step rfl (fun _ _ _ hne => absurd rfl hne) ?_
    refine along_cons step rfl (fun _ _ hpc => absurd hpc (by decide)) ?_
    refine along_cons step rfl (fun _ _ hpc => absurd hpc (by decide)) ?_
    exact along_cons step rfl (fun _ _ hpc => absurd hpc (by decide)) trivial

/-- The same three bytes of an `EOT` header, in one receive and in two. -/
theorem not_reads_agree_split :
    ¬ ∀ (s t t' : Server) (stream : List UInt8) (as as' : List Answer),
      s.pc = .headerRecv → s.index = 0 → Reads s stream as t → Reads s stream as' t' →
        replies (events s as) = replies (events s as') ∧
          writes (events s as) = writes (events s as') := by
  intro h
  have hsame := (h idleServer _ _ [eot, 1, 254]
    [.received (.data eot [1, 254]), .stored true, .sent 1]
    [.received (.data eot []), .received (.data 1 [254]), .sent 1] rfl rfl
    ⟨rfl, ?_, List.prefix_rfl, Or.inl rfl⟩
    ⟨rfl, ?_, List.prefix_rfl, Or.inr ⟨Or.inl rfl, rfl⟩⟩).1
  · exact absurd hsame (by decide)
  · refine along_cons step rfl (plain_received _ _ (by decide) (by decide)) ?_
    refine along_cons step rfl ⟨by decide, trivial⟩ ?_
    exact along_cons step rfl ⟨by decide, Int.one_nonneg⟩ trivial
  · refine along_cons step rfl (plain_received _ _ (by decide) (by decide)) ?_
    refine along_cons step rfl (plain_received _ _ (by decide) (by decide)) ?_
    exact along_cons step rfl ⟨by decide, Int.one_nonneg⟩ trivial

end Update

end Firmware
