import Firmware.Lib.Runs
import Firmware.Update.Protocol

/-!
# Update Server

`tcp_update_thread_entry` and `blocking_lwip_recv` from `applications/update.c`,
as a machine that stops at every call it makes.

The thread does nothing on its own that anyone outside can see: it talks to the
network stack, the heap, the flash device and the kernel, and between two such
calls it only moves its own variables. So a state is the values of those
variables together with the call the thread is waiting in, `Server.call` says
which call that is and with which arguments, and `step` consumes the call's
result and runs the C code up to the next call. Whatever the surroundings answer,
in whatever order, is a list of answers, and every run of the thread is `run step`
on one of them.

The code between two calls is kept in pieces that follow the source: `sohLoop` is
the loop test in front of the four length bytes, `sohDone` the statements after
that loop, and so on. Nothing is repaired on the way. The retry counter is tested
and decremented in one go, negative results are added to `dataIndex`, the reply
after a payload loop is sent whether or not the loop completed, and the header
check looks at the size of the last receive rather than at `index`.

File-level variables survive from one connection to the next, which is why they
are part of the same record as the locals and why no step resets them except the
ones that do so in the source. The thread's start-up, before the first
`lwip_accept`, is not part of the machine: it either gets there or ends.

`rt_hw_cpu_reset` only requests the reset, so the machine carries on behind it as
the source does; a run the reset cuts short is the run of a shorter list.

## Main definitions

* `Recv`: What a receive call can return.
* `Call`: The calls the thread makes, with their arguments.
* `Answer`: What they return.
* `BlockingRecv`: The local state of `blocking_lwip_recv`.
* `Server`: The variables of the thread and the call it waits in.
* `Server.call`: The pending call.
* `step`: From one call to the next.
* `Step`: The same as a relation, one constructor for each kind of answer.
* `events`: The calls of a run and their results.
* `replies`, `writes`: The reply bytes and the flash writes among them.

## Theorems

* `step_headerRecv`, `step_sohRecv` and so on: The answer a call was given and
  the state behind it.
* `step_cases`: The same for a call that is not known.
* `onSelect_cases`, `onRecvfrom_cases`: What `blocking_lwip_recv` does with a result.
* `onHeader_cases`, `onLength_cases`, `onBlock_cases`: What the three receive
  loops do with a result.
-/

namespace Firmware

namespace Update

/-- The result of a receive call: at least one byte, the end of the stream (`0`),
    or an error (any negative number, the index counting down from `-1`). -/
inductive Recv
  | data (b : UInt8) (bs : List UInt8)
  | closed
  | error (e : Nat)
  deriving DecidableEq

namespace Recv

/-- The bytes the call put into memory. -/
def bytes : Recv → List UInt8
  | data b bs => b :: bs
  | closed => []
  | error _ => []

/-- The value the call returned. -/
def ret : Recv → Int
  | data _ bs => bs.length + 1
  | closed => 0
  | error e => -(e + 1)

theorem ret_data (b : UInt8) (bs : List UInt8) : (data b bs).ret = ((b :: bs).length : Int) := by
  simp only [ret, List.length_cons, Nat.cast_add, Nat.cast_one]

theorem bytes_length_of_pos (r : Recv) (h : 0 ≤ r.ret) : (r.bytes.length : Int) = r.ret := by
  cases r with
  | data b bs => exact (ret_data b bs).symm
  | closed => rfl
  | error e => simp only [ret] at h; omega

theorem bytes_ne_nil (r : Recv) (h : 0 < r.ret) : r.bytes ≠ [] := by
  intro hnil
  have hlen := bytes_length_of_pos r (le_of_lt h)
  rw [hnil, List.length_nil] at hlen
  omega

theorem bytes_of_neg (r : Recv) (h : r.ret < 0) : r.bytes = [] := by
  cases r with
  | data b bs => simp only [ret] at h; omega
  | closed => rfl
  | error e => rfl

end Recv

/-- The calls the thread makes. Offsets count from the start of the buffer the
    bytes go to; a sector is written from `data_buf`, whatever that points to. -/
inductive Call
  | accept
  | mutexTake
  | malloc
  | recvHeader (off len : Int)
  | recvLength (off len : Int)
  | select
  | recvPage (off len : Int)
  | send (b : UInt8)
  | write (sector : Nat) (page : Option Page)
  | cpuReset
  | mutexRelease
  | close
  | free

/-- The results of those calls. `done` answers the ones that return nothing the
    code looks at. -/
inductive Answer
  | accepted (fd : Int)
  | done
  | allocated (p : Option Page)
  | received (r : Recv)
  | selected (ret : Int)
  | sent (ret : Int)
  | stored (ok : Bool)

namespace Answer

/-- The descriptor, if this is an answer to `lwip_accept`. The other six read the
    other kinds of answer in the same way. -/
def asAccepted : Answer → Option Int
  | accepted fd => some fd
  | _ => none

def asDone : Answer → Option Unit
  | done => some ()
  | _ => none

def asAllocated : Answer → Option (Option Page)
  | allocated p => some p
  | _ => none

def asReceived : Answer → Option Recv
  | received r => some r
  | _ => none

def asSelected : Answer → Option Int
  | selected ret => some ret
  | _ => none

def asSent : Answer → Option Int
  | sent ret => some ret
  | _ => none

def asStored : Answer → Option Bool
  | stored ok => some ok
  | _ => none

end Answer

/-- Where `blocking_lwip_recv` waits. -/
inductive BlockingPc
  | select
  | recvfrom
  deriving DecidableEq

/-- The parameters and locals of `blocking_lwip_recv`; `mem` counts from the
    start of the buffer the caller passed a part of. -/
structure BlockingRecv where
  mem : Int
  len : Int
  offset : Int
  pc : BlockingPc
  deriving DecidableEq

/-- `blocking_lwip_recv` either waits in its next call or has returned. -/
inductive Outcome
  | running (b : BlockingRecv)
  | returned (ret : Int)

/-- Entering `blocking_lwip_recv`: the first call is `lwip_select`. -/
def blockingLwipRecv (mem len : Int) : BlockingRecv :=
  { mem := mem, len := len, offset := 0, pc := .select }

/-- The result of `lwip_select`: a time-out ends the loop, an error is returned. -/
def BlockingRecv.onSelect (b : BlockingRecv) (ret : Int) : Outcome :=
  if ret = 0 then .returned b.offset
  else if ret < 0 then .returned ret
  else .running { b with pc := .recvfrom }

/-- The result of `lwip_recvfrom`: end of stream and errors are returned, a
    receive that fills the request ends the loop, a shorter one goes round. -/
def BlockingRecv.onRecvfrom (b : BlockingRecv) (r : Recv) : Outcome :=
  if r.ret = 0 then .returned (-1)
  else if r.ret < 0 then .returned r.ret
  else if r.ret = b.len - b.offset then .returned b.len
  else .running { b with offset := b.offset + r.ret, pc := .select }

/-- What `blocking_lwip_recv` does with one result. The three ways on: it waits again, it
    returns a count, or it returns an error. -/
theorem onSelect_cases (b : BlockingRecv) (ret : Int) :
    (ret = 0 ∧ b.onSelect ret = .returned b.offset) ∨
    (ret < 0 ∧ b.onSelect ret = .returned ret) ∨
    (0 < ret ∧ b.onSelect ret = .running { b with pc := .recvfrom }) := by
  unfold BlockingRecv.onSelect
  by_cases h0 : ret = 0
  · exact Or.inl ⟨h0, by rw [if_pos h0]⟩
  · by_cases hneg : ret < 0
    · exact Or.inr (Or.inl ⟨hneg, by rw [if_neg h0, if_pos hneg]⟩)
    · exact Or.inr (Or.inr ⟨by omega, by rw [if_neg h0, if_neg hneg]⟩)

theorem onRecvfrom_cases (b : BlockingRecv) (r : Recv) :
    (r.ret ≤ 0 ∧ ∃ e, e < 0 ∧ b.onRecvfrom r = .returned e) ∨
    (0 < r.ret ∧ r.ret = b.len - b.offset ∧ b.onRecvfrom r = .returned b.len) ∨
    (0 < r.ret ∧ r.ret ≠ b.len - b.offset ∧
      b.onRecvfrom r = .running { b with offset := b.offset + r.ret, pc := .select }) := by
  unfold BlockingRecv.onRecvfrom
  by_cases h0 : r.ret = 0
  · exact Or.inl ⟨by omega, -1, by omega, by rw [if_pos h0]⟩
  · by_cases hneg : r.ret < 0
    · exact Or.inl ⟨by omega, r.ret, hneg, by rw [if_neg h0, if_pos hneg]⟩
    · by_cases hfull : r.ret = b.len - b.offset
      · exact Or.inr (Or.inl ⟨by omega, hfull, by rw [if_neg h0, if_neg hneg, if_pos hfull]⟩)
      · exact Or.inr (Or.inr ⟨by omega, hfull, by rw [if_neg h0, if_neg hneg, if_neg hfull]⟩)

/-- The calls of `tcp_update_thread_entry`, named after the place they stand in. -/
inductive Pc
  | accept
  | mutexTake
  | malloc
  | headerRecv
  | headerNak
  | sohRecv
  | sohNak
  | sohAck
  | stxRecv (b : BlockingRecv)
  | stxNak
  | stxWrite
  | stxAck
  | eotWrite
  | eotInfo
  | eotAck
  | cpuReset
  | mutexRelease
  | close
  | free
  deriving DecidableEq

/-- The variables of the thread. The first four live at file level and outlast a
    connection. `dataBuf` is `none` when it points to no allocated memory. -/
structure Server where
  pc : Pc
  headerBuf : Buffer UInt8 headerLen
  totalSize : UInt32
  pageOffset : Nat
  packCount : Nat
  connected : Int
  dataBuf : Option Page
  buf : Buffer UInt8 4
  index : Int
  dataIndex : Int
  retry : Nat

namespace Server

/-- The call the thread is waiting in. -/
def call (s : Server) : Call :=
  match s.pc with
  | .accept => .accept
  | .mutexTake => .mutexTake
  | .malloc => .malloc
  | .headerRecv => .recvHeader s.index (headerLen - s.index)
  | .headerNak => .send (s.headerBuf 0)
  | .sohRecv => .recvLength s.dataIndex (4 - s.dataIndex)
  | .sohNak => .send (s.headerBuf 0)
  | .sohAck => .send (s.headerBuf 0)
  | .stxRecv b => match b.pc with
    | .select => .select
    | .recvfrom => .recvPage (b.mem + b.offset) (b.len - b.offset)
  | .stxNak => .send (s.headerBuf 0)
  | .stxWrite => .write (updateDataAddr + s.pageOffset) s.dataBuf
  | .stxAck => .send (s.headerBuf 0)
  | .eotWrite => .write (updateDataAddr + s.pageOffset) s.dataBuf
  | .eotInfo => .write updateInfoAddr s.dataBuf
  | .eotAck => .send (s.headerBuf 0)
  | .cpuReset => .cpuReset
  | .mutexRelease => .mutexRelease
  | .close => .close
  | .free => .free

/-- `header_buf[0]=b;` in front of a reply. -/
def reply (s : Server) (b : UInt8) (pc : Pc) : Server :=
  { s with headerBuf := s.headerBuf.store 0 [b], pc := pc }

/-- The label `exit`, which both `goto exit` and `break` lead to. -/
def exit (s : Server) : Server := { s with pc := .mutexRelease }

/-- The top of the receive loop: `index = 0;` and the header loop's first test. -/
def nextFrame (s : Server) : Server := { s with index := 0, pc := .headerRecv }

/-- After the `SOH` loop, complete or not. -/
def sohDone (s : Server) : Server :=
  { s with packCount := 0, pageOffset := 0, totalSize := rbigu4 s.buf }.reply ack .sohAck

/-- `while(data_index<4&&retry--)` -/
def sohLoop (s : Server) : Server :=
  -- `retry--` wraps on the test that fails, and is not evaluated behind a complete length.
  if s.dataIndex < 4 then
    if s.retry ≠ 0 then { s with retry := s.retry - 1, pc := .sohRecv }
    else sohDone { s with retry := 2 ^ 32 - 1 }
  else sohDone s

/-- After the `STX` loop, complete or not. -/
def stxDone (s : Server) : Server :=
  -- The fourth block of a page has it written before the reply.
  if (s.packCount + 1) % 2 ^ 16 = 4 then { s with packCount := 0, pc := .stxWrite }
  else { s with packCount := (s.packCount + 1) % 2 ^ 16 }.reply ack .stxAck

/-- `while(data_index<MAX_DATA_SIZE&&retry--)` and the call of
    `blocking_lwip_recv` behind it. -/
def stxLoop (s : Server) : Server :=
  if s.dataIndex < maxDataSize then
    if s.retry ≠ 0 then
      { s with
        retry := s.retry - 1
        pc := .stxRecv (blockingLwipRecv (s.packCount * maxDataSize + s.dataIndex)
          (maxDataSize - s.dataIndex)) }
    else stxDone { s with retry := 2 ^ 32 - 1 }
  else stxDone s

/-- The information sector: length and `MAGIC` over the start of the page buffer. -/
def eotInfo (s : Server) : Server :=
  { s with
    dataBuf := s.dataBuf.map fun p => wbigu4 (wbigu4 p 0 s.totalSize) 4 magic
    pc := .eotInfo }

/-- The `EOT` branch up to its first flash write. -/
def eotStart (s : Server) : Server :=
  -- A page that is not full yet has to be written as well.
  if s.packCount ≠ 0 then { s with packCount := 0, pc := .eotWrite } else eotInfo s

/-- The three-way branch on `header_buf[0]` behind the header loop. -/
def dispatch (s : Server) : Server :=
  if s.headerBuf 0 = soh then sohLoop { s with retry := 10, dataIndex := 0 }
  else if s.headerBuf 0 = stx then stxLoop { s with retry := 20, dataIndex := 0 }
  -- A header of any other kind is passed over without a reply.
  else if s.headerBuf 0 = eot then eotStart s
  else nextFrame s

/-- The check `(header_buf[1]+header_buf[2])!=0xff`, negated. -/
def headerSum (h : Buffer UInt8 headerLen) : Bool := (h 1).toNat + (h 2).toNat = 0xff

/-- The body of the header loop once `lwip_recv` has returned. -/
def onHeader (s : Server) (r : Recv) : Server :=
  -- `continue`, with an error as with the end of the stream.
  if r.ret ≤ 0 then s
  else
    let s := { s with headerBuf := s.headerBuf.store s.index r.bytes, index := s.index + r.ret }
    if s.index < (headerLen : Int) then s
    -- The source compares the last piece alone with the length of a header.
    else if r.ret ≠ (headerLen : Int) ∨ headerSum s.headerBuf = false then s.reply nak .headerNak
    else dispatch s

/-- The body of the `SOH` loop once `lwip_recv` has returned. -/
def onLength (s : Server) (r : Recv) : Server :=
  let s := { s with buf := s.buf.store s.dataIndex r.bytes }
  if r.ret = 0 then sohLoop s
  else
    -- A negative result is not told apart, and takes the index back.
    let s := { s with dataIndex := s.dataIndex + r.ret }
    if s.retry = 0 then s.reply nak .sohNak else sohLoop s

/-- The body of the `STX` loop once `blocking_lwip_recv` has returned. -/
def onBlock (s : Server) (ret : Int) : Server :=
  -- A negative count is added as well.
  if ret = 0 then stxLoop s
  else
    let s := { s with dataIndex := s.dataIndex + ret }
    if s.retry = 0 then s.reply nak .stxNak else stxLoop s

/-- Inside `blocking_lwip_recv`, or behind it. -/
def onOutcome (s : Server) : Outcome → Server
  | .running b => { s with pc := .stxRecv b }
  | .returned ret => onBlock s ret

/-- Behind a flash write of the page buffer: `page_offset++`. -/
def pageWritten (s : Server) : Server := { s with pageOffset := (s.pageOffset + 1) % 2 ^ 16 }

/-- Behind `lwip_close`: `rt_free` unless there is nothing to free. -/
def closed (s : Server) : Server :=
  { s with pc := if s.dataBuf.isSome then .free else .accept }

/-- A reply whose failure leaves the receive loop; otherwise control goes on to `k`. -/
def onSent (s : Server) (ret : Int) (k : Server → Server) : Server :=
  if ret < 0 then exit s else k s

/-- A payload loop that has used up its retries ends. -/
theorem sohLoop_of_retry {s : Server} (h : s.retry = 0) :
    ∃ k, s.sohLoop = sohDone { s with retry := k } := by
  unfold sohLoop
  split
  · exact ⟨2 ^ 32 - 1, if_neg (not_not.mpr h)⟩
  · exact ⟨s.retry, rfl⟩

theorem stxLoop_of_retry {s : Server} (h : s.retry = 0) :
    ∃ k, s.stxLoop = stxDone { s with retry := k } := by
  unfold stxLoop
  split
  · exact ⟨2 ^ 32 - 1, if_neg (not_not.mpr h)⟩
  · exact ⟨s.retry, rfl⟩

theorem onSent_of_nonneg {s : Server} {ret : Int} (k : Server → Server) (h : 0 ≤ ret) :
    s.onSent ret k = k s :=
  if_neg (Int.not_lt.mpr h)

end Server

/-- Consume the result of the pending call and run to the next one. An answer of
    the wrong kind, or a receive of more bytes than were asked for, is none. -/
def step (s : Server) (a : Answer) : Option Server :=
  match s.pc with
  | .accept => a.asAccepted.map fun fd => { s with connected := fd, pc := .mutexTake }
  | .mutexTake => a.asDone.map fun _ => { s with pc := .malloc }
  | .malloc => a.asAllocated.map fun p => Server.nextFrame { s with dataBuf := p }
  | .headerRecv => a.asReceived.bind fun r =>
      if r.ret ≤ headerLen - s.index then some (s.onHeader r) else none
  -- The loop test behind the reply fails, `index` being `HEADER_LEN` here.
  | .headerNak => a.asSent.map fun ret => s.onSent ret Server.dispatch
  | .sohRecv => a.asReceived.bind fun r =>
      if r.ret ≤ 4 - s.dataIndex then some (s.onLength r) else none
  | .sohNak => a.asSent.map fun ret => s.onSent ret Server.sohLoop
  | .sohAck => a.asSent.map fun ret => s.onSent ret Server.nextFrame
  | .stxRecv b => match b.pc with
    | .select => a.asSelected.map fun ret => s.onOutcome (b.onSelect ret)
    | .recvfrom => a.asReceived.bind fun r =>
        if r.ret ≤ b.len - b.offset then
          some (Server.onOutcome
            { s with dataBuf := s.dataBuf.map (·.store (b.mem + b.offset) r.bytes) }
            (b.onRecvfrom r))
        else none
  | .stxNak => a.asSent.map fun ret => s.onSent ret Server.stxLoop
  | .stxWrite => a.asStored.map fun _ => s.pageWritten.reply ack .stxAck
  | .stxAck => a.asSent.map fun ret => s.onSent ret Server.nextFrame
  | .eotWrite => a.asStored.map fun _ => s.pageWritten.eotInfo
  | .eotInfo => a.asStored.map fun _ => s.reply ack .eotAck
  | .eotAck => a.asSent.map fun _ => { s with pc := .cpuReset }
  | .cpuReset => a.asDone.map fun _ => s.exit
  | .mutexRelease => a.asDone.map fun _ => { s with pc := .close }
  | .close => a.asDone.map fun _ => s.closed
  | .free => a.asDone.map fun _ => { s with dataBuf := none, pc := .accept }

/-- What `step` does, one constructor for each kind of call. -/
inductive Step : Server → Answer → Server → Prop
  | accept {s : Server} (h : s.pc = .accept) (fd : Int) :
      Step s (.accepted fd) { s with connected := fd, pc := .mutexTake }
  | mutexTake {s : Server} (h : s.pc = .mutexTake) : Step s .done { s with pc := .malloc }
  | malloc {s : Server} (h : s.pc = .malloc) (p : Option Page) :
      Step s (.allocated p) (Server.nextFrame { s with dataBuf := p })
  | headerRecv {s : Server} (h : s.pc = .headerRecv) (r : Recv)
      (hr : r.ret ≤ headerLen - s.index) : Step s (.received r) (s.onHeader r)
  | headerNak {s : Server} (h : s.pc = .headerNak) (ret : Int) :
      Step s (.sent ret) (s.onSent ret Server.dispatch)
  | sohRecv {s : Server} (h : s.pc = .sohRecv) (r : Recv) (hr : r.ret ≤ 4 - s.dataIndex) :
      Step s (.received r) (s.onLength r)
  | sohNak {s : Server} (h : s.pc = .sohNak) (ret : Int) :
      Step s (.sent ret) (s.onSent ret Server.sohLoop)
  | sohAck {s : Server} (h : s.pc = .sohAck) (ret : Int) :
      Step s (.sent ret) (s.onSent ret Server.nextFrame)
  | select {s : Server} {b : BlockingRecv} (h : s.pc = .stxRecv b) (hb : b.pc = .select)
      (ret : Int) : Step s (.selected ret) (s.onOutcome (b.onSelect ret))
  | recvfrom {s : Server} {b : BlockingRecv} (h : s.pc = .stxRecv b) (hb : b.pc = .recvfrom)
      (r : Recv) (hr : r.ret ≤ b.len - b.offset) :
      Step s (.received r) (Server.onOutcome
        { s with dataBuf := s.dataBuf.map (·.store (b.mem + b.offset) r.bytes) }
        (b.onRecvfrom r))
  | stxNak {s : Server} (h : s.pc = .stxNak) (ret : Int) :
      Step s (.sent ret) (s.onSent ret Server.stxLoop)
  | stxWrite {s : Server} (h : s.pc = .stxWrite) (ok : Bool) :
      Step s (.stored ok) (s.pageWritten.reply ack .stxAck)
  | stxAck {s : Server} (h : s.pc = .stxAck) (ret : Int) :
      Step s (.sent ret) (s.onSent ret Server.nextFrame)
  | eotWrite {s : Server} (h : s.pc = .eotWrite) (ok : Bool) :
      Step s (.stored ok) s.pageWritten.eotInfo
  | eotInfo {s : Server} (h : s.pc = .eotInfo) (ok : Bool) :
      Step s (.stored ok) (s.reply ack .eotAck)
  | eotAck {s : Server} (h : s.pc = .eotAck) (ret : Int) :
      Step s (.sent ret) { s with pc := .cpuReset }
  | cpuReset {s : Server} (h : s.pc = .cpuReset) : Step s .done s.exit
  | mutexRelease {s : Server} (h : s.pc = .mutexRelease) : Step s .done { s with pc := .close }
  | close {s : Server} (h : s.pc = .close) : Step s .done s.closed
  | free {s : Server} (h : s.pc = .free) :
      Step s .done { s with dataBuf := none, pc := .accept }

section Answers

variable {β : Type*} {a : Answer} {b : β}

theorem asAccepted_map {f : Int → β} (h : a.asAccepted.map f = some b) :
    ∃ fd, a = .accepted fd ∧ b = f fd := by
  cases a <;> cases h
  exact ⟨_, rfl, rfl⟩

theorem asDone_map {f : Unit → β} (h : a.asDone.map f = some b) : a = .done ∧ b = f () := by
  cases a <;> cases h
  exact ⟨rfl, rfl⟩

theorem asAllocated_map {f : Option Page → β} (h : a.asAllocated.map f = some b) :
    ∃ p, a = .allocated p ∧ b = f p := by
  cases a <;> cases h
  exact ⟨_, rfl, rfl⟩

theorem asReceived_bind {f : Recv → β} {limit : Int}
    (h : (a.asReceived.bind fun r => if r.ret ≤ limit then some (f r) else none) = some b) :
    ∃ r, a = .received r ∧ r.ret ≤ limit ∧ b = f r := by
  cases a with
  | received r =>
      by_cases hr : r.ret ≤ limit
      · simp only [Answer.asReceived, Option.bind_some, if_pos hr, Option.some.injEq] at h
        exact ⟨r, rfl, hr, h.symm⟩
      · simp only [Answer.asReceived, Option.bind_some, if_neg hr, reduceCtorEq] at h
  | _ => cases h

theorem asSelected_map {f : Int → β} (h : a.asSelected.map f = some b) :
    ∃ ret, a = .selected ret ∧ b = f ret := by
  cases a <;> cases h
  exact ⟨_, rfl, rfl⟩

theorem asSent_map {f : Int → β} (h : a.asSent.map f = some b) :
    ∃ ret, a = .sent ret ∧ b = f ret := by
  cases a <;> cases h
  exact ⟨_, rfl, rfl⟩

theorem asStored_map {f : Bool → β} (h : a.asStored.map f = some b) :
    ∃ ok, a = .stored ok ∧ b = f ok := by
  cases a <;> cases h
  exact ⟨_, rfl, rfl⟩

end Answers

section Inversion

variable {s s' : Server} {a : Answer}

theorem step_accept (h : s.pc = .accept) (hs : step s a = some s') :
    ∃ fd, a = .accepted fd ∧ s' = { s with connected := fd, pc := .mutexTake } := by
  simp only [step, h] at hs
  exact asAccepted_map hs

theorem step_mutexTake (h : s.pc = .mutexTake) (hs : step s a = some s') :
    a = .done ∧ s' = { s with pc := .malloc } := by
  simp only [step, h] at hs
  exact asDone_map hs

theorem step_malloc (h : s.pc = .malloc) (hs : step s a = some s') :
    ∃ p, a = .allocated p ∧ s' = Server.nextFrame { s with dataBuf := p } := by
  simp only [step, h] at hs
  exact asAllocated_map hs

theorem step_headerRecv (h : s.pc = .headerRecv) (hs : step s a = some s') :
    ∃ r, a = .received r ∧ r.ret ≤ headerLen - s.index ∧ s' = s.onHeader r := by
  simp only [step, h] at hs
  exact asReceived_bind hs

theorem step_headerNak (h : s.pc = .headerNak) (hs : step s a = some s') :
    ∃ ret, a = .sent ret ∧ s' = s.onSent ret Server.dispatch := by
  simp only [step, h] at hs
  exact asSent_map hs

theorem step_sohRecv (h : s.pc = .sohRecv) (hs : step s a = some s') :
    ∃ r, a = .received r ∧ r.ret ≤ 4 - s.dataIndex ∧ s' = s.onLength r := by
  simp only [step, h] at hs
  exact asReceived_bind hs

theorem step_sohNak (h : s.pc = .sohNak) (hs : step s a = some s') :
    ∃ ret, a = .sent ret ∧ s' = s.onSent ret Server.sohLoop := by
  simp only [step, h] at hs
  exact asSent_map hs

theorem step_sohAck (h : s.pc = .sohAck) (hs : step s a = some s') :
    ∃ ret, a = .sent ret ∧ s' = s.onSent ret Server.nextFrame := by
  simp only [step, h] at hs
  exact asSent_map hs

theorem step_select {b : BlockingRecv} (h : s.pc = .stxRecv b) (hb : b.pc = .select)
    (hs : step s a = some s') : ∃ ret, a = .selected ret ∧ s' = s.onOutcome (b.onSelect ret) := by
  simp only [step, h, hb] at hs
  exact asSelected_map hs

theorem step_recvfrom {b : BlockingRecv} (h : s.pc = .stxRecv b) (hb : b.pc = .recvfrom)
    (hs : step s a = some s') :
    ∃ r, a = .received r ∧ r.ret ≤ b.len - b.offset ∧ s' = Server.onOutcome
      { s with dataBuf := s.dataBuf.map (·.store (b.mem + b.offset) r.bytes) }
      (b.onRecvfrom r) := by
  simp only [step, h, hb] at hs
  exact asReceived_bind hs

theorem step_stxNak (h : s.pc = .stxNak) (hs : step s a = some s') :
    ∃ ret, a = .sent ret ∧ s' = s.onSent ret Server.stxLoop := by
  simp only [step, h] at hs
  exact asSent_map hs

theorem step_stxWrite (h : s.pc = .stxWrite) (hs : step s a = some s') :
    ∃ ok, a = .stored ok ∧ s' = s.pageWritten.reply ack .stxAck := by
  simp only [step, h] at hs
  exact asStored_map hs

theorem step_stxAck (h : s.pc = .stxAck) (hs : step s a = some s') :
    ∃ ret, a = .sent ret ∧ s' = s.onSent ret Server.nextFrame := by
  simp only [step, h] at hs
  exact asSent_map hs

theorem step_eotWrite (h : s.pc = .eotWrite) (hs : step s a = some s') :
    ∃ ok, a = .stored ok ∧ s' = s.pageWritten.eotInfo := by
  simp only [step, h] at hs
  exact asStored_map hs

theorem step_eotInfo (h : s.pc = .eotInfo) (hs : step s a = some s') :
    ∃ ok, a = .stored ok ∧ s' = s.reply ack .eotAck := by
  simp only [step, h] at hs
  exact asStored_map hs

theorem step_eotAck (h : s.pc = .eotAck) (hs : step s a = some s') :
    ∃ ret, a = .sent ret ∧ s' = { s with pc := .cpuReset } := by
  simp only [step, h] at hs
  exact asSent_map hs

theorem step_cpuReset (h : s.pc = .cpuReset) (hs : step s a = some s') :
    a = .done ∧ s' = s.exit := by
  simp only [step, h] at hs
  exact asDone_map hs

theorem step_mutexRelease (h : s.pc = .mutexRelease) (hs : step s a = some s') :
    a = .done ∧ s' = { s with pc := .close } := by
  simp only [step, h] at hs
  exact asDone_map hs

theorem step_close (h : s.pc = .close) (hs : step s a = some s') :
    a = .done ∧ s' = s.closed := by
  simp only [step, h] at hs
  exact asDone_map hs

theorem step_free (h : s.pc = .free) (hs : step s a = some s') :
    a = .done ∧ s' = { s with dataBuf := none, pc := .accept } := by
  simp only [step, h] at hs
  exact asDone_map hs

end Inversion

/-- Every step is one of the cases of `Step`. -/
theorem step_cases {s s' : Server} {a : Answer} (hs : step s a = some s') : Step s a s' := by
  cases h : s.pc with
  | accept =>
      rcases step_accept h hs with ⟨fd, rfl, rfl⟩
      exact .accept h fd
  | mutexTake =>
      rcases step_mutexTake h hs with ⟨rfl, rfl⟩
      exact .mutexTake h
  | malloc =>
      rcases step_malloc h hs with ⟨p, rfl, rfl⟩
      exact .malloc h p
  | headerRecv =>
      rcases step_headerRecv h hs with ⟨r, rfl, hr, rfl⟩
      exact .headerRecv h r hr
  | headerNak =>
      rcases step_headerNak h hs with ⟨ret, rfl, rfl⟩
      exact .headerNak h ret
  | sohRecv =>
      rcases step_sohRecv h hs with ⟨r, rfl, hr, rfl⟩
      exact .sohRecv h r hr
  | sohNak =>
      rcases step_sohNak h hs with ⟨ret, rfl, rfl⟩
      exact .sohNak h ret
  | sohAck =>
      rcases step_sohAck h hs with ⟨ret, rfl, rfl⟩
      exact .sohAck h ret
  | stxRecv b =>
      cases hb : b.pc with
      | select =>
          rcases step_select h hb hs with ⟨ret, rfl, rfl⟩
          exact .select h hb ret
      | recvfrom =>
          rcases step_recvfrom h hb hs with ⟨r, rfl, hr, rfl⟩
          exact .recvfrom h hb r hr
  | stxNak =>
      rcases step_stxNak h hs with ⟨ret, rfl, rfl⟩
      exact .stxNak h ret
  | stxWrite =>
      rcases step_stxWrite h hs with ⟨ok, rfl, rfl⟩
      exact .stxWrite h ok
  | stxAck =>
      rcases step_stxAck h hs with ⟨ret, rfl, rfl⟩
      exact .stxAck h ret
  | eotWrite =>
      rcases step_eotWrite h hs with ⟨ok, rfl, rfl⟩
      exact .eotWrite h ok
  | eotInfo =>
      rcases step_eotInfo h hs with ⟨ok, rfl, rfl⟩
      exact .eotInfo h ok
  | eotAck =>
      rcases step_eotAck h hs with ⟨ret, rfl, rfl⟩
      exact .eotAck h ret
  | cpuReset =>
      rcases step_cpuReset h hs with ⟨rfl, rfl⟩
      exact .cpuReset h
  | mutexRelease =>
      rcases step_mutexRelease h hs with ⟨rfl, rfl⟩
      exact .mutexRelease h
  | close =>
      rcases step_close h hs with ⟨rfl, rfl⟩
      exact .close h
  | free =>
      rcases step_free h hs with ⟨rfl, rfl⟩
      exact .free h

/-- The header as it stands when a receive of three bytes has filled it. -/
@[simp] theorem store_header_zero (h : Buffer UInt8 headerLen) (x y z : UInt8) :
    h.store 0 [x, y, z] 0 = x := rfl

theorem headerSum_store (h : Buffer UInt8 headerLen) (x y z : UInt8) :
    Server.headerSum (h.store 0 [x, y, z]) = decide (y.toNat + z.toNat = 0xff) := rfl

/-- What the header loop does with the result of a receive: nothing, store a part
    of the header, refuse a complete header, or accept one. A header is accepted
    only when all of it came in one receive and its last two bytes match. -/
theorem onHeader_cases (s : Server) (r : Recv)
    (hr : r.ret ≤ headerLen - s.index) :
    (r.ret ≤ 0 ∧ s.onHeader r = s) ∨
    (0 < r.ret ∧ s.index + r.ret < headerLen ∧ s.onHeader r =
      { s with headerBuf := s.headerBuf.store s.index r.bytes, index := s.index + r.ret }) ∨
    (0 < r.ret ∧ s.index + r.ret = headerLen ∧
      (r.ret ≠ headerLen ∨ Server.headerSum (s.headerBuf.store s.index r.bytes) = false) ∧
      s.onHeader r = Server.reply
        { s with headerBuf := s.headerBuf.store s.index r.bytes, index := headerLen }
        nak .headerNak) ∨
    (∃ x y z, r = .data x [y, z] ∧ s.index = 0 ∧ y.toNat + z.toNat = 0xff ∧
      s.onHeader r = Server.dispatch
        { s with headerBuf := s.headerBuf.store 0 [x, y, z], index := headerLen }) := by
  by_cases hpos : r.ret ≤ 0
  · exact Or.inl ⟨hpos, by simp only [Server.onHeader, if_pos hpos]⟩
  · refine Or.inr ?_
    have hp : 0 < r.ret := by omega
    by_cases hfull : s.index + r.ret < headerLen
    · exact Or.inl ⟨hp, hfull, by simp only [Server.onHeader, if_neg hpos, if_pos hfull]⟩
    · refine Or.inr ?_
      -- No receive goes beyond the header, so this one has filled it.
      have hidx : s.index + r.ret = headerLen := by omega
      by_cases hbad : r.ret ≠ headerLen ∨
          Server.headerSum (s.headerBuf.store s.index r.bytes) = false
      · refine Or.inl ⟨hp, hidx, hbad, ?_⟩
        simp only [Server.onHeader, if_neg hpos, if_pos hbad, hidx, lt_self_iff_false, if_false]
      · refine Or.inr ?_
        have hon : s.onHeader r = Server.dispatch
            { s with headerBuf := s.headerBuf.store s.index r.bytes, index := headerLen } := by
          simp only [Server.onHeader, if_neg hpos, if_neg hbad, hidx, lt_self_iff_false, if_false]
        rcases not_or.mp hbad with ⟨hlen, hsum⟩
        -- A receive of the whole length can only have begun at its start.
        have hz : s.index = 0 := by omega
        rw [hz] at hon hsum
        -- Three bytes received leave only one shape for the result.
        cases r with
        | data x bs =>
            simp only [Recv.ret, headerLen, not_not] at hlen
            rcases bs with _ | ⟨y, _ | ⟨z, _ | ⟨w, bs⟩⟩⟩
            · simp only [List.length_nil] at hlen
              omega
            · simp only [List.length_cons, List.length_nil] at hlen
              omega
            · simp only [Recv.bytes, headerSum_store, decide_eq_false_iff_not, not_not] at hsum
              exact ⟨x, y, z, rfl, hz, hsum, hon⟩
            · simp only [List.length_cons] at hlen
              omega
        | closed => exact absurd hp (by simp only [Recv.ret, lt_self_iff_false, not_false_eq_true])
        | error e =>
            simp only [Recv.ret] at hp
            omega

/-- A whole header that passes the check is accepted. -/
theorem onHeader_accept (s : Server) (x y z : UInt8) (h0 : s.index = 0)
    (hsum : y.toNat + z.toNat = 0xff) : s.onHeader (.data x [y, z]) = Server.dispatch
      { s with headerBuf := s.headerBuf.store 0 [x, y, z], index := headerLen } := by
  have hret : (Recv.data x [y, z]).ret = 3 := rfl
  have hok : ¬ ((3 : Int) ≠ (headerLen : Int) ∨
      Server.headerSum (s.headerBuf.store 0 [x, y, z]) = false) := by
    rw [headerSum_store, hsum]
    decide
  simp only [Server.onHeader, hret, h0, Recv.bytes]
  rw [if_neg (by decide), if_neg (by decide), if_neg hok]
  rfl

/-- What the `SOH` loop does with the result of a receive: ask again, finish, or
    on the last retry complain first. The reply after the loop does not depend on
    how the loop ended. -/
theorem onLength_cases (s : Server) (r : Recv) (hd : s.dataIndex < 4) :
    (s.retry ≠ 0 ∧ s.dataIndex + r.ret < 4 ∧ s.onLength r =
      { s with
        buf := s.buf.store s.dataIndex r.bytes
        dataIndex := s.dataIndex + r.ret
        retry := s.retry - 1
        pc := .sohRecv }) ∨
    (s.retry ≠ 0 ∧ 4 ≤ s.dataIndex + r.ret ∧ s.onLength r = Server.sohDone
      { s with buf := s.buf.store s.dataIndex r.bytes, dataIndex := s.dataIndex + r.ret }) ∨
    (s.retry = 0 ∧ r.ret ≠ 0 ∧ s.onLength r = Server.reply
      { s with buf := s.buf.store s.dataIndex r.bytes, dataIndex := s.dataIndex + r.ret }
      nak .sohNak) ∨
    (s.retry = 0 ∧ r.ret = 0 ∧ s.onLength r = Server.sohDone
      { s with buf := s.buf.store s.dataIndex r.bytes, retry := 2 ^ 32 - 1 }) := by
  by_cases hret : r.ret = 0
  · have hon : s.onLength r = Server.sohLoop { s with buf := s.buf.store s.dataIndex r.bytes } := by
      simp only [Server.onLength, if_pos hret]
    rw [hon]
    by_cases hk : s.retry = 0
    · refine Or.inr (Or.inr (Or.inr ⟨hk, hret, ?_⟩))
      simp only [Server.sohLoop, if_pos hd, hk, ne_eq, not_true_eq_false, if_false]
    · refine Or.inl ⟨hk, by omega, ?_⟩
      simp only [Server.sohLoop, if_pos hd, ne_eq, hk, not_false_eq_true, if_true, hret, add_zero]
  · by_cases hk : s.retry = 0
    · refine Or.inr (Or.inr (Or.inl ⟨hk, hret, ?_⟩))
      simp only [Server.onLength, if_neg hret, hk, if_true]
    · have hon : s.onLength r = Server.sohLoop
          { s with buf := s.buf.store s.dataIndex r.bytes, dataIndex := s.dataIndex + r.ret } := by
        simp only [Server.onLength, if_neg hret, if_neg hk]
      rw [hon]
      by_cases hlt : s.dataIndex + r.ret < 4
      · refine Or.inl ⟨hk, hlt, ?_⟩
        simp only [Server.sohLoop, if_pos hlt, ne_eq, hk, not_false_eq_true, if_true]
      · refine Or.inr (Or.inl ⟨hk, by omega, ?_⟩)
        simp only [Server.sohLoop, if_neg hlt]

/-- The same for the `STX` loop and the result of `blocking_lwip_recv`. -/
theorem onBlock_cases (s : Server) (ret : Int) (hd : s.dataIndex < maxDataSize) :
    (s.retry ≠ 0 ∧ s.dataIndex + ret < maxDataSize ∧ s.onBlock ret =
      { s with
        dataIndex := s.dataIndex + ret
        retry := s.retry - 1
        pc := .stxRecv (blockingLwipRecv (s.packCount * maxDataSize + (s.dataIndex + ret))
          (maxDataSize - (s.dataIndex + ret))) }) ∨
    (s.retry ≠ 0 ∧ maxDataSize ≤ s.dataIndex + ret ∧
      s.onBlock ret = Server.stxDone { s with dataIndex := s.dataIndex + ret }) ∨
    (s.retry = 0 ∧ ret ≠ 0 ∧
      s.onBlock ret = Server.reply { s with dataIndex := s.dataIndex + ret } nak .stxNak) ∨
    (s.retry = 0 ∧ ret = 0 ∧ s.onBlock ret = Server.stxDone { s with retry := 2 ^ 32 - 1 }) := by
  by_cases hret : ret = 0
  · have hon : s.onBlock ret = s.stxLoop := by
      simp only [Server.onBlock, if_pos hret]
    rw [hon]
    by_cases hk : s.retry = 0
    · refine Or.inr (Or.inr (Or.inr ⟨hk, hret, ?_⟩))
      simp only [Server.stxLoop, if_pos hd, hk, ne_eq, not_true_eq_false, if_false]
    · refine Or.inl ⟨hk, by omega, ?_⟩
      simp only [Server.stxLoop, if_pos hd, ne_eq, hk, not_false_eq_true, if_true, hret, add_zero]
  · by_cases hk : s.retry = 0
    · refine Or.inr (Or.inr (Or.inl ⟨hk, hret, ?_⟩))
      simp only [Server.onBlock, if_neg hret, hk, if_true]
    · have hon : s.onBlock ret = Server.stxLoop { s with dataIndex := s.dataIndex + ret } := by
        simp only [Server.onBlock, if_neg hret, if_neg hk]
      rw [hon]
      by_cases hlt : s.dataIndex + ret < maxDataSize
      · refine Or.inl ⟨hk, hlt, ?_⟩
        simp only [Server.stxLoop, if_pos hlt, ne_eq, hk, not_false_eq_true, if_true]
      · refine Or.inr (Or.inl ⟨hk, by omega, ?_⟩)
        simp only [Server.stxLoop, if_neg hlt]

/-- What a step shows to the outside: the call and its result. -/
def observe (s : Server) (a : Answer) : Call × Answer := (s.call, a)

/-- The calls a run makes and what they return. -/
abbrev events (s : Server) (as : List Answer) : List (Call × Answer) := trace step observe s as

/-- The reply bytes among the calls. -/
def replies (tr : List (Call × Answer)) : List UInt8 :=
  tr.filterMap fun e => match e.1 with
    | .send b => some b
    | _ => none

/-- The flash writes among the calls: the sector and what was written. -/
def writes (tr : List (Call × Answer)) : List (Nat × Option Page) :=
  tr.filterMap fun e => match e.1 with
    | .write sector page => some (sector, page)
    | _ => none

/-- A call that is neither of the two. -/
def Call.silent : Call → Bool
  | .send _ => false
  | .write _ _ => false
  | _ => true

theorem Call.silent_iff (c : Call) : c.silent = true ↔
    (∀ b, c ≠ .send b) ∧ ∀ sector page, c ≠ .write sector page := by
  cases c <;> simp [Call.silent]

end Update

end Firmware
