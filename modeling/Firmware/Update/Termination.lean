import Firmware.Update.Bounds

/-!
# Leaving a Connection

Whether the server gets back to `lwip_accept`, and in what condition.

The question is about infinite runs: a run of the thread never ends, and a
connection that is never left is a run that stays in the receive loop for ever.
`Connection` is such a run, seen from the `lwip_accept` that starts it. Every
call is answered in it, so nothing but the thread's own choices keeps it there.

`cleansUp_iff` says exactly when the connection is left. The receive loop has two
ways out: a reply that cannot be sent, and an `EOT` frame. The end of the stream
is not one of them. The header loop treats `0` and negative results as "nothing
yet" and asks again, so a client that disconnects between two frames, or a failed
`lwip_accept`, leaves the thread asking a dead socket for a header while it holds
`update_lock` and the page buffer.

When the connection is left, it is left properly: the lock is released once, the
socket closed once and the page buffer freed. The proof follows the calls. Each of
them belongs to one `Region` of the source, the regions are passed through in
order, and the clean-up is a straight line whose length `Pc.rank` measures.

## Main definitions

* `Region`: The part of the loop body a call stands in.
* `Connection`: An infinite run starting at `lwip_accept`.
* `Connection.CleansUp`: The thread comes back to `lwip_accept` with everything
  released.
* `SendFails`, `EotArrives`: The two ways out of the receive loop.

## Theorems

* `serving_step`: Without either of them a step stays in the receive loop.
* `leaving_of_sendFails`, `leaving_of_eotArrives`: With one of them the next call is behind
  the receive loop.
* `ledger_step`: One release and one close for each connection.
* `cleansUp_iff`: A connection is left exactly when one of the two happens.
* `not_cleansUp_after_disconnect`: A client that disconnects is never left.
-/

namespace Firmware

namespace Update

/-- The part of the loop body of `tcp_update_thread_entry` a call stands in. -/
inductive Region
  | idle
  | setup
  | refusing
  | serving
  | ending
  | leaving
  deriving DecidableEq

/-- `refusing` is the reply to a bad header, `ending` the `EOT` branch, `leaving`
    what follows the label `exit`. -/
def Pc.region : Pc → Region
  | .accept => .idle
  | .mutexTake => .setup
  | .malloc => .setup
  | .headerRecv => .serving
  | .headerNak => .refusing
  | .sohRecv => .serving
  | .sohNak => .serving
  | .sohAck => .serving
  | .stxRecv _ => .serving
  | .stxNak => .serving
  | .stxWrite => .serving
  | .stxAck => .serving
  | .eotWrite => .ending
  | .eotInfo => .ending
  | .eotAck => .ending
  | .cpuReset => .ending
  | .mutexRelease => .leaving
  | .close => .leaving
  | .free => .leaving

/-- How many calls are left until `lwip_accept`, once the receive loop is over. -/
def Pc.rank : Pc → Nat
  | .eotWrite => 7
  | .eotInfo => 6
  | .eotAck => 5
  | .cpuReset => 4
  | .mutexRelease => 3
  | .close => 2
  | .free => 1
  | _ => 0

/-- How often `update_lock` has been released in the current connection. -/
def Pc.released : Pc → Nat
  | .close => 1
  | .free => 1
  | .accept => 1
  | _ => 0

/-- How often the socket has been closed in the current connection. -/
def Pc.shut : Pc → Nat
  | .free => 1
  | .accept => 1
  | _ => 0

/-- A reply is pending and `lwip_send` fails. -/
def SendFails (s : Server) (a : Answer) : Prop :=
  (∃ b, s.call = .send b) ∧ ∃ ret, a = .sent ret ∧ ret < 0

/-- No part of a header has been received and a valid `EOT` header arrives in one
    receive. -/
def EotArrives (s : Server) (a : Answer) : Prop :=
  s.pc = .headerRecv ∧ s.index = 0 ∧
    ∃ y z, a = .received (.data eot [y, z]) ∧ y.toNat + z.toNat = 0xff

theorem region_sohLoop (s : Server) : s.sohLoop.pc.region = .serving := by
  unfold Server.sohLoop
  split
  · split <;> rfl
  · rfl

theorem region_stxDone (s : Server) : s.stxDone.pc.region = .serving := by
  unfold Server.stxDone
  split <;> rfl

theorem region_stxLoop (s : Server) : s.stxLoop.pc.region = .serving := by
  unfold Server.stxLoop
  split
  · split
    · rfl
    · exact region_stxDone _
  · exact region_stxDone _

theorem region_eotStart (s : Server) : s.eotStart.pc.region = .ending := by
  unfold Server.eotStart
  split <;> rfl

theorem region_dispatch (s : Server) (h : s.headerBuf 0 ≠ eot) :
    s.dispatch.pc.region = .serving := by
  unfold Server.dispatch
  split
  · exact region_sohLoop _
  · split
    · exact region_stxLoop _
    · rfl

theorem region_dispatch_eot (s : Server) (h : s.headerBuf 0 = eot) :
    s.dispatch.pc.region = .ending := by
  unfold Server.dispatch
  rw [if_neg (by rw [h]; decide), if_neg (by rw [h]; decide), if_pos h]
  exact region_eotStart s

theorem region_onBlock (s : Server) (ret : Int) : (s.onBlock ret).pc.region = .serving := by
  unfold Server.onBlock
  split
  · exact region_stxLoop s
  · simp only
    split
    · rfl
    · exact region_stxLoop _

theorem region_onOutcome (s : Server) (o : Outcome) : (s.onOutcome o).pc.region = .serving := by
  cases o with
  | running b => rfl
  | returned ret => exact region_onBlock s ret

theorem region_onLength (s : Server) (r : Recv) : (s.onLength r).pc.region = .serving := by
  unfold Server.onLength
  simp only
  split
  · exact region_sohLoop _
  · split
    · rfl
    · exact region_sohLoop _

/-- The receive loop, entered or about to be. A refused header leaves `NAK` in
    front, so the branch behind it takes none of the three arms. -/
def Serving (s : Server) : Prop :=
  s.pc.region = .setup ∨ s.pc.region = .serving ∨ (s.pc.region = .refusing ∧ s.headerBuf 0 = nak)

theorem serving_onSent {s : Server} (ret : Int) (k : Server → Server) (hret : ¬ ret < 0)
    (hk : (k s).pc.region = .serving) : Serving (s.onSent ret k) := by
  unfold Server.onSent
  rw [if_neg hret]
  exact Or.inr (Or.inl hk)

theorem serving_onHeader {s : Server} (r : Recv) (h : s.pc = .headerRecv)
    (hr : r.ret ≤ headerLen - s.index) (he : ¬ EotArrives s (.received r)) :
    Serving (s.onHeader r) := by
  rcases onHeader_cases s r hr with
    ⟨-, hon⟩ | ⟨-, -, hon⟩ | ⟨-, -, -, hon⟩ | ⟨x, y, z, rfl, hz, hsum, hon⟩ <;> rw [hon]
  · exact Or.inr (Or.inl (by rw [h]; rfl))
  · exact Or.inr (Or.inl (by simp only [h]; rfl))
  · exact Or.inr (Or.inr ⟨rfl, rfl⟩)
  · -- An accepted header that is not `EOT`: it is one of the other frames or none.
    refine Or.inr (Or.inl (region_dispatch _ ?_))
    change x ≠ eot
    rintro rfl
    exact he ⟨h, hz, y, z, rfl, hsum⟩

/-- A step that is neither a failed reply nor the arrival of `EOT` stays in the
    receive loop. -/
theorem serving_step (s : Server) (a : Answer) (s' : Server) (hS : Serving s)
    (hsend : ¬ SendFails s a) (heot : ¬ EotArrives s a) (hs : step s a = some s') :
    Serving s' := by
  -- A reply that did not fail returned something non-negative.
  have hok : ∀ ret, a = .sent ret → s.call = .send (s.headerBuf 0) → ¬ ret < 0 :=
    fun ret ha hb hlt => hsend ⟨⟨_, hb⟩, ret, ha, hlt⟩
  cases step_cases hs with
  | accept h fd => exact Or.inl rfl
  | mutexTake h => exact Or.inl rfl
  | malloc h p => exact Or.inr (Or.inl rfl)
  | headerRecv h r hr => exact serving_onHeader r h hr heot
  | headerNak h ret =>
      -- Only a refused header leads here, and its first byte has been written over.
      have hnak : s.headerBuf 0 = nak := by
        rcases hS with hc | hc | hc
        · rw [h] at hc
          exact absurd hc (by decide)
        · rw [h] at hc
          exact absurd hc (by decide)
        · exact hc.2
      refine serving_onSent ret _ (hok ret rfl (by simp only [Server.call, h])) ?_
      exact region_dispatch s (by rw [hnak]; decide)
  | sohRecv h r hr => exact Or.inr (Or.inl (region_onLength s r))
  | sohNak h ret =>
      exact serving_onSent ret _ (hok ret rfl (by simp only [Server.call, h])) (region_sohLoop s)
  | sohAck h ret =>
      exact serving_onSent ret _ (hok ret rfl (by simp only [Server.call, h])) rfl
  | select h hb ret => exact Or.inr (Or.inl (region_onOutcome s _))
  | recvfrom h hb r hr => exact Or.inr (Or.inl (region_onOutcome _ _))
  | stxNak h ret =>
      exact serving_onSent ret _ (hok ret rfl (by simp only [Server.call, h])) (region_stxLoop s)
  | stxWrite h ok => exact Or.inr (Or.inl rfl)
  | stxAck h ret =>
      exact serving_onSent ret _ (hok ret rfl (by simp only [Server.call, h])) rfl
  | eotWrite h ok => simp only [Serving, h, Pc.region, reduceCtorEq, false_and, or_self] at hS
  | eotInfo h ok => simp only [Serving, h, Pc.region, reduceCtorEq, false_and, or_self] at hS
  | eotAck h ret => simp only [Serving, h, Pc.region, reduceCtorEq, false_and, or_self] at hS
  | cpuReset h => simp only [Serving, h, Pc.region, reduceCtorEq, false_and, or_self] at hS
  | mutexRelease h => simp only [Serving, h, Pc.region, reduceCtorEq, false_and, or_self] at hS
  | close h => simp only [Serving, h, Pc.region, reduceCtorEq, false_and, or_self] at hS
  | free h => simp only [Serving, h, Pc.region, reduceCtorEq, false_and, or_self] at hS

/-- Behind the receive loop. -/
def Leaving (s : Server) : Prop := s.pc.region = .ending ∨ s.pc.region = .leaving

theorem leaving_of_sendFails (s : Server) (a : Answer) (s' : Server) (h : SendFails s a)
    (hs : step s a = some s') : Leaving s' := by
  rcases h with ⟨⟨b, hb⟩, ret, rfl, hlt⟩
  cases step_cases hs with
  -- The reply to `EOT` goes on to the reset whatever `lwip_send` returns.
  | eotAck h ret => exact Or.inl rfl
  | _ =>
      refine Or.inr ?_
      simp only [Server.onSent, if_pos hlt]
      rfl

theorem leaving_of_eotArrives (s : Server) (a : Answer) (s' : Server) (h : EotArrives s a)
    (hs : step s a = some s') : Leaving s' := by
  rcases h with ⟨hpc, hz, y, z, rfl, hsum⟩
  cases step_cases hs with
  | headerRecv h r hr =>
      -- Three bytes at once with the right sum leave only the last of the four ways.
      have hret : (Recv.data eot [y, z]).ret = 3 := rfl
      rcases onHeader_cases s _ hr with
        ⟨hc, -⟩ | ⟨-, hc, -⟩ | ⟨-, -, hc, -⟩ | ⟨x, y', z', hd, -, -, hon⟩
      · rw [hret] at hc
        omega
      · rw [hret, hz] at hc
        simp only [headerLen] at hc
        omega
      · rw [hret, hz, Recv.bytes, headerSum_store] at hc
        simp only [hsum, headerLen, decide_true, Bool.true_eq_false, or_false] at hc
        omega
      · cases hd
        rw [hon]
        exact Or.inl (region_dispatch_eot _ rfl)
  -- Receives of payload are not at a header.
  | sohRecv h r hr =>
      rw [hpc] at h
      cases h
  | recvfrom h hb r hr =>
      rw [hpc] at h
      cases h

theorem rank_lt {s s' : Server} {p q : Pc} (h : s.pc = p) (h' : s'.pc = q)
    (hlt : q.rank < p.rank) : s'.pc.rank < s.pc.rank := by
  rw [h, h']
  exact hlt

/-- The clean-up is a straight line down to `lwip_accept`. -/
theorem rank_step (s : Server) (a : Answer) (s' : Server) (hL : Leaving s)
    (hs : step s a = some s') :
    s'.pc = .accept ∨ (Leaving s' ∧ s'.pc.rank < s.pc.rank) := by
  cases step_cases hs with
  | eotWrite h ok => exact Or.inr ⟨Or.inl rfl, rank_lt (q := .eotInfo) h rfl (by decide)⟩
  | eotInfo h ok => exact Or.inr ⟨Or.inl rfl, rank_lt (q := .eotAck) h rfl (by decide)⟩
  | eotAck h ret => exact Or.inr ⟨Or.inl rfl, rank_lt (q := .cpuReset) h rfl (by decide)⟩
  | cpuReset h => exact Or.inr ⟨Or.inr rfl, rank_lt (q := .mutexRelease) h rfl (by decide)⟩
  | mutexRelease h => exact Or.inr ⟨Or.inr rfl, rank_lt (q := .close) h rfl (by decide)⟩
  | close h =>
      cases hd : s.dataBuf with
      | none => exact Or.inl (by simp only [Server.closed, hd]; rfl)
      | some p =>
          have hpc : s.closed.pc = .free := by
            simp only [Server.closed, hd]
            rfl
          exact Or.inr ⟨Or.inr (by rw [hpc]; rfl), rank_lt h hpc (by decide)⟩
  | free h => exact Or.inl rfl
  | accept h _ | mutexTake h | malloc h _ | headerRecv h _ _ | headerNak h _ | sohRecv h _ _
  | sohNak h _ | sohAck h _ | select h _ _ | recvfrom h _ _ _ | stxNak h _ | stxWrite h _
  | stxAck h _ => simp only [Leaving, h, Pc.region, reduceCtorEq, or_self] at hL

/-- A step of the receive loop, or out of it, releases and closes nothing. -/
theorem ledger_zero {s' : Server} (h : s'.pc.region = .setup ∨ s'.pc.region = .serving ∨
    s'.pc.region = .refusing ∨ s'.pc.region = .ending ∨ s'.pc = .mutexRelease) :
    s'.pc.released = 0 ∧ s'.pc.shut = 0 ∧ (s'.pc = .accept → s'.dataBuf = none) := by
  cases hpc : s'.pc <;> simp only [hpc, Pc.region, reduceCtorEq, or_self] at h <;>
    exact ⟨rfl, rfl, fun hc => by cases hc⟩

/-- Whatever the receive loop answers to a header stays in it or starts the `EOT`
    branch. -/
theorem region_onHeader {s : Server} (r : Recv) (h : s.pc = .headerRecv)
    (hr : r.ret ≤ headerLen - s.index) :
    (s.onHeader r).pc.region = .serving ∨ (s.onHeader r).pc.region = .refusing ∨
      (s.onHeader r).pc.region = .ending := by
  rcases onHeader_cases s r hr with
    ⟨-, hon⟩ | ⟨-, -, hon⟩ | ⟨-, -, -, hon⟩ | ⟨x, y, z, rfl, hz, hsum, hon⟩ <;> rw [hon]
  · exact Or.inl (by rw [h]; rfl)
  · exact Or.inl (by simp only [h]; rfl)
  · exact Or.inr (Or.inl rfl)
  · by_cases hx : x = eot
    · exact Or.inr (Or.inr (region_dispatch_eot _ hx))
    · exact Or.inl (region_dispatch _ hx)

theorem ledger_onSent {s : Server} (ret : Int) (k : Server → Server)
    (hk : (k s).pc.region = .serving ∨ (k s).pc.region = .ending) :
    (s.onSent ret k).pc.released = 0 ∧ (s.onSent ret k).pc.shut = 0 ∧
      ((s.onSent ret k).pc = .accept → (s.onSent ret k).dataBuf = none) := by
  refine ledger_zero ?_
  unfold Server.onSent
  split
  · exact Or.inr (Or.inr (Or.inr (Or.inr rfl)))
  · rcases hk with hk | hk
    · exact Or.inr (Or.inl hk)
    · exact Or.inr (Or.inr (Or.inr (Or.inl hk)))

/-- The two tallies of a connection: the release is counted when the thread moves
    on from `rt_mutex_release`, the close when it moves on from `lwip_close`. A
    thread back at `lwip_accept` has no page buffer left. -/
theorem ledger_step (s : Server) (a : Answer) (s' : Server) (hne : s.pc ≠ .accept)
    (hs : step s a = some s') :
    s'.pc.released = s.pc.released + (if s.pc = .mutexRelease then 1 else 0) ∧
    s'.pc.shut = s.pc.shut + (if s.pc = .close then 1 else 0) ∧
    (s'.pc = .accept → s'.dataBuf = none) := by
  -- Every call but the release and the close leaves both counts alone.
  cases step_cases hs with
  | accept h fd => exact absurd h hne
  | mutexTake h => rw [h]; exact ⟨rfl, rfl, fun hc => by cases hc⟩
  | malloc h p => rw [h]; exact ⟨rfl, rfl, fun hc => by cases hc⟩
  | headerRecv h r hr =>
      rw [h]
      refine ledger_zero ?_
      rcases region_onHeader r h hr with hx | hx | hx
      · exact Or.inr (Or.inl hx)
      · exact Or.inr (Or.inr (Or.inl hx))
      · exact Or.inr (Or.inr (Or.inr (Or.inl hx)))
  | headerNak h ret =>
      rw [h]
      refine ledger_onSent ret _ ?_
      -- `dispatch` starts the `EOT` branch or stays in the loop, and neither is counted.
      by_cases hx : s.headerBuf 0 = eot
      · exact Or.inr (region_dispatch_eot s hx)
      · exact Or.inl (region_dispatch s hx)
  | sohRecv h r hr => rw [h]; exact ledger_zero (Or.inr (Or.inl (region_onLength s r)))
  | sohNak h ret => rw [h]; exact ledger_onSent ret _ (Or.inl (region_sohLoop s))
  | sohAck h ret => rw [h]; exact ledger_onSent ret _ (Or.inl rfl)
  | select h hb ret => rw [h]; exact ledger_zero (Or.inr (Or.inl (region_onOutcome s _)))
  | recvfrom h hb r hr => rw [h]; exact ledger_zero (Or.inr (Or.inl (region_onOutcome _ _)))
  | stxNak h ret => rw [h]; exact ledger_onSent ret _ (Or.inl (region_stxLoop s))
  | stxWrite h ok => rw [h]; exact ⟨rfl, rfl, fun hc => by cases hc⟩
  | stxAck h ret => rw [h]; exact ledger_onSent ret _ (Or.inl rfl)
  | eotWrite h ok => rw [h]; exact ⟨rfl, rfl, fun hc => by cases hc⟩
  | eotInfo h ok => rw [h]; exact ⟨rfl, rfl, fun hc => by cases hc⟩
  | eotAck h ret => rw [h]; exact ⟨rfl, rfl, fun hc => by cases hc⟩
  | cpuReset h => rw [h]; exact ⟨rfl, rfl, fun hc => by cases hc⟩
  | mutexRelease h => rw [h]; exact ⟨rfl, rfl, fun hc => by cases hc⟩
  | close h =>
      -- Without a page there is nothing to free, and the next call is `lwip_accept`.
      rw [h]
      cases hd : s.dataBuf with
      | none =>
          simp only [Server.closed, hd]
          exact ⟨rfl, rfl, fun _ => trivial⟩
      | some p =>
          simp only [Server.closed, hd]
          exact ⟨rfl, rfl, fun hc => by cases hc⟩
  | free h => rw [h]; exact ⟨rfl, rfl, fun _ => rfl⟩

/-- An infinite run of the server, seen from the `lwip_accept` that starts a
    connection. -/
structure Connection extends Endless step where
  accepting : (state 0).pc = .accept

namespace Connection

variable (r : Connection)

/-- The calls of the first `n` steps. -/
def pcs (n : Nat) : List Pc := (List.range n).map fun k => (r.state k).pc

/-- The connection lasts beyond its `n`th step. -/
def Within (n : Nat) : Prop := ∀ k, 0 < k → k ≤ n → (r.state k).pc ≠ .accept

/-- After finitely many calls the thread is back at `lwip_accept`, having released
    `update_lock` once, closed the socket once and freed the page buffer. -/
def CleansUp : Prop :=
  ∃ n, 0 < n ∧ (r.state n).pc = .accept ∧ (∀ k, 0 < k → k < n → (r.state k).pc ≠ .accept) ∧
    (r.pcs n).count .mutexRelease = 1 ∧ (r.pcs n).count .close = 1 ∧ (r.state n).dataBuf = none

theorem pcs_succ (n : Nat) : r.pcs (n + 1) = r.pcs n ++ [(r.state n).pc] := by
  simp only [pcs, List.range_succ, List.map_append, List.map_cons, List.map_nil]

/-- The first call after `lwip_accept` takes the lock. -/
theorem state_one : (r.state (0 + 1)).pc = .mutexTake := by
  rcases step_accept r.accepting (r.steps 0) with ⟨fd, -, hs⟩
  rw [hs]

/-- While the connection lasts, the calls made so far have released and closed
    what the current call says they have. -/
theorem ledger (n : Nat) (h : ∀ k, 0 < k → k < n + 1 → (r.state k).pc ≠ .accept) :
    (r.pcs (n + 1)).count .mutexRelease = (r.state (n + 1)).pc.released ∧
    (r.pcs (n + 1)).count .close = (r.state (n + 1)).pc.shut ∧
    ((r.state (n + 1)).pc = .accept → (r.state (n + 1)).dataBuf = none) := by
  induction n with
  | zero =>
      rw [pcs_succ, r.state_one, r.accepting]
      exact ⟨rfl, rfl, fun hc => by cases hc⟩
  | succ n ih =>
      have hne : (r.state (n + 1)).pc ≠ .accept := h (n + 1) (by omega) (by omega)
      rcases ih (fun k hk hlt => h k hk (by omega)) with ⟨hrel, hshut, -⟩
      rcases ledger_step _ _ _ hne (r.steps (n + 1)) with ⟨hr', hs', hd'⟩
      rw [pcs_succ, List.count_append, List.count_append, hrel, hshut, hr', hs']
      simp only [List.count_singleton, beq_iff_eq]
      exact ⟨trivial, trivial, hd'⟩

/-- A connection that is behind its receive loop cleans up. -/
theorem cleansUp_of_leaving (n : Nat) (h : Leaving (r.state n)) : r.CleansUp := by
  -- The clean-up reaches `lwip_accept`; take the first time it is reached.
  have hex : ∃ m, 0 < m ∧ (r.state m).pc = .accept := by
    rcases r.eventually Leaving (fun s => s.pc = .accept) (fun s => s.pc.rank)
      (fun s a s' hL _ hs => rank_step s a s' hL hs) n h with ⟨m, hm, hacc⟩
    refine ⟨m, ?_, hacc⟩
    by_contra h0
    have hz : m = 0 := by omega
    have hn : n = 0 := by omega
    rw [hn] at h
    simp only [Leaving, r.accepting, Pc.region, reduceCtorEq, or_self] at h
  classical
  obtain ⟨hpos, hacc⟩ := Nat.find_spec hex
  have hfirst : ∀ k, 0 < k → k < Nat.find hex → (r.state k).pc ≠ .accept :=
    fun k hk hlt hc => Nat.find_min hex hlt ⟨hk, hc⟩
  rcases Nat.exists_eq_succ_of_ne_zero (by omega : Nat.find hex ≠ 0) with ⟨m, hm⟩
  rw [hm] at hacc hfirst
  rcases r.ledger m hfirst with ⟨hrel, hshut, hbuf⟩
  rw [hacc] at hrel hshut
  exact ⟨m + 1, by omega, hacc, hfirst, hrel, hshut, hbuf hacc⟩

/-- The server gets back to `lwip_accept`, with the lock released once, the socket
    closed once and the page buffer freed, exactly when a reply cannot be sent or
    an `EOT` frame arrives before that. What the socket reports otherwise, the end
    of the stream included, makes no difference. -/
theorem cleansUp_iff : r.CleansUp ↔ ∃ n, r.Within n ∧
    (SendFails (r.state n) (r.answer n) ∨ EotArrives (r.state n) (r.answer n)) := by
  constructor
  · rintro ⟨n, hpos, hacc, hfirst, -⟩
    by_contra hno
    -- Without a way out every state up to the last is in the receive loop.
    have hserve : ∀ k, k + 1 ≤ n → Serving (r.state (k + 1)) := by
      intro k
      induction k with
      | zero =>
          intro _
          exact Or.inl (by rw [r.state_one]; rfl)
      | succ k ih =>
          intro hk
          have hin : r.Within (k + 1) := fun j hj hle => hfirst j hj (by omega)
          have hout : ¬ (SendFails (r.state (k + 1)) (r.answer (k + 1)) ∨
              EotArrives (r.state (k + 1)) (r.answer (k + 1))) := fun hc => hno ⟨k + 1, hin, hc⟩
          exact serving_step _ _ _ (ih (by omega)) (fun hc => hout (Or.inl hc))
            (fun hc => hout (Or.inr hc)) (r.steps (k + 1))
    have hlast := hserve (n - 1) (by omega)
    rw [Nat.sub_add_cancel hpos] at hlast
    simp only [Serving, hacc, Pc.region, reduceCtorEq, false_and, or_self] at hlast
  · rintro ⟨n, -, hsend | heot⟩
    · exact r.cleansUp_of_leaving (n + 1) (leaving_of_sendFails _ _ _ hsend (r.steps n))
    · exact r.cleansUp_of_leaving (n + 1) (leaving_of_eotArrives _ _ _ heot (r.steps n))

end Connection

/-- The header loop on a socket that only reports the end of the stream. -/
def disconnected : Connection where
  state
    | 0 => bootServer
    | 1 => { bootServer with connected := 3, pc := .mutexTake }
    | 2 => { bootServer with connected := 3, pc := .malloc }
    | _ + 3 => { bootServer with connected := 3, dataBuf := some fun _ => 0, pc := .headerRecv }
  answer
    | 0 => .accepted 3
    | 1 => .done
    | 2 => .allocated (some fun _ => 0)
    | _ + 3 => .received .closed
  steps
    | 0 => rfl
    | 1 => rfl
    | 2 => rfl
    | _ + 3 => rfl
  accepting := rfl

/-- A client that sends nothing and disconnects keeps the server for ever. -/
theorem not_cleansUp_after_disconnect : ¬ ∀ r : Connection, Booted (r.state 0) →
    (∃ N, ∀ n, N ≤ n → r.answer n = .received .closed ∨ r.answer n = .received (.error 0)) →
    r.CleansUp := by
  intro h
  have hspin : ∀ n, (disconnected.state (n + 1)).pc ≠ .accept := by
    intro n
    match n with
    | 0 => exact fun hc => by cases hc
    | 1 => exact fun hc => by cases hc
    | _ + 2 => exact fun hc => by cases hc
  have hquiet : ∀ n, 3 ≤ n → disconnected.answer n = .received .closed ∨
      disconnected.answer n = .received (.error 0) := by
    intro n hn
    obtain ⟨k, rfl⟩ : ∃ k, n = k + 3 := ⟨n - 3, by omega⟩
    exact Or.inl rfl
  rcases h disconnected booted_bootServer ⟨3, hquiet⟩ with ⟨n, hpos, hacc, -⟩
  obtain ⟨k, rfl⟩ : ∃ k, n = k + 1 := ⟨n - 1, by omega⟩
  exact hspin k hacc

end Update

end Firmware
