import Firmware.Lib.Runs
import Firmware.Lib.Buffer
import Firmware.Update.Server

/-!
# Receiving a Block

`blocking_lwip_recv` from `applications/update.c` with the integers it really uses,
and the contract its caller relies on.

The server's model of the function computes with unbounded integers. The source
does not: the length is a `size_t`, the progress and the results are `int`, and
their difference is taken and compared as a `size_t`. `LwipRecv` keeps to that. Its
memory is that around the pointer it was given, so that the model can say what
the function does not write to.

A length of more than `INT_MAX` cannot be returned, and such a receive that goes
well ends with a negative value. `blockingLwipRecv_contract` is about the lengths
up to `INT_MAX`, and for those the server's model is right: `run_refines` says that it
goes through the same places.

## Main definitions

* `RecvResult`: A result of `lwip_recvfrom` and the bytes it came with.
* `LwipRecv`: The function while it waits, or behind its end.
* `lwipStep`: From one call to the next.
* `Obeys`: No receive returns more than it was asked for.
* `got`: The bytes that were taken from the stream.
* `Contract`: What the function promises.
* `alternating`: The answers that two infinite sequences of results give.

## Theorems

* `lwipStep_inv`: What the function has done so far, kept by every answer.
* `blockingLwipRecv_contract`: The contract, for every sequence of results.
* `run_refines`: The server's model follows.
* `not_contract_tooLong`: A receive of `2 ^ 31` bytes that goes well.
-/

namespace Firmware

namespace Update

/-- A result of `lwip_recvfrom`: an `int`, and as many bytes if it is positive. -/
structure RecvResult where
  ret : Int32
  bytes : List UInt8
  length : (bytes.length : Int) = max ret.toInt 0

/-- What `lwip_select` and `lwip_recvfrom` return. -/
inductive LwipAnswer where
  | selected (ret : Int32)
  | received (r : RecvResult)

/-- The bytes an answer takes from the stream. -/
def LwipAnswer.bytes : LwipAnswer → List UInt8
  | .selected _ => []
  | .received r => r.bytes

/-- A call failed, or the peer has closed the connection. -/
def LwipAnswer.Fails : LwipAnswer → Prop
  | .selected ret => ret.toInt < 0
  | .received r => r.ret.toInt ≤ 0

/-- The bytes that a sequence of answers takes from the stream. -/
def got (answers : List LwipAnswer) : List UInt8 := answers.flatMap LwipAnswer.bytes

/-- The call `blocking_lwip_recv` waits in, or what it has returned. -/
inductive LwipPc where
  | select
  | recvfrom
  | returned (ret : Int32)
  deriving DecidableEq

/-- The variables of `blocking_lwip_recv`, with the memory around `mem`. -/
structure LwipRecv where
  len : UInt32
  offset : Int32
  pc : LwipPc
  mem : Memory UInt8

/-- Entering the function. -/
def LwipRecv.start (len : UInt32) (mem : Memory UInt8) : LwipRecv := ⟨len, 0, .select, mem⟩

/-- `len - offset`, for which `offset` becomes a `size_t`. -/
def LwipRecv.requested (s : LwipRecv) : UInt32 := s.len - s.offset.toUInt32

/-- The body of the loop, cut at its two calls. -/
def lwipStep (s : LwipRecv) : LwipAnswer → Option LwipRecv
  | .selected ret =>
      if s.pc = .select then
        if ret = 0 then some { s with pc := .returned s.offset }
        else if ret < 0 then some { s with pc := .returned ret }
        else some { s with pc := .recvfrom }
      else none
  | .received r =>
      if s.pc = .recvfrom then
        let s := { s with mem := s.mem.store s.offset.toInt r.bytes }
        if r.ret = 0 then some { s with pc := .returned (-1) }
        else if r.ret < 0 then some { s with pc := .returned r.ret }
        -- The comparison of an `int` with a `size_t` is one of `size_t`s.
        else if r.ret.toUInt32 = s.requested then
          some { s with offset := s.len.toInt32, pc := .returned s.len.toInt32 }
        else some { s with offset := s.offset + r.ret, pc := .select }
      else none

/-- A positive result of `lwip_recvfrom` is at most the requested count. -/
def Obeys (s : LwipRecv) : LwipAnswer → Prop
  | .selected _ => True
  | .received r => r.ret.toInt ≤ s.requested.toNat

instance (s : LwipRecv) : (a : LwipAnswer) → Decidable (Obeys s a)
  | .selected _ => isTrue trivial
  | .received r => inferInstanceAs (Decidable (r.ret.toInt ≤ s.requested.toNat))

/-- What the function promises of the state `s` behind some answers, if it was entered
    with the memory `mem`. -/
structure Contract (len : UInt32) (mem : Memory UInt8) (answers : List LwipAnswer)
    (s : LwipRecv) : Prop where
  outside : ∀ i : Int, i < 0 ∨ (len.toNat : Int) ≤ i → s.mem i = mem i
  filled : ∀ r, s.pc = .returned r → 0 ≤ r.toInt →
    r.toInt ≤ len.toNat ∧ ((got answers).length : Int) = r.toInt ∧
      (∀ j (h : j < (got answers).length), s.mem j = (got answers)[j]) ∧
      (r.toInt < len.toNat → answers.getLast? = some (.selected 0))
  failed : ∀ r, s.pc = .returned r → (r.toInt < 0 ↔ ∃ a ∈ answers, a.Fails)
  returns : (∃ r, s.pc = .returned r) ↔
    (got answers).length = len.toNat ∨ ∃ a ∈ answers, a = .selected 0 ∨ a.Fails

/-- The loop calls `lwip_select` and `lwip_recvfrom` in turn. -/
def alternating (selects : Nat → Int32) (receives : Nat → RecvResult) (n : Nat) : LwipAnswer :=
  if n % 2 = 0 then .selected (selects (n / 2)) else .received (receives (n / 2))

theorem got_append (as bs : List LwipAnswer) : got (as ++ bs) = got as ++ got bs :=
  List.flatMap_append

theorem got_singleton (a : LwipAnswer) : got [a] = a.bytes := by
  simp only [got, List.flatMap_cons, List.flatMap_nil, List.append_nil]

/-- A result that is not positive comes without bytes. -/
theorem RecvResult.bytes_nil {r : RecvResult} (h : r.ret.toInt ≤ 0) : r.bytes = [] := by
  have hlen := r.length
  exact List.eq_nil_of_length_eq_zero (by omega)

theorem RecvResult.bytes_length {r : RecvResult} (h : 0 < r.ret.toInt) :
    (r.bytes.length : Int) = r.ret.toInt := by
  have hlen := r.length
  omega

/-- An `int` that is not negative does not change when it becomes a `size_t`. -/
theorem toNat_toUInt32 {x : Int32} (h : 0 ≤ x.toInt) : (x.toUInt32.toNat : Int) = x.toInt := by
  have hle : 0 ≤ x := Int32.le_iff_toInt_le.mpr h
  rw [Int32.toNat_toUInt32_of_le hle]
  exact Int.toNat_of_nonneg h

/-- Nor does a `size_t` below `2 ^ 31` when it becomes an `int`. -/
theorem toInt_toInt32 {x : UInt32} (h : x.toNat < 2 ^ 31) : x.toInt32.toInt = x.toNat :=
  BitVec.toInt_eq_toNat_of_lt (by simpa using (by omega : 2 * x.toNat < 2 ^ 32))

theorem toInt_add_of_lt {x y : Int32} (hx : 0 ≤ x.toInt) (hy : 0 ≤ y.toInt)
    (h : x.toInt + y.toInt < 2 ^ 31) : (x + y).toInt = x.toInt + y.toInt := by
  rw [Int32.toInt_add]
  exact Int.bmod_eq_of_le (by omega) (by omega)

theorem eq_zero_iff {x : Int32} : x = 0 ↔ x.toInt = 0 := by
  rw [← Int32.toInt_inj, Int32.toInt_zero]

theorem lt_zero_iff {x : Int32} : x < 0 ↔ x.toInt < 0 := by
  rw [Int32.lt_iff_toInt_lt, Int32.toInt_zero]

/-- The three ways on from `lwip_select`. -/
theorem lwipStep_selected {s s' : LwipRecv} {ret : Int32}
    (h : lwipStep s (.selected ret) = some s') : s.pc = .select ∧
      ((ret = 0 ∧ s' = { s with pc := .returned s.offset }) ∨
      (ret.toInt < 0 ∧ s' = { s with pc := .returned ret }) ∨
      (0 < ret.toInt ∧ s' = { s with pc := .recvfrom })) := by
  simp only [lwipStep] at h
  split at h
  · rename_i hpc
    refine ⟨hpc, ?_⟩
    split at h
    · rename_i hz
      exact .inl ⟨hz, (Option.some.inj h).symm⟩
    · rename_i hz
      rw [eq_zero_iff] at hz
      split at h
      · rename_i hn
        exact .inr (.inl ⟨lt_zero_iff.mp hn, (Option.some.inj h).symm⟩)
      · rename_i hn
        rw [lt_zero_iff] at hn
        exact .inr (.inr ⟨by omega, (Option.some.inj h).symm⟩)
  · cases h

/-- A receive of the requested count is the last one. -/
theorem lwipStep_full {s : LwipRecv} {r : RecvResult} (hpc : s.pc = .recvfrom)
    (hpos : 0 < r.ret.toInt) (hfull : r.ret.toUInt32 = s.requested) :
    lwipStep s (.received r) = some { s with
      offset := s.len.toInt32
      pc := .returned s.len.toInt32
      mem := s.mem.store s.offset.toInt r.bytes } := by
  have hz : ¬ r.ret = 0 := by rw [eq_zero_iff]; omega
  have hn : ¬ r.ret < 0 := by rw [lt_zero_iff]; omega
  rw [lwipStep, if_pos hpc, if_neg hz, if_neg hn]
  exact if_pos hfull

/-- Behind any other receive that goes well the loop goes on. -/
theorem lwipStep_part {s : LwipRecv} {r : RecvResult} (hpc : s.pc = .recvfrom)
    (hpos : 0 < r.ret.toInt) (hpart : r.ret.toUInt32 ≠ s.requested) :
    lwipStep s (.received r) = some { s with
      offset := s.offset + r.ret
      pc := .select
      mem := s.mem.store s.offset.toInt r.bytes } := by
  have hz : ¬ r.ret = 0 := by rw [eq_zero_iff]; omega
  have hn : ¬ r.ret < 0 := by rw [lt_zero_iff]; omega
  rw [lwipStep, if_pos hpc, if_neg hz, if_neg hn]
  exact if_neg hpart

/-- The end of the stream and an error are returned. -/
theorem lwipStep_error {s : LwipRecv} {r : RecvResult} (hpc : s.pc = .recvfrom)
    (hret : r.ret.toInt ≤ 0) : lwipStep s (.received r) =
      some { s with pc := .returned (if r.ret = 0 then -1 else r.ret) } := by
  rw [lwipStep, if_pos hpc, RecvResult.bytes_nil hret, Memory.store_nil]
  by_cases hz : r.ret = 0
  · rw [if_pos hz, if_pos hz]
  · have hn : r.ret < 0 := by
      rw [eq_zero_iff] at hz
      rw [lt_zero_iff]
      omega
    rw [if_neg hz, if_pos hn, if_neg hz]

theorem returned_neg {x : Int32} (h : x.toInt ≤ 0) : (if x = 0 then -1 else x).toInt < 0 := by
  split
  · decide
  · rename_i hz
    rw [eq_zero_iff] at hz
    omega

/-- An answer to `lwip_recvfrom` comes while the function waits for it. -/
theorem pc_of_received {s s' : LwipRecv} {r : RecvResult}
    (h : lwipStep s (.received r) = some s') : s.pc = .recvfrom := by
  by_contra hpc
  rw [lwipStep, if_neg hpc] at h
  cases h

/-- The answer ends the loop: a time-out, a failure or the end of the stream. -/
def LwipAnswer.Stops (a : LwipAnswer) : Prop := a = .selected 0 ∨ a.Fails

/-- The function is in its loop: it is as far as the bytes it was given, and no answer
    has stopped it. -/
structure InLoop (len : UInt32) (answers : List LwipAnswer) (s : LwipRecv) : Prop where
  offset : s.offset.toInt = (got answers).length
  part : (got answers).length < len.toNat
  calm : ∀ a ∈ answers, ¬ a.Stops

/-- Where the function is after its answers, and why. -/
inductive Progress (len : UInt32) (answers : List LwipAnswer) (s : LwipRecv) : Prop where
  | selecting (hpc : s.pc = .select) (hloop : InLoop len answers s)
      (htime : answers.length ≤ 2 * (got answers).length)
  | receiving (hpc : s.pc = .recvfrom) (hloop : InLoop len answers s)
      (htime : answers.length ≤ 2 * (got answers).length + 1)
  | timedOut (r : Int32) (hpc : s.pc = .returned r) (hr : r.toInt = (got answers).length)
      (hpart : (got answers).length < len.toNat)
      (hlast : answers.getLast? = some (.selected 0)) (hcalm : ∀ a ∈ answers, ¬ a.Fails)
  | complete (r : Int32) (hpc : s.pc = .returned r) (hr : r.toInt = (got answers).length)
      (hfull : (got answers).length = len.toNat) (hcalm : ∀ a ∈ answers, ¬ a.Fails)
  | broken (r : Int32) (hpc : s.pc = .returned r) (hr : r.toInt < 0)
      (hfails : ∃ a ∈ answers, a.Fails)

/-- What the function has done after its answers. -/
structure LwipInv (len : UInt32) (mem : Memory UInt8) (answers : List LwipAnswer)
    (s : LwipRecv) : Prop where
  kept : s.len = len
  stored : s.mem = mem.store 0 (got answers)
  fits : (got answers).length ≤ len.toNat
  progress : Progress len answers s

theorem lwipInv_start {len : UInt32} (h1 : 1 ≤ len.toNat) (mem : Memory UInt8) :
    LwipInv len mem [] (.start len mem) where
  kept := rfl
  stored := (Memory.store_nil mem 0).symm
  fits := Nat.zero_le _
  progress := .selecting rfl ⟨rfl, h1, nofun⟩ (Nat.zero_le _)

section Proofs

variable {len : UInt32} {mem : Memory UInt8} {answers : List LwipAnswer} {s s' : LwipRecv}

/-- An answer that does not stop the loop. -/
theorem calm_append {P : LwipAnswer → Prop} {a : LwipAnswer} (h : ∀ b ∈ answers, ¬ P b)
    (ha : ¬ P a) : ∀ b ∈ answers ++ [a], ¬ P b := by
  intro b hb
  rcases List.mem_append.mp hb with hb | hb
  · exact h b hb
  · rw [List.mem_singleton.mp hb]
    exact ha

theorem InLoop.toNat_requested (h : InLoop len answers s) (hlen : s.len = len) :
    s.requested.toNat = len.toNat - (got answers).length := by
  -- The offset is not negative, so that making it a `size_t` keeps its value.
  have hoff : (s.offset.toUInt32.toNat : Int) = (got answers).length := by
    rw [toNat_toUInt32 (by rw [h.offset]; omega), h.offset]
  have hpart := h.part
  rw [LwipRecv.requested, hlen, UInt32.toNat_sub_of_le]
  · omega
  · rw [UInt32.le_iff_toNat_le]
    omega

/-- In the loop the result is the requested count exactly if it completes the bytes. -/
theorem InLoop.full_iff (h : InLoop len answers s) (hlen : s.len = len) {r : RecvResult}
    (hr : 0 < r.ret.toInt) : r.ret.toUInt32 = s.requested ↔
      (got answers).length + r.bytes.length = len.toNat := by
  have hcount : (r.ret.toUInt32.toNat : Int) = r.bytes.length := by
    rw [toNat_toUInt32 (by omega), RecvResult.bytes_length hr]
  have hreq := h.toNat_requested hlen
  have hpart := h.part
  rw [← UInt32.toNat_inj]
  omega

theorem got_quiet {a : LwipAnswer} (ha : a.bytes = []) : got (answers ++ [a]) = got answers := by
  rw [got_append, got_singleton, ha, List.append_nil]

/-- An answer without bytes changes nothing but the place. -/
theorem LwipInv.quiet {a : LwipAnswer} (hi : LwipInv len mem answers s) (ha : a.bytes = [])
    (hlen : s'.len = s.len) (hmem : s'.mem = s.mem) (hp : Progress len (answers ++ [a]) s') :
    LwipInv len mem (answers ++ [a]) s' where
  kept := hlen.trans hi.kept
  stored := by rw [hmem, got_quiet ha, hi.stored]
  fits := by rw [got_quiet ha]; exact hi.fits
  progress := hp

/-- The loop waits in `lwip_select`. -/
theorem LwipInv.selecting (hi : LwipInv len mem answers s) (hpc : s.pc = .select) :
    InLoop len answers s ∧ answers.length ≤ 2 * (got answers).length := by
  cases hi.progress with
  | selecting _ hloop htime => exact ⟨hloop, htime⟩
  | receiving hpc' => simp [hpc] at hpc'
  | timedOut r hpc' => simp [hpc] at hpc'
  | complete r hpc' => simp [hpc] at hpc'
  | broken r hpc' => simp [hpc] at hpc'

/-- The loop waits in `lwip_recvfrom`. -/
theorem LwipInv.receiving (hi : LwipInv len mem answers s) (hpc : s.pc = .recvfrom) :
    InLoop len answers s ∧ answers.length ≤ 2 * (got answers).length + 1 := by
  cases hi.progress with
  | selecting hpc' => simp [hpc] at hpc'
  | receiving _ hloop htime => exact ⟨hloop, htime⟩
  | timedOut r hpc' => simp [hpc] at hpc'
  | complete r hpc' => simp [hpc] at hpc'
  | broken r hpc' => simp [hpc] at hpc'

theorem lwipStep_inv_selected {ret : Int32} (hi : LwipInv len mem answers s)
    (h : lwipStep s (.selected ret) = some s') :
    LwipInv len mem (answers ++ [.selected ret]) s' := by
  have hgot : got (answers ++ [.selected ret]) = got answers := got_quiet rfl
  rcases lwipStep_selected h with ⟨hpc, hs'⟩
  rcases hi.selecting hpc with ⟨hloop, htime⟩
  -- A time-out, a failure, and a socket with something to read.
  rcases hs' with ⟨rfl, rfl⟩ | ⟨hneg, rfl⟩ | ⟨hpos, rfl⟩
  · -- On a time-out the function returns what it has, which may be nothing.
    refine hi.quiet rfl rfl rfl (.timedOut s.offset rfl ?_ ?_ (by simp) ?_)
    · rw [hgot, hloop.offset]
    · rw [hgot]
      exact hloop.part
    · exact calm_append (fun a ha hf => hloop.calm a ha (.inr hf)) (by simp [LwipAnswer.Fails])
  · refine hi.quiet rfl rfl rfl (.broken ret rfl hneg ?_)
    exact ⟨_, List.mem_append_right _ List.mem_cons_self, hneg⟩
  · refine hi.quiet rfl rfl rfl (.receiving rfl ⟨?_, ?_, calm_append hloop.calm ?_⟩ ?_)
    · rw [hgot, hloop.offset]
    · rw [hgot]
      exact hloop.part
    · rintro (heq | hf)
      · cases heq
        simp at hpos
      · simp only [LwipAnswer.Fails] at hf
        omega
    · rw [hgot, List.length_append, List.length_singleton]
      omega

/-- The bytes of a receive that went well go behind those that are there. -/
theorem InLoop.stored (h : InLoop len answers s) (hm : s.mem = mem.store 0 (got answers))
    (r : RecvResult) : s.mem.store s.offset.toInt r.bytes =
      mem.store 0 (got (answers ++ [.received r])) := by
  have hback := Memory.store_append mem 0 (got answers) r.bytes
  rw [Int.zero_add] at hback
  rw [hm, h.offset, hback, got_append, got_singleton]
  rfl

theorem lwipStep_inv_received (hlt : len.toNat < 2 ^ 31) {r : RecvResult}
    (hi : LwipInv len mem answers s) (ho : Obeys s (.received r))
    (h : lwipStep s (.received r) = some s') :
    LwipInv len mem (answers ++ [.received r]) s' := by
  have hpc := pc_of_received h
  rcases hi.receiving hpc with ⟨hloop, htime⟩
  have hpart := hloop.part
  have hreq := hloop.toNat_requested hi.kept
  simp only [Obeys] at ho
  have hgot : (got (answers ++ [.received r])).length = (got answers).length + r.bytes.length := by
    rw [got_append, got_singleton, List.length_append]
    rfl
  by_cases hpos : 0 < r.ret.toInt
  · have hcalm : ¬ (LwipAnswer.received r).Fails := by
      simp only [LwipAnswer.Fails]
      omega
    by_cases hfull : r.ret.toUInt32 = s.requested
    · -- The whole length fits an `int`, so that it is returned as it is.
      have hcount := (hloop.full_iff hi.kept hpos).mp hfull
      cases (lwipStep_full hpc hpos hfull).symm.trans h
      refine ⟨hi.kept, hloop.stored hi.stored r, by omega, .complete _ rfl ?_ (by omega) ?_⟩
      · rw [hi.kept, toInt_toInt32 hlt]
        omega
      · exact calm_append (fun a ha hf => hloop.calm a ha (.inr hf)) hcalm
    · -- The result is at most the requested count and not equal to it.
      have hbytes := RecvResult.bytes_length hpos
      have hcount : (got answers).length + r.bytes.length ≠ len.toNat :=
        fun heq => hfull ((hloop.full_iff hi.kept hpos).mpr heq)
      cases (lwipStep_part hpc hpos hfull).symm.trans h
      refine ⟨hi.kept, hloop.stored hi.stored r, by omega, .selecting rfl ⟨?_, by omega, ?_⟩ ?_⟩
      · have hoff := hloop.offset
        simp only
        rw [toInt_add_of_lt (by omega) (by omega) (by omega)]
        omega
      · refine calm_append hloop.calm ?_
        rintro (heq | hf)
        · cases heq
        · exact hcalm hf
      · rw [List.length_append, List.length_singleton]
        omega
  · have hret : r.ret.toInt ≤ 0 := by omega
    cases (lwipStep_error hpc hret).symm.trans h
    refine hi.quiet (RecvResult.bytes_nil hret) rfl rfl (.broken _ rfl (returned_neg hret) ?_)
    exact ⟨_, List.mem_append_right _ List.mem_cons_self, hret⟩

/-- Every answer keeps the invariant. -/
theorem lwipStep_inv (hlt : len.toNat < 2 ^ 31) (a : LwipAnswer)
    (hi : LwipInv len mem answers s) (ho : Obeys s a) (h : lwipStep s a = some s') :
    LwipInv len mem (answers ++ [a]) s' := by
  cases a with
  | selected ret => exact lwipStep_inv_selected hi h
  | received r => exact lwipStep_inv_received hlt hi ho h

/-- So it holds behind any answers. -/
theorem run_lwipInv (h1 : 1 ≤ len.toNat) (hlt : len.toNat < 2 ^ 31)
    (ho : Along lwipStep Obeys (.start len mem) answers)
    (h : run lwipStep (.start len mem) answers = some s) : LwipInv len mem answers s :=
  run_history lwipStep Obeys (LwipInv len mem)
    (fun _ _ a _ hi ho h => lwipStep_inv hlt a hi ho h) (lwipInv_start h1 mem) ho h

/-- Nothing that ends the function has happened in its loop. -/
theorem InLoop.not_over (h : InLoop len answers s) :
    ¬ ((got answers).length = len.toNat ∨ ∃ a ∈ answers, a = .selected 0 ∨ a.Fails) := by
  rintro (hfull | ⟨a, ha, hstop⟩)
  · have hpart := h.part
    omega
  · exact h.calm a ha hstop

/-- The function has returned how much it got, or a failure. -/
theorem LwipInv.returned {r : Int32} (hi : LwipInv len mem answers s) (hpc : s.pc = .returned r) :
    (r.toInt = (got answers).length ∧ (∀ a ∈ answers, ¬ a.Fails) ∧
      (r.toInt < len.toNat → answers.getLast? = some (.selected 0))) ∨
    r.toInt < 0 ∧ ∃ a ∈ answers, a.Fails := by
  cases hi.progress with
  | selecting hpc' => simp [hpc] at hpc'
  | receiving hpc' => simp [hpc] at hpc'
  | timedOut r' hpc' hr hpart hlast hcalm =>
      cases hpc.symm.trans hpc'
      exact .inl ⟨hr, hcalm, fun _ => hlast⟩
  | complete r' hpc' hr hfull hcalm =>
      cases hpc.symm.trans hpc'
      exact .inl ⟨hr, hcalm, fun hlt => by omega⟩
  | broken r' hpc' hr hfails =>
      cases hpc.symm.trans hpc'
      exact .inr ⟨hr, hfails⟩

/-- What the function got is where it should be. -/
theorem LwipInv.holds (hi : LwipInv len mem answers s) (j : Nat)
    (h : j < (got answers).length) : s.mem j = (got answers)[j] := by
  have hin := Memory.store_inside mem 0 (got answers) h
  rw [Int.zero_add] at hin
  rw [hi.stored, hin]

theorem LwipInv.contract (hi : LwipInv len mem answers s) : Contract len mem answers s where
  outside := by
    intro i h
    -- All that was ever stored are the bytes it got, and these are at most `len`.
    have hfits := hi.fits
    rw [hi.stored]
    exact Memory.store_outside mem 0 _ (by omega)
  filled := by
    intro r hpc hr
    have hfits := hi.fits
    rcases hi.returned hpc with ⟨hlen, -, hlast⟩ | ⟨hneg, -⟩
    · exact ⟨by omega, by omega, hi.holds, hlast⟩
    · omega
  failed := by
    intro r hpc
    rcases hi.returned hpc with ⟨hlen, hcalm, -⟩ | ⟨hneg, hfails⟩
    · refine iff_of_false (by omega) ?_
      rintro ⟨a, ha, hf⟩
      exact hcalm a ha hf
    · exact iff_of_true hneg hfails
  returns := by
    cases hi.progress with
    | selecting hpc hloop => exact iff_of_false (by simp [hpc]) hloop.not_over
    | receiving hpc hloop => exact iff_of_false (by simp [hpc]) hloop.not_over
    | timedOut r hpc hr hpart hlast =>
        exact iff_of_true ⟨r, hpc⟩ (.inr ⟨_, List.mem_of_getLast? hlast, .inl rfl⟩)
    | complete r hpc hr hfull => exact iff_of_true ⟨r, hpc⟩ (.inl hfull)
    | broken r hpc hr hfails =>
        rcases hfails with ⟨a, ha, hf⟩
        exact iff_of_true ⟨r, hpc⟩ (.inr ⟨a, ha, .inr hf⟩)

/-- The function goes on with every result of the call it waits in. -/
theorem lwipStep_isSome_select (hpc : s.pc = .select) (ret : Int32) :
    ∃ s', lwipStep s (.selected ret) = some s' ∧
      ((∃ r, s'.pc = .returned r) ∨ s'.pc = .recvfrom) := by
  simp only [lwipStep, if_pos hpc]
  split
  · exact ⟨_, rfl, .inl ⟨_, rfl⟩⟩
  · split
    · exact ⟨_, rfl, .inl ⟨_, rfl⟩⟩
    · exact ⟨_, rfl, .inr rfl⟩

theorem lwipStep_isSome_recvfrom (hpc : s.pc = .recvfrom) (r : RecvResult) :
    ∃ s', lwipStep s (.received r) = some s' ∧
      ((∃ e, s'.pc = .returned e) ∨ s'.pc = .select) := by
  by_cases hpos : 0 < r.ret.toInt
  · by_cases hfull : r.ret.toUInt32 = s.requested
    · exact ⟨_, lwipStep_full hpc hpos hfull, .inl ⟨_, rfl⟩⟩
    · exact ⟨_, lwipStep_part hpc hpos hfull, .inr rfl⟩
  · exact ⟨_, lwipStep_error hpc (by omega), .inl ⟨_, rfl⟩⟩

/-- Two infinite sequences of results keep the function going until it returns. -/
theorem run_alternating (selects : Nat → Int32) (receives : Nat → RecvResult) (n : Nat) :
    (∃ m ≤ n, ∃ t r, run lwipStep (.start len mem)
      (firstAnswers (alternating selects receives) m) = some t ∧ t.pc = .returned r) ∨
    ∃ t, run lwipStep (.start len mem) (firstAnswers (alternating selects receives) n) =
      some t ∧ t.pc = if n % 2 = 0 then .select else .recvfrom := by
  induction n with
  | zero => exact .inr ⟨_, rfl, rfl⟩
  | succ n ih =>
      rcases ih with ⟨m, hm, h⟩ | ⟨t, ht, hpc⟩
      · exact .inl ⟨m, by omega, h⟩
      · -- One more answer, of the kind that the function waits for.
        have hnext : ∃ t', lwipStep t (alternating selects receives n) = some t' ∧
            ((∃ r, t'.pc = .returned r) ∨
              t'.pc = if (n + 1) % 2 = 0 then .select else .recvfrom) := by
          rcases Nat.mod_two_eq_zero_or_one n with h0 | h1
          · rw [if_pos h0] at hpc
            rw [alternating, if_pos h0, if_neg (by omega)]
            exact lwipStep_isSome_select hpc _
          · rw [if_neg (by omega)] at hpc
            rw [alternating, if_neg (by omega), if_pos (by omega)]
            exact lwipStep_isSome_recvfrom hpc _
        rcases hnext with ⟨t', hs, hpc'⟩
        have hrun : run lwipStep (.start len mem)
            (firstAnswers (alternating selects receives) (n + 1)) = some t' := by
          rw [firstAnswers_snoc, run_append lwipStep ht, run_cons lwipStep hs, run_nil]
        rcases hpc' with ⟨r, hr⟩ | hpc'
        · exact .inl ⟨n + 1, le_rfl, t', r, hrun, hr⟩
        · exact .inr ⟨t', hrun, hpc'⟩

/-- For every length up to `INT_MAX`, the contract holds after any results that are no
    larger than what was asked for; and with infinitely many of them the function
    returns, after at most `len` turns of its loop. -/
theorem blockingLwipRecv_contract (h1 : 1 ≤ len.toNat) (hlt : len.toNat < 2 ^ 31)
    (mem : Memory UInt8) :
    (∀ answers s, Along lwipStep Obeys (.start len mem) answers →
      run lwipStep (.start len mem) answers = some s → Contract len mem answers s) ∧
    ∀ selects receives,
      (∀ n, Along lwipStep Obeys (.start len mem)
        (firstAnswers (alternating selects receives) n)) →
      ∃ n ≤ 2 * len.toNat, ∃ t r, run lwipStep (.start len mem)
        (firstAnswers (alternating selects receives) n) = some t ∧ t.pc = .returned r := by
  refine ⟨fun answers s ho h => (run_lwipInv h1 hlt ho h).contract, ?_⟩
  intro selects receives ho
  rcases run_alternating selects receives (2 * len.toNat) with hret | ⟨t, ht, hpc⟩
  · exact hret
  · -- The loop would have taken more bytes than it waits for.
    rw [if_pos (by omega)] at hpc
    rcases (run_lwipInv h1 hlt (ho _) ht).selecting hpc with ⟨hloop, htime⟩
    have hpart := hloop.part
    rw [firstAnswers_length] at htime
    omega

end Proofs

section Refinement

/-- A result as the server's model knows it. -/
def RecvResult.toRecv (r : RecvResult) : Recv :=
  match r.bytes with
  | b :: bs => .data b bs
  | [] => if r.ret.toInt = 0 then .closed else .error (-r.ret.toInt - 1).toNat

/-- The place in the function as the server's model knows it; `base` is the offset of
    `mem` in the caller's buffer. -/
def LwipRecv.outcome (base : Int) (s : LwipRecv) : Outcome :=
  match s.pc with
  | .select => .running ⟨base, s.len.toNat, s.offset.toInt, .select⟩
  | .recvfrom => .running ⟨base, s.len.toNat, s.offset.toInt, .recvfrom⟩
  | .returned r => .returned r.toInt

/-- `blocking_lwip_recv` in the server's model. -/
def outcomeStep : Outcome → LwipAnswer → Option Outcome
  | .running b, .selected ret => if b.pc = .select then some (b.onSelect ret.toInt) else none
  | .running b, .received r => if b.pc = .recvfrom then some (b.onRecvfrom r.toRecv) else none
  | .returned _, _ => none

variable {len : UInt32} {mem : Memory UInt8} {answers : List LwipAnswer} {s s' : LwipRecv}

theorem RecvResult.ret_toRecv (r : RecvResult) : r.toRecv.ret = r.ret.toInt := by
  have hlen := r.length
  unfold RecvResult.toRecv
  split
  · rename_i b bs hb
    rw [Recv.ret_data]
    rw [hb, List.length_cons] at hlen
    rw [List.length_cons]
    omega
  · rename_i hb
    rw [hb, List.length_nil] at hlen
    split
    · rename_i hz
      exact hz.symm
    · rename_i hz
      simp only [Recv.ret]
      omega

theorem lwipStep_refines_selected {ret : Int32} (base : Int)
    (h : lwipStep s (.selected ret) = some s') :
    outcomeStep (s.outcome base) (.selected ret) = some (s'.outcome base) := by
  rcases lwipStep_selected h with ⟨hpc, ⟨rfl, rfl⟩ | ⟨hneg, rfl⟩ | ⟨hpos, rfl⟩⟩
  · simp [LwipRecv.outcome, hpc, outcomeStep, BlockingRecv.onSelect]
  · have hz : ret.toInt ≠ 0 := by omega
    simp [LwipRecv.outcome, hpc, outcomeStep, BlockingRecv.onSelect, hneg, hz]
  · have hz : ret.toInt ≠ 0 := by omega
    have hn : ¬ ret.toInt < 0 := by omega
    simp [LwipRecv.outcome, hpc, outcomeStep, BlockingRecv.onSelect, hn, hz]

/-- Up to `INT_MAX` the difference of a `size_t` and an `int` is that of two numbers. -/
theorem lwipStep_refines_received (hlt : len.toNat < 2 ^ 31) {r : RecvResult} (base : Int)
    (hi : LwipInv len mem answers s) (ho : Obeys s (.received r))
    (h : lwipStep s (.received r) = some s') :
    outcomeStep (s.outcome base) (.received r) = some (s'.outcome base) := by
  have hpc := pc_of_received h
  rcases hi.receiving hpc with ⟨hloop, -⟩
  have hoff := hloop.offset
  have hpart := hloop.part
  have hreq := hloop.toNat_requested hi.kept
  simp only [Obeys] at ho
  by_cases hpos : 0 < r.ret.toInt
  · have hz : r.ret.toInt ≠ 0 := by omega
    have hn : ¬ r.ret.toInt < 0 := by omega
    have hbytes := RecvResult.bytes_length hpos
    by_cases hfull : r.ret.toUInt32 = s.requested
    · have hcount := (hloop.full_iff hi.kept hpos).mp hfull
      -- The two comparisons agree because neither side has wrapped.
      have heq : r.ret.toInt = len.toNat - s.offset.toInt := by omega
      cases (lwipStep_full hpc hpos hfull).symm.trans h
      simp only [LwipRecv.outcome, hpc, outcomeStep, BlockingRecv.onRecvfrom, r.ret_toRecv,
        hi.kept, toInt_toInt32 hlt, if_true, if_neg hz, if_neg hn, if_pos heq]
    · have hcount : (got answers).length + r.bytes.length ≠ len.toNat :=
        fun heq => hfull ((hloop.full_iff hi.kept hpos).mpr heq)
      have hne : ¬ r.ret.toInt = len.toNat - s.offset.toInt := by omega
      cases (lwipStep_part hpc hpos hfull).symm.trans h
      have hadd : (s.offset + r.ret).toInt = s.offset.toInt + r.ret.toInt :=
        toInt_add_of_lt (by omega) (by omega) (by omega)
      simp only [LwipRecv.outcome, hpc, outcomeStep, BlockingRecv.onRecvfrom, r.ret_toRecv,
        hi.kept, hadd, if_true, if_neg hz, if_neg hn, if_neg hne]
  · cases (lwipStep_error hpc (by omega)).symm.trans h
    by_cases hz : r.ret = 0
    · simp [LwipRecv.outcome, hpc, outcomeStep, BlockingRecv.onRecvfrom, r.ret_toRecv, hz]
    · have hz' : r.ret.toInt ≠ 0 := fun h0 => hz (eq_zero_iff.mpr h0)
      have hn : r.ret.toInt < 0 := by omega
      simp [LwipRecv.outcome, hpc, outcomeStep, BlockingRecv.onRecvfrom, r.ret_toRecv, hz, hz', hn]

/-- For the lengths up to `INT_MAX` the server's model of the function goes through the
    same places with every sequence of results. -/
theorem run_refines (h1 : 1 ≤ len.toNat) (hlt : len.toNat < 2 ^ 31) (base : Int)
    (ho : Along lwipStep Obeys (.start len mem) answers)
    (h : run lwipStep (.start len mem) answers = some s) :
    run outcomeStep (.running (blockingLwipRecv base len.toNat)) answers =
      some (s.outcome base) := by
  -- Both models consume the same answers, so the invariant carries the second run along.
  have hinv := run_history lwipStep Obeys
    (fun as s => LwipInv len mem as s ∧
      run outcomeStep (.running (blockingLwipRecv base len.toNat)) as = some (s.outcome base))
    ?_ ⟨lwipInv_start h1 mem, rfl⟩ ho h
  · exact hinv.2
  · rintro as s a s' ⟨hi, hrun⟩ ho h
    refine ⟨lwipStep_inv hlt a hi ho h, ?_⟩
    have hnext : outcomeStep (s.outcome base) a = some (s'.outcome base) := by
      cases a with
      | selected ret => exact lwipStep_refines_selected base h
      | received r => exact lwipStep_refines_received hlt base hi ho h
    rw [run_append outcomeStep hrun, run_cons outcomeStep hnext, run_nil]

end Refinement

/-- A receive of `n` zeros, if `n` is not negative. -/
def zeros (n : Int32) : RecvResult where
  ret := n
  bytes := List.replicate n.toInt.toNat 0
  length := by rw [List.length_replicate]; omega

/-- Three bytes in two pieces. -/
theorem blockingLwipRecv_contract_twoPieces :
    ∃ s, run lwipStep (.start 3 fun _ => 0xff)
        [.selected 1, .received (zeros 1), .selected 1, .received (zeros 2)] = some s ∧
      s.pc = .returned 3 ∧ (List.range 4).map (fun i => s.mem i) = [0, 0, 0, 0xff] ∧
      Contract 3 (fun _ => 0xff)
        [.selected 1, .received (zeros 1), .selected 1, .received (zeros 2)] s := by
  refine ⟨_, rfl, by decide, by decide, ?_⟩
  exact (blockingLwipRecv_contract (by decide) (by decide) _).1 _ _ (by decide) rfl

/-- One byte more than `INT_MAX`, in two pieces. No call fails and every byte arrives,
    but the length is negative as an `int`. -/
theorem not_contract_tooLong : ∃ answers s,
    Along lwipStep Obeys (.start 0x80000000 fun _ => 0) answers ∧
      run lwipStep (.start 0x80000000 fun _ => 0) answers = some s ∧
      (∀ a ∈ answers, ¬ a.Stops) ∧ (got answers).length = 0x80000000 ∧
      (∃ r, s.pc = .returned r ∧ r.toInt = -0x80000000) ∧
      ¬ Contract 0x80000000 (fun _ => 0) answers s := by
  -- All that matters of the two pieces is how long they are.
  obtain ⟨r, hr⟩ : ∃ r : RecvResult, r.ret = 0x7fffffff := ⟨zeros 0x7fffffff, rfl⟩
  obtain ⟨r', hr'⟩ : ∃ r : RecvResult, r.ret = 1 := ⟨zeros 1, rfl⟩
  have hpos : 0 < r.ret.toInt := by rw [hr]; decide
  have hpos' : 0 < r'.ret.toInt := by rw [hr']; decide
  have hcalm : ∀ a ∈ [.selected 1, .received r, .selected 1, .received r'],
      ¬ LwipAnswer.Stops a := by
    simp [LwipAnswer.Stops, LwipAnswer.Fails, hr, hr']
  have hgot : (got [.selected 1, .received r, .selected 1, .received r']).length =
      0x80000000 := by
    have hlen := RecvResult.bytes_length hpos
    have hlen' := RecvResult.bytes_length hpos'
    rw [hr, (by decide : (0x7fffffff : Int32).toInt = 0x7fffffff)] at hlen
    rw [hr', (by decide : (1 : Int32).toInt = 1)] at hlen'
    simp only [got, LwipAnswer.bytes, List.flatMap_cons, List.flatMap_nil, List.length_append,
      List.length_nil]
    omega
  -- The first piece leaves the loop one byte short, and the second one fills it.
  have hfirst := lwipStep_part (s := ⟨0x80000000, 0, .recvfrom, fun _ => 0⟩) rfl hpos
    (by rw [hr]; decide)
  have hsecond := lwipStep_full (s := ⟨0x80000000, 0 + r.ret, .recvfrom,
    Memory.store (fun _ => 0) (Int32.toInt 0) r.bytes⟩) rfl hpos'
    (by simp only [LwipRecv.requested, hr, hr']; decide)
  have hwhole : Along lwipStep Obeys (.start 0x80000000 fun _ => 0)
      [.selected 1, .received r, .selected 1, .received r'] := by
    refine along_cons lwipStep rfl trivial (along_cons lwipStep hfirst ?_
      (along_cons lwipStep rfl trivial (along_cons lwipStep hsecond ?_ trivial)))
    · simp only [Obeys, LwipRecv.requested, hr]
      decide
    · simp only [Obeys, LwipRecv.requested, hr, hr']
      decide
  have hrun : ∃ t, run lwipStep (.start 0x80000000 fun _ => 0)
      [.selected 1, .received r, .selected 1, .received r'] = some t ∧
        t.pc = .returned (0x80000000 : UInt32).toInt32 :=
    ⟨_, (run_cons lwipStep rfl _).trans ((run_cons lwipStep hfirst _).trans
      ((run_cons lwipStep rfl _).trans (run_cons lwipStep hsecond _))), rfl⟩
  rcases hrun with ⟨t, ht, hpc⟩
  refine ⟨_, t, hwhole, ht, hcalm, hgot, ⟨_, hpc, by decide⟩, fun hc => ?_⟩
  -- A negative value stands for a failure, and there was none.
  rcases (hc.failed _ hpc).mp (by decide) with ⟨a, ha, hf⟩
  exact hcalm a ha (.inr hf)

end Update

end Firmware
