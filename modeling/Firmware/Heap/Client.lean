import Firmware.Heap.Calls
import Firmware.Lib.Runs

/-!
# The Heap and Those Who Use It

What the threads that share the heap can rely on.

A thread knows of its blocks what it has asked for and what it has written: so many bytes,
some of which it knows. `View` is what all of them know together, and it is everything the
heap owes them. Neither where the blocks are nor how much room they really have is part of
it, nor are the headers, which lie between the blocks in the same memory.

`useStep` lets any thread do any of the things that are done in one piece: allocate a
block, give one back, write to one, and the part of `rt_realloc` under its first lock.
What `rt_realloc` does behind that and `rt_calloc` are made of these, so other threads may
come between. `Legal` is what they must observe: to write only to what they have been
given and to give back only that, and not to ask for the last three sizes, which are
rounded up to nothing.

`heap_serves` is for all threads and every order of what they do: no call fails an
assertion or goes on forever, every block they are given is apart from all that are in
use, and what they have written is what they read.

## Main definitions

* `View`: What the threads know of their blocks.
* `HeapEvent`, `useStep`: What they do.
* `Legal`: What they must observe.
* `Sound`: What they can rely on.
* `Fresh`: A new block is apart from the others.
* `Represents`: The blocks in use are those of the view.

## Theorems

* `malloc_step`, `free_step`, `resize_step`, `store_step`: One step of each kind.
* `heap_serves`: Every run of legal steps.
-/

namespace Firmware

open Blocks

namespace Heap

/-- What is known of the blocks: for the address of each its bytes, as far as they have
    been written. -/
abbrev View := UInt32 → Option (List (Option UInt8))

/-- What is known of the bytes when a block gets another size. -/
def fitted (n : Nat) (d : List (Option UInt8)) : List (Option UInt8) :=
  (d ++ List.replicate n none).take n

/-- What is known of the bytes when some are written from the `i`th on. -/
def written (i : Nat) (xs : List UInt8) (d : List (Option UInt8)) : List (Option UInt8) :=
  d.take i ++ (xs.map some ++ d.drop (i + xs.length))

/-- What threads do with the heap in one piece. -/
inductive HeapEvent
  | malloc (size : UInt32)
  | free (rmem : UInt32)
  | resize (rmem newsize : UInt32)
  | store (rmem : UInt32) (i : Nat) (bytes : List UInt8)

/-- The heap and what is known of its blocks. -/
structure HeapUse where
  heap : Heap
  view : View

/-- One step of any thread. -/
def useStep (s : HeapUse) : HeapEvent → Option HeapUse
  | .malloc size =>
      match s.heap.rtMalloc size with
      | none => none
      | some (p, h) =>
          -- Nothing is known of the bytes of a new block.
          if p = rtNull then some ⟨h, s.view⟩
          else some ⟨h, Function.update s.view p (some (List.replicate size.toNat none))⟩
  | .free rmem =>
      match s.heap.rtFree rmem with
      | none => none
      | some h =>
          if rmem = rtNull then some ⟨h, s.view⟩
          else some ⟨h, Function.update s.view rmem none⟩
  | .resize rmem newsize =>
      match s.heap.resize rmem newsize with
      | none => none
      | some (true, h) =>
          some ⟨h, Function.update s.view rmem ((s.view rmem).map (fitted newsize.toNat))⟩
      -- The block is left as it is, and `rt_realloc` goes on to allocate another one.
      | some (false, h) => some ⟨h, s.view⟩
  | .store rmem i bytes =>
      some ⟨{ s.heap with ram := s.heap.ram.store (rmem.toNat + i) bytes },
        Function.update s.view rmem ((s.view rmem).map (written i bytes))⟩

/-- What a thread must observe. Before it resizes a block, `rt_realloc` has rounded the size
    and compared it with nothing and with the size of the heap. -/
def Legal (s : HeapUse) : HeapEvent → Prop
  | .malloc size => size.toNat + 3 < 2 ^ 32
  | .free rmem => rmem = rtNull ∨ ∃ d, s.view rmem = some d
  | .resize rmem newsize => (∃ d, s.view rmem = some d) ∧ newsize ≠ 0 ∧ newsize.toNat % 4 = 0 ∧
      newsize ≤ s.heap.memSizeAligned
  | .store rmem i bytes => ∃ d, s.view rmem = some d ∧ i + bytes.length ≤ d.length

/-- What the threads can rely on: their blocks are aligned and inside the heap, they do not
    overlap, and they contain what has been written. -/
structure Sound (s : HeapUse) : Prop where
  inside : ∀ p d, s.view p = some d → s.heap.heapPtr.toNat + 12 ≤ p.toNat ∧
    p.toNat + d.length ≤ s.heap.heapPtr.toNat + s.heap.memSizeAligned.toNat + 12 ∧
    p.toNat % 4 = 0
  apart : ∀ p q d e, s.view p = some d → s.view q = some e → p ≠ q →
    p.toNat + d.length ≤ q.toNat ∨ q.toNat + e.length ≤ p.toNat
  contents : ∀ p d (i : Nat) x, s.view p = some d → d[i]? = some (some x) →
    s.heap.ram (p.toNat + i : Nat) = x

/-- A block that is given away is not in use and apart from those that are. -/
def Fresh (s : HeapUse) : HeapEvent → Prop
  | .malloc size => ∀ p h, s.heap.rtMalloc size = some (p, h) → p ≠ rtNull →
      s.view p = none ∧ ∀ q d, s.view q = some d →
        p.toNat + size.toNat ≤ q.toNat ∨ q.toNat + d.length ≤ p.toNat
  | _ => True

/-- What is cut off a block is where `lfree` is or behind it, or is joined with the free
    block it points to. -/
def NoHole (s : HeapUse) : HeapEvent → Prop
  | .resize rmem newsize =>
      newsize + sizeofStructMem + minSizeAligned <
          (s.heap.header (s.heap.headerOf rmem)).next - s.heap.headerOf rmem - sizeofStructMem →
        s.heap.lfree ≤ s.heap.headerOf rmem + sizeofStructMem + newsize ∨
          (s.heap.lfree = (s.heap.header (s.heap.headerOf rmem)).next ∧
            s.heap.lfree ≠ s.heap.heapEnd)
  | _ => True

/-- The blocks in use are those of the view, with enough room, and contain what it says. -/
structure Represents (s : HeapUse) (bs : List Block) : Prop where
  holds : Holds s.heap bs
  room : 12 ≤ s.heap.memSizeAligned.toNat
  owned : ∀ p d, s.view p = some d → ∃ o n, (o, n) ∈ live 12 0 bs ∧
    p = UInt32.ofNat (s.heap.heapPtr.toNat + o + 12) ∧ d.length ≤ n ∧
    ∀ (i : Nat) x, d[i]? = some (some x) →
      s.heap.ram (s.heap.heapPtr.toNat + (o + 12 + i) : Nat) = x
  given : ∀ o n, (o, n) ∈ live 12 0 bs →
    ∃ d, s.view (UInt32.ofNat (s.heap.heapPtr.toNat + o + 12)) = some d
  idle : live 12 0 bs = [] → s.heap.lfree = 0

/-- Whether a step is legal can be decided. -/
instance decidableLegal (s : HeapUse) : (e : HeapEvent) → Decidable (Legal s e)
  | .malloc size => inferInstanceAs (Decidable (size.toNat + 3 < 2 ^ 32))
  | .free rmem => decidable_of_iff (rmem = rtNull ∨ (s.view rmem).isSome = true)
      (or_congr Iff.rfl Option.isSome_iff_exists)
  | .resize rmem newsize => decidable_of_iff ((s.view rmem).isSome = true ∧ newsize ≠ 0 ∧
      newsize.toNat % 4 = 0 ∧ newsize ≤ s.heap.memSizeAligned)
      (and_congr Option.isSome_iff_exists Iff.rfl)
  | .store rmem i bytes =>
      match h : s.view rmem with
      | none => isFalse fun hl => by
          rcases hl with ⟨d, hd, -⟩
          rw [h] at hd
          exact absurd hd (by simp)
      | some d => decidable_of_iff (i + bytes.length ≤ d.length)
          ⟨fun hle => ⟨d, h, hle⟩, fun ⟨e, he, hle⟩ => by
            rw [h, Option.some.injEq] at he
            rw [he]
            exact hle⟩

section Bytes

variable {n i j : Nat} {xs : List UInt8} {d : List (Option UInt8)} {x : UInt8}

@[simp] theorem length_fitted (n : Nat) (d : List (Option UInt8)) : (fitted n d).length = n := by
  rw [fitted, List.length_take, List.length_append, List.length_replicate]
  omega

/-- What is known of a block that has another size was known before. -/
theorem of_fitted (h : (fitted n d)[i]? = some (some x)) : d[i]? = some (some x) := by
  rw [fitted, List.getElem?_take] at h
  split at h
  · rw [List.getElem?_append] at h
    split at h
    · exact h
    · rw [List.getElem?_replicate] at h
      split at h
      · exact absurd h (by simp)
      · exact absurd h (by simp)
  · exact absurd h (by simp)

theorem length_written (h : i + xs.length ≤ d.length) : (written i xs d).length = d.length := by
  simp only [written, List.length_append, List.length_take, List.length_map, List.length_drop]
  omega

/-- What is known of a block was written just now, or was known before. -/
theorem of_written (hle : i + xs.length ≤ d.length) (h : (written i xs d)[j]? = some (some x)) :
    (i ≤ j ∧ xs[j - i]? = some x) ∨
      ((j < i ∨ i + xs.length ≤ j) ∧ d[j]? = some (some x)) := by
  have hlen : (d.take i).length = i := by
    rw [List.length_take]
    omega
  rw [written, List.getElem?_append, hlen] at h
  split at h
  · rename_i hlt
    rw [List.getElem?_take_of_lt hlt] at h
    exact .inr ⟨.inl hlt, h⟩
  · rename_i hge
    rw [List.getElem?_append, List.length_map] at h
    split at h
    · rw [List.getElem?_map, Option.map_eq_some_iff] at h
      rcases h with ⟨y, hy, heq⟩
      rw [Option.some.injEq] at heq
      exact .inl ⟨by omega, by rw [hy, heq]⟩
    · rename_i hout
      have hsum : i + xs.length + (j - i - xs.length) = j := by omega
      rw [List.getElem?_drop, hsum] at h
      exact .inr ⟨.inr (by omega), h⟩

end Bytes

section Steps

variable {s : HeapUse} {bs : List Block}

/-- The addresses of different blocks are different. -/
theorem Holds.addr_inj {h : Heap} {o o' n n' : Nat} (hh : Holds h bs)
    (ho : (o, n) ∈ live 12 0 bs) (ho' : (o', n') ∈ live 12 0 bs) :
    UInt32.ofNat (h.heapPtr.toNat + o + 12) = UInt32.ofNat (h.heapPtr.toNat + o' + 12) ↔
      o = o' := by
  have hb := bounds_of_mem_placed (mem_live_iff.mp ho)
  have hb' := bounds_of_mem_placed (mem_live_iff.mp ho')
  have hlength := hh.length
  have hinside := hh.inside
  simp only at hb hb'
  rw [ofNat_eq_iff (by omega) (by omega)]
  omega

theorem Holds.toNat_addr {h : Heap} {o n : Nat} (hh : Holds h bs) (ho : (o, n) ∈ live 12 0 bs) :
    (UInt32.ofNat (h.heapPtr.toNat + o + 12)).toNat = h.heapPtr.toNat + o + 12 ∧
      o + 12 + n ≤ h.memSizeAligned.toNat + 12 ∧ o % 4 = 0 := by
  have hb := bounds_of_mem_placed (mem_live_iff.mp ho)
  have hlength := hh.length
  have hinside := hh.inside
  simp only at hb
  refine ⟨toNat_ofNat (by omega), by omega, ?_⟩
  rcases mem_placed_iff.mp (mem_live_iff.mp ho) with ⟨l, r, rfl, hp⟩
  have hmod := hh.extent_mod
  omega

/-- What the blocks are is what the threads can rely on. -/
theorem Represents.sound (hR : Represents s bs) : Sound s := by
  have hstart := hR.holds.start
  refine ⟨fun p d hp => ?_, fun p q d e hp hq hne => ?_, fun p d i x hp hx => ?_⟩
  · rcases hR.owned p d hp with ⟨o, n, ho, rfl, hlen, -⟩
    have haddr := hR.holds.toNat_addr ho
    omega
  · rcases hR.owned p d hp with ⟨o, n, ho, rfl, hlen, -⟩
    rcases hR.owned q e hq with ⟨o', n', ho', rfl, hlen', -⟩
    have haddr := hR.holds.toNat_addr ho
    have haddr' := hR.holds.toNat_addr ho'
    have hoo : o ≠ o' := fun heq => hne ((hR.holds.addr_inj ho ho').mpr heq)
    -- Blocks that are apart with their headers are apart without them.
    rcases placed_apart (mem_live_iff.mp ho) (mem_live_iff.mp ho') with ⟨heq, -⟩ | hapart
    · exact absurd heq hoo
    · simp only at hapart
      omega
  · rcases hR.owned p d hp with ⟨o, n, ho, rfl, -, hval⟩
    rw [(hR.holds.toNat_addr ho).1, Nat.add_assoc, Nat.add_assoc, ← Nat.add_assoc o]
    exact hval i x hx

/-- A step that changes what is known of one block and keeps the room of the others. -/
theorem Represents.update {h' : Heap} {bs' : List Block} {rooms : List (Nat × Nat)} {o : Nat}
    {c : Option (List (Option UInt8))} (hR : Represents s bs) (hh : Holds h' bs')
    (hk : Keeps rooms s.heap h') (ho : s.heap.heapPtr.toNat + o + 12 < 2 ^ 32)
    (hsub : ∀ x ∈ live 12 0 bs, x.1 ≠ o → x ∈ rooms ∧ x ∈ live 12 0 bs')
    (hsup : ∀ x ∈ live 12 0 bs', x.1 ≠ o → x ∈ live 12 0 bs)
    (hnew : ∀ d, c = some d → ∃ n, (o, n) ∈ live 12 0 bs' ∧ d.length ≤ n ∧
      ∀ (i : Nat) x, d[i]? = some (some x) → h'.ram (s.heap.heapPtr.toNat + (o + 12 + i) : Nat) = x)
    (hgiven : ∀ n, (o, n) ∈ live 12 0 bs' → ∃ d, c = some d)
    (hidle : live 12 0 bs' = [] → h'.lfree = 0) :
    Represents ⟨h', Function.update s.view
      (UInt32.ofNat (s.heap.heapPtr.toNat + o + 12)) c⟩ bs' := by
  -- Other blocks have other addresses, so the update does not touch what is known of them.
  have hne : ∀ q n, (q, n) ∈ live 12 0 bs → q ≠ o →
      UInt32.ofNat (s.heap.heapPtr.toNat + q + 12) ≠
        UInt32.ofNat (s.heap.heapPtr.toNat + o + 12) := by
    intro q n hq hqo
    have hin := hR.holds.toNat_addr hq
    have hinside := hR.holds.inside
    rw [Ne, ofNat_eq_iff (by omega) ho]
    omega
  refine ⟨hh, ?_, fun p d hp => ?_, fun q n hq => ?_, hidle⟩
  · simp only [hk.memSizeAligned]
    exact hR.room
  · simp only [hk.heapPtr]
    by_cases hpo : p = UInt32.ofNat (s.heap.heapPtr.toNat + o + 12)
    · simp only [hpo, Function.update_self] at hp
      rcases hnew d hp with ⟨n, hn, hlen, hval⟩
      exact ⟨o, n, hn, hpo, hlen, hval⟩
    · simp only [Function.update_of_ne hpo] at hp
      rcases hR.owned p d hp with ⟨q, n, hq, hpq, hlen, hval⟩
      have hqo : q ≠ o := by
        intro heq
        exact hpo (by rw [hpq, heq])
      -- Another block is still in use, and the step has kept its room.
      rcases hsub (q, n) hq hqo with ⟨hroom, hlive⟩
      refine ⟨q, n, hlive, hpq, hlen, fun i x hx => ?_⟩
      have hi : i < d.length := by
        by_contra hge
        rw [List.getElem?_eq_none (by omega)] at hx
        exact absurd hx (by simp)
      rw [hk.room q n hroom i (by omega)]
      exact hval i x hx
  · simp only [hk.heapPtr]
    by_cases hqo : q = o
    · subst hqo
      rw [Function.update_self]
      exact hgiven n hq
    · have hlive := hsup (q, n) hq hqo
      rw [Function.update_of_ne (hne q n hlive hqo)]
      exact hR.given q n hlive

/-- Allocating a block. -/
theorem malloc_step (hR : Represents s bs) {size : UInt32} (hl : Legal s (.malloc size)) :
    ∃ s' bs', useStep s (.malloc size) = some s' ∧ Represents s' bs' ∧ Fresh s (.malloc size) ∧
      (Lowest 12 bs s.heap.lfree.toNat → Lowest 12 bs' s'.heap.lfree.toNat) := by
  rcases rtMalloc_spec hR.holds hR.room size with
    ⟨a, h', bs', hcall, hh, hkeeps, hlow, ⟨rfl, rfl, rfl, -⟩ | ⟨o, n, L, R, rfl, hn, hL, hL', -⟩⟩
  · -- Without a block nothing has changed.
    refine ⟨s, bs', ?_, hR, fun p h hp hne => ?_, hlow⟩
    · simp only [useStep, hcall, if_true]
    · rw [hcall, Option.some.injEq, Prod.mk.injEq] at hp
      exact absurd hp.1.symm hne
  · have hmem : (o, n) ∈ live 12 0 bs' := by
      rw [hL']
      simp
    have hptr := hkeeps.heapPtr
    have haddr := hh.toNat_addr hmem
    have hinside := hh.inside
    rw [hptr] at haddr hinside
    have hsize : size.toNat ≤ n := le_trans (le_need hl) hn
    -- An address behind a header is not `NULL`.
    have hnull : UInt32.ofNat (s.heap.heapPtr.toNat + o + 12) ≠ rtNull := by
      rw [Ne, ← UInt32.toNat_inj, haddr.1]
      exact Nat.succ_ne_zero _
    have hapart : ∀ o' n', (o', n') ∈ live 12 0 bs → o' + (12 + n') ≤ o ∨ o + (12 + n) ≤ o' := by
      intro o' n' ho'
      rw [hL] at ho'
      exact live_apart hL' ho'
    refine ⟨⟨h', Function.update s.view (UInt32.ofNat (s.heap.heapPtr.toNat + o + 12))
      (some (List.replicate size.toNat none))⟩, bs', ?_, ?_, fun p h hp _ => ?_, hlow⟩
    · simp only [useStep, hcall, if_neg hnull]
    · refine hR.update hh hkeeps (by omega) (fun x hx _ => ⟨hx, ?_⟩) (fun x hx hne => ?_)
        (fun d hd => ?_) (fun _ _ => ⟨_, rfl⟩) (fun hnil => ?_)
      · rw [hL, List.mem_append] at hx
        rw [hL', List.mem_append, List.mem_cons]
        exact hx.imp id .inr
      · rw [hL', List.mem_append, List.mem_cons] at hx
        rw [hL, List.mem_append]
        rcases hx with hx | rfl | hx
        · exact .inl hx
        · exact absurd rfl hne
        · exact .inr hx
      · rw [Option.some.injEq] at hd
        refine ⟨n, hmem, by rw [← hd, List.length_replicate]; exact hsize, fun i x hx => ?_⟩
        rw [← hd, List.getElem?_replicate] at hx
        split at hx
        · exact absurd hx (by simp)
        · exact absurd hx (by simp)
      · rw [hnil] at hmem
        exact absurd hmem List.not_mem_nil
    · rw [hcall, Option.some.injEq, Prod.mk.injEq] at hp
      rw [← hp.1]
      -- A block with the same address would be at the same place, and overlap the new one.
      refine ⟨Option.eq_none_iff_forall_ne_some.mpr fun d hd => ?_, fun q d hq => ?_⟩
      · rcases hR.owned _ d hd with ⟨o', n', ho', heq, -⟩
        have haddr' := hR.holds.toNat_addr ho'
        have hinside' := hR.holds.inside
        rw [ofNat_eq_iff (by omega) (by omega)] at heq
        have hout := hapart o' n' ho'
        omega
      · rcases hR.owned q d hq with ⟨o', n', ho', rfl, hlen, -⟩
        have haddr' := hR.holds.toNat_addr ho'
        have hout := hapart o' n' ho'
        omega

/-- Blocks none of which is in use are one block. -/
theorem Holds.eq_of_idle {h : Heap} (hh : Holds h bs) (hnil : live 12 0 bs = []) :
    bs = [⟨h.memSizeAligned.toNat, false⟩] := by
  have hlength := hh.length
  -- A block in use would be in the list of those in use.
  have hfree : ∀ b ∈ bs, b.used = false := by
    intro b hb
    rcases List.append_of_mem hb with ⟨l, r, rfl⟩
    rw [live_append, live_cons] at hnil
    rcases hused : b.used with _ | _
    · rfl
    · simp [hused] at hnil
  have hne : bs ≠ [] := by
    intro hbs
    rw [hbs, extent_nil] at hlength
    omega
  rcases eq_singleton_of_free hh.settled hfree hne with ⟨⟨n, u⟩, rfl⟩
  have hu := hfree ⟨n, u⟩ (by simp)
  simp only [extent_cons, extent_nil] at hlength
  simp only at hu
  rw [hu]
  congr 2
  omega

/-- Giving a block back. -/
theorem free_step (hR : Represents s bs) {rmem : UInt32} (hl : Legal s (.free rmem)) :
    ∃ s' bs', useStep s (.free rmem) = some s' ∧ Represents s' bs' ∧
      (Lowest 12 bs s.heap.lfree.toNat → Lowest 12 bs' s'.heap.lfree.toNat) := by
  by_cases hnull : rmem = rtNull
  · refine ⟨s, bs, ?_, hR, id⟩
    simp only [useStep, rtFree, if_pos hnull]
  · rcases hl.resolve_left hnull with ⟨d, hd⟩
    rcases hR.owned rmem d hd with ⟨o, n, ho, rfl, -⟩
    have haddr := hR.holds.toNat_addr ho
    have hinside := hR.holds.inside
    rcases rtFree_spec hR.holds ho with
      ⟨h', bs', L, R, hcall, hh, hL, hL', hkeeps, ⟨k, hk⟩, hlow⟩
    refine ⟨⟨h', Function.update s.view (UInt32.ofNat (s.heap.heapPtr.toNat + o + 12)) none⟩,
      bs', ?_, ?_, hlow⟩
    · simp only [useStep, hcall, if_neg hnull]
    · refine hR.update hh hkeeps (by omega) (fun x hx hne => ?_) (fun x hx _ => ?_)
        (fun d hd => absurd hd (by simp)) (fun n' hn' => ?_) (fun hnil => ?_)
      · rw [hL, List.mem_append, List.mem_cons] at hx
        rw [hL', List.mem_append]
        rcases hx with hx | rfl | hx
        · exact ⟨.inl hx, .inl hx⟩
        · exact absurd rfl hne
        · exact ⟨.inr hx, .inr hx⟩
      · rw [hL', List.mem_append] at hx
        rw [hL, List.mem_append, List.mem_cons]
        exact hx.imp id .inr
      · -- No two blocks in use are at one place.
        rw [hL'] at hn'
        have hapart := live_apart hL hn'
        simp only at hapart
        omega
      · -- Everything is free, so there is one block, and `lfree` points to a free block.
        have hbs := hh.eq_of_idle hnil
        rw [hbs] at hk
        simp only [placed_cons, placed_nil, List.mem_singleton, Prod.mk.injEq] at hk
        rw [← UInt32.toNat_inj, hk.1]
        rfl

/-- What `NoHole` says about a block of the list. -/
theorem Holds.noHole_iff {o n : Nat} (hh : Holds s.heap bs) (ho : (o, n) ∈ live 12 0 bs)
    {newsize : UInt32} (hle : newsize ≤ s.heap.memSizeAligned) :
    NoHole s (.resize (UInt32.ofNat (s.heap.heapPtr.toNat + o + 12)) newsize) ↔
      (newsize.toNat + 24 < n → s.heap.lfree.toNat ≤ o + (12 + newsize.toNat) ∨
        (s.heap.lfree.toNat = o + (12 + n) ∧ s.heap.lfree.toNat ≠ extent 12 bs)) := by
  -- The three differences of the source are read off the header of the block.
  rcases live_split ho with ⟨l, r, rfl, hp, -⟩
  rw [Nat.zero_add] at hp
  have hend := hh.end_le
  have hlength := hh.length
  have hpos := hh.head_eq
  have hlfree := hh.toArena.freeAt_lt hh.freeAt
  unfold head at hpos
  rw [← hp] at hpos hend
  rw [UInt32.le_iff_toNat_le] at hle
  simp only [extent_append, extent_cons] at hend hlength hlfree
  have hsum := limit_eq newsize.toNat
  have hptr2 := behind_eq o newsize.toNat
  rw [UInt32.ofNat_toNat] at hsum hptr2
  have hlast : s.heap.heapEnd = UInt32.ofNat (extent 12 (l ++ ⟨n, true⟩ :: r)) := by
    rw [heapEnd_eq, hh.length]
  simp only [NoHole, headerOf_eq, hpos, hsum, size_eq, hptr2, hlast]
  rw [ofNat_lt_iff (by omega) (by omega)]
  refine forall_congr' fun hlt => ?_
  rw [UInt32.le_iff_toNat_le, toNat_ofNat (by omega), ← UInt32.toNat_inj, toNat_ofNat (by omega),
    Ne, ← UInt32.toNat_inj, toNat_ofNat (by rw [hh.length]; omega)]

/-- Cutting off what a block no longer needs. `lfree` stays in front of all free blocks
    unless that becomes one in front of it. -/
theorem resize_step (hR : Represents s bs) {rmem newsize : UInt32}
    (hl : Legal s (.resize rmem newsize)) :
    ∃ s' bs', useStep s (.resize rmem newsize) = some s' ∧ Represents s' bs' ∧
      (Lowest 12 bs s.heap.lfree.toNat →
        (Lowest 12 bs' s'.heap.lfree.toNat ↔ NoHole s (.resize rmem newsize))) := by
  rcases hl with ⟨⟨d, hd⟩, hzero, hmod, hsize⟩
  have hpos : 0 < newsize.toNat := by
    refine Nat.pos_of_ne_zero fun h => hzero ?_
    rw [← UInt32.toNat_inj, h]
    rfl
  rcases hR.owned rmem d hd with ⟨o, n, ho, rfl, hlen, hval⟩
  have haddr := hR.holds.toNat_addr ho
  have hinside := hR.holds.inside
  have hhole := hR.holds.noHole_iff ho hsize
  have hspec := resize_spec hR.holds ho hpos hmod (UInt32.le_iff_toNat_le.mp hsize)
  rw [UInt32.ofNat_toNat] at hspec
  rcases hspec with ⟨heq, hcall⟩ | ⟨-, hshort, hcall⟩ |
    ⟨hlong, h', bs', L, R, hcall, hh, hL, hL', hk, hlow⟩
  · -- The block has this size already.
    refine ⟨⟨s.heap, Function.update s.view (UInt32.ofNat (s.heap.heapPtr.toNat + o + 12))
      ((s.view (UInt32.ofNat (s.heap.heapPtr.toNat + o + 12))).map (fitted newsize.toNat))⟩, bs,
      by simp only [useStep, hcall], ?_, fun hlow => ?_⟩
    · refine hR.update hR.holds (.refl (live 12 0 bs) _) (by omega) (fun x hx _ => ⟨hx, hx⟩)
        (fun x hx _ => hx) (fun e he => ⟨n, ho, ?_, ?_⟩) (fun _ _ => ?_) hR.idle
      · rw [hd, Option.map_some, Option.some.injEq] at he
        rw [← he, length_fitted, heq]
      · rw [hd, Option.map_some, Option.some.injEq] at he
        intro i x hx
        rw [← he] at hx
        exact hval i x (of_fitted hx)
      · exact ⟨_, by rw [hd, Option.map_some]⟩
    · refine iff_of_true hlow (hhole.mpr fun hlt => ?_)
      omega
  · -- It is too short to be cut, and nothing is done.
    refine ⟨s, bs, by simp only [useStep, hcall], hR, fun hlow => ?_⟩
    refine iff_of_true hlow (hhole.mpr fun hlt => ?_)
    omega
  · -- It keeps its place, and what is cut off becomes free.
    have hmem : (o, newsize.toNat) ∈ live 12 0 bs' := by
      rw [hL']
      simp
    refine ⟨⟨h', Function.update s.view (UInt32.ofNat (s.heap.heapPtr.toNat + o + 12))
      ((s.view (UInt32.ofNat (s.heap.heapPtr.toNat + o + 12))).map (fitted newsize.toNat))⟩, bs',
      by simp only [useStep, hcall], ?_, fun h => ?_⟩
    · refine hR.update hh hk (by omega) (fun x hx hne => ?_) (fun x hx hne => ?_)
        (fun e he => ⟨newsize.toNat, hmem, ?_, ?_⟩) (fun _ _ => ?_) (fun hnil => ?_)
      · rw [hL, List.mem_append, List.mem_cons] at hx
        rw [hL']
        rcases hx with hx | rfl | hx
        · exact ⟨by simp [hx], by simp [hx]⟩
        · exact absurd rfl hne
        · exact ⟨by simp [hx], by simp [hx]⟩
      · rw [hL', List.mem_append, List.mem_cons] at hx
        rw [hL]
        rcases hx with hx | rfl | hx
        · simp [hx]
        · exact absurd rfl hne
        · simp [hx]
      · rw [hd, Option.map_some, Option.some.injEq] at he
        rw [← he, length_fitted]
      · rw [hd, Option.map_some, Option.some.injEq] at he
        intro i x hx
        -- Nothing is known of a block behind its size.
        have hi : i < newsize.toNat := by
          by_contra hge
          rw [List.getElem?_eq_none (by rw [← he, length_fitted]; omega)] at hx
          exact absurd hx (by simp)
        rw [← he] at hx
        rw [hk.room o newsize.toNat (by simp) i hi]
        exact hval i x (of_fitted hx)
      · exact ⟨_, by rw [hd, Option.map_some]⟩
      · rw [hnil] at hmem
        exact absurd hmem List.not_mem_nil
    · rw [hlow h, hhole]
      exact ⟨fun hc _ => hc, fun hc => hc hlong⟩

/-- A store that stays inside a block leaves the headers and the other blocks alone. -/
theorem Arena.store {h : Heap} {o n i : Nat} {xs : List UInt8} (hA : Arena h bs)
    (ho : (o, n) ∈ live 12 0 bs) (hle : i + xs.length ≤ n) {a : Int}
    (ha : a = (h.heapPtr.toNat + (o + 12 + i) : Nat)) :
    Arena { h with ram := h.ram.store a xs } bs ∧
      Keeps ((live 12 0 bs).filter fun x => x.1 ≠ o) h { h with ram := h.ram.store a xs } := by
  have hb := bounds_of_mem_placed (mem_live_iff.mp ho)
  have hlength := hA.length
  have hinside := hA.inside
  refine ⟨⟨linked_congr (fun q c hq => ?_) hA.linked, hA.length, hA.inside, hA.start, hA.sizes⟩,
    ⟨rfl, rfl, fun q k hq j hj => ?_⟩⟩
  · -- The room of the block is behind its own header and apart from all others.
    have hc := bounds_of_mem_placed hq
    have haddr : (h.addr (UInt32.ofNat q)).toNat = h.heapPtr.toNat + q := toNat_addr (by omega)
    have hapart := placed_apart (mem_live_iff.mp ho) hq
    simp only at hapart
    change HeapMem.ofBytes ((h.ram.store a xs).read (h.addr (UInt32.ofNat q)).toNat 12) = _
    rw [Memory.read_store_apart, head, header]
    omega
  · rw [List.mem_filter, decide_eq_true_eq] at hq
    rcases placed_apart (mem_live_iff.mp ho) (mem_live_iff.mp hq.1) with ⟨heq, -⟩ | hapart
    · exact absurd heq.symm hq.2
    · simp only at hapart
      exact Memory.store_outside _ _ _ (by omega)

/-- Writing to a block. -/
theorem store_step (hR : Represents s bs) {rmem : UInt32} {i : Nat} {bytes : List UInt8}
    (hl : Legal s (.store rmem i bytes)) :
    ∃ s', useStep s (.store rmem i bytes) = some s' ∧ Represents s' bs ∧
      s'.heap.lfree = s.heap.lfree := by
  rcases hl with ⟨d, hd, hle⟩
  rcases hR.owned rmem d hd with ⟨o, n, ho, rfl, hlen, hval⟩
  have haddr := hR.holds.toNat_addr ho
  have hinside := hR.holds.inside
  have ha : ((UInt32.ofNat (s.heap.heapPtr.toNat + o + 12)).toNat + i : Int) =
      (s.heap.heapPtr.toNat + (o + 12 + i) : Nat) := by omega
  refine ⟨_, rfl, ?_, rfl⟩
  rcases hR.holds.toArena.store ho (le_trans hle hlen) ha with ⟨hA, hk⟩
  refine hR.update ⟨hA, hR.holds.settled, hR.holds.freeAt, hR.holds.usedMem, hR.holds.rooms⟩ hk
    (by omega) (fun x hx hne => ⟨?_, hx⟩) (fun x hx _ => hx)
    (fun e he => ⟨n, ho, ?_, fun j x hx => ?_⟩) (fun _ _ => ?_) hR.idle
  · exact List.mem_filter.mpr ⟨hx, by simpa using hne⟩
  · rw [hd, Option.map_some, Option.some.injEq] at he
    rw [← he, length_written hle]
    exact hlen
  · rw [hd, Option.map_some, Option.some.injEq] at he
    rw [← he] at hx
    simp only [ha]
    -- A byte of the block is one of those just written, or it is as it was.
    rcases of_written hle hx with ⟨hij, hnew⟩ | ⟨hout, hold⟩
    · rcases List.getElem?_eq_some_iff.mp hnew with ⟨hlt, hget⟩
      have hsum : ((s.heap.heapPtr.toNat + (o + 12 + j) : Nat) : Int) =
          (s.heap.heapPtr.toNat + (o + 12 + i) : Nat) + (j - i : Nat) := by omega
      rw [hsum, Memory.store_inside _ _ _ hlt, hget]
    · rw [Memory.store_outside _ _ _ (by omega)]
      exact hval j x hold
  · exact ⟨_, by rw [hd, Option.map_some]⟩

/-- One step of any thread. -/
theorem use_step (hR : Represents s bs) {e : HeapEvent} (hl : Legal s e) :
    ∃ s' bs', useStep s e = some s' ∧ Represents s' bs' ∧ Fresh s e ∧
      (Lowest 12 bs s.heap.lfree.toNat → (Lowest 12 bs' s'.heap.lfree.toNat ↔ NoHole s e)) := by
  cases e with
  | malloc size =>
      rcases malloc_step hR hl with ⟨s', bs', hs, hR', hfresh, hlow⟩
      exact ⟨s', bs', hs, hR', hfresh, fun h => iff_of_true (hlow h) trivial⟩
  | free rmem =>
      rcases free_step hR hl with ⟨s', bs', hs, hR', hlow⟩
      exact ⟨s', bs', hs, hR', trivial, fun h => iff_of_true (hlow h) trivial⟩
  | resize rmem newsize =>
      rcases resize_step hR hl with ⟨s', bs', hs, hR', hlow⟩
      exact ⟨s', bs', hs, hR', trivial, hlow⟩
  | store rmem i bytes =>
      rcases store_step hR hl with ⟨s', hs, hR', hlfree⟩
      refine ⟨s', bs, hs, hR', trivial, fun h => iff_of_true ?_ trivial⟩
      rw [hlfree]
      exact h

/-- The blocks in use are those of the view after every legal step. -/
theorem use_keeps (s : HeapUse) (e : HeapEvent) (s' : HeapUse) (hI : ∃ bs, Represents s bs)
    (hl : Legal s e) (hs : useStep s e = some s') : ∃ bs, Represents s' bs := by
  rcases hI with ⟨bs, hR⟩
  rcases use_step hR hl with ⟨t, bs', ht, hR', -⟩
  rw [ht, Option.some.injEq] at hs
  rw [← hs]
  exact ⟨bs', hR'⟩

end Steps

section Runs

variable {ram : Memory UInt8} {beginAddr endAddr : UInt32} {h₀ : Heap} {events : List HeapEvent}

/-- Nothing has been allocated at the beginning. -/
theorem represents_init (hinit : rtSystemHeapInit ram beginAddr endAddr = some h₀)
    (hroom : 12 ≤ h₀.memSizeAligned.toNat) :
    Represents ⟨h₀, fun _ => none⟩ [⟨h₀.memSizeAligned.toNat, false⟩] := by
  rcases holds_init hinit with ⟨hh, hlfree⟩
  refine ⟨hh, hroom, fun p d hp => ?_, fun o n ho => ?_, fun _ => hlfree⟩
  · exact absurd hp (by simp)
  · exact absurd ho (by simp)

/-- Every call returns. -/
theorem use_total {s : HeapUse} (hI : ∃ bs, Represents s bs)
    (hl : Along useStep Legal s events) : ∃ t, run useStep s events = some t := by
  -- A legal step can be taken wherever the blocks are represented, and keeps that.
  have hstep : ∀ s e, (∃ bs, Represents s bs) → Legal s e →
      ∃ s', useStep s e = some s' ∧ ∃ bs, Represents s' bs := by
    intro s e ⟨bs, hR⟩ hle
    rcases use_step hR hle with ⟨s', bs', hs, hR', -⟩
    exact ⟨s', hs, bs', hR'⟩
  rcases run_total useStep (fun s => ∃ bs, Represents s bs) hstep hI hl with ⟨t, ht, -⟩
  exact ⟨t, ht⟩

/-- What the heap gives to all who use it, in whatever order: every call returns, every
    block is apart from those in use when it is given away, and what has been written is
    what is read. -/
theorem heap_serves (hinit : rtSystemHeapInit ram beginAddr endAddr = some h₀)
    (hroom : 12 ≤ h₀.memSizeAligned.toNat)
    (hl : Along useStep Legal ⟨h₀, fun _ => none⟩ events) :
    (∃ t, run useStep ⟨h₀, fun _ => none⟩ events = some t) ∧
      Always useStep Sound ⟨h₀, fun _ => none⟩ events ∧
      Along useStep Fresh ⟨h₀, fun _ => none⟩ events := by
  have h0 : ∃ bs, Represents ⟨h₀, fun _ => none⟩ bs := ⟨_, represents_init hinit hroom⟩
  refine ⟨use_total h0 hl, ?_, ?_⟩
  · refine always_of_invariant useStep (fun s => ∃ bs, Represents s bs) use_keeps ?_ h0 hl
    intro s ⟨bs, hR⟩
    exact hR.sound
  · refine along_of_invariant useStep (fun s => ∃ bs, Represents s bs) use_keeps ?_ h0 hl
    intro s e ⟨bs, hR⟩ hle
    rcases use_step hR hle with ⟨-, -, -, -, hfresh, -⟩
    exact hfresh

/-- A heap of 232 bytes in an empty memory. -/
def smallHeap : Heap :=
  (rtSystemHeapInit (fun _ => 0) 0x1000 0x1100).getD ⟨fun _ => 0, 0, 0, 0, 0, 0⟩

theorem smallHeap_init : rtSystemHeapInit (fun _ => 0) 0x1000 0x1100 = some smallHeap := rfl

theorem smallHeap_room : 12 ≤ smallHeap.memSizeAligned.toNat := by decide

/-- Two blocks, of which the first one is written to and cut, and the second one given
    back. -/
def someUse : List HeapEvent :=
  [.malloc 100, .malloc 20, .store 0x100c 0 [1, 2, 3], .resize 0x100c 40, .free 0x107c]

theorem someUse_legal : Along useStep Legal ⟨smallHeap, fun _ => none⟩ someUse := by
  decide +kernel

theorem heap_serves_someUse :
    (∃ t, run useStep ⟨smallHeap, fun _ => none⟩ someUse = some t) ∧
      Always useStep Sound ⟨smallHeap, fun _ => none⟩ someUse ∧
      Along useStep Fresh ⟨smallHeap, fun _ => none⟩ someUse :=
  heap_serves smallHeap_init smallHeap_room someUse_legal

end Runs

end Heap

end Firmware
