import Firmware.Update.Delivery

/-!
# Commit Safety

When the information sector may be written.

A boot loader that finds `MAGIC` there installs the image, so whoever writes the
sector promises that the image is complete: its length was announced on this
connection, that many bytes came after it, and they are in flash. `Ledger` is what
an onlooker knows who sees the calls of the server and their results and nothing
of its variables. It notes the length that was announced, the blocks that arrived
in full since then and what flash was told to store, and `Justified` is the
promise in these terms.

The server keeps no such account. An `EOT` header is enough for it to write the
sector, with whatever `total_size` happens to be, and the results of the flash
writes are not looked at. `Committable` says what the surroundings must add: an
`EOT` header comes only when the onlooker's account is complete.

The invariant `CommitInv` connects the two sides. As long as the account is
intact, `pack_count` and `page_offset` are the remainder and the quotient of the
number of blocks by four, the page buffer starts with the blocks of the page that
is not complete, and the pages before it are in flash. A payload that ends early
ends the account too, and only the next announcement starts a new one, so nothing
is assumed about the frames in between.

## Main definitions

* `Ledger`: What an onlooker knows.
* `Justified`: The promise behind the information sector.
* `Committable`: The condition on the surroundings.
* `CommitInv`: The invariant that connects the server and the ledger.

## Theorems

* `commitInv_step`: A committable step preserves the invariant.
* `run_justified`: In a committable run the information sector is written only
  for a complete image.
* `not_justified_without_length`: A lone `EOT` header writes it for nothing.
-/

namespace Firmware

namespace Update

/-- What the calls and their results tell about the current connection: whether
    the page buffer was allocated, the length announced last, whether everything
    since then arrived in full, the blocks since then, the results of the page
    writes since then, the contents of flash as far as known, and the bytes of the
    payload being received, if there is one. -/
structure Ledger where
  page : Bool := false
  announced : Option Nat := none
  intact : Bool := false
  image : List UInt8 := []
  stores : List Bool := []
  flash : Nat → Option Page := fun _ => none
  got : Option (List UInt8) := none

namespace Ledger

/-- A header was accepted. A payload still open then never became complete, and
    a new length makes the old account void. -/
def header (m : Ledger) (x : UInt8) : Ledger :=
  { m with
    intact := m.intact && m.got.isNone && x != soh
    got := if x = soh ∨ x = stx then some [] else none }

/-- More bytes of a length. The fourth one opens a new account. -/
def length (m : Ledger) (bytes : List UInt8) : Ledger :=
  match m.got with
  | none => m
  | some g =>
      if (g ++ bytes).length = 4 then
        { m with
          announced := some (beValue (g ++ bytes))
          intact := true
          image := []
          stores := []
          flash := fun _ => none
          got := none }
      else { m with got := some (g ++ bytes) }

/-- More bytes of a block. The last one adds it to the image. -/
def block (m : Ledger) (bytes : List UInt8) : Ledger :=
  match m.got with
  | none => m
  | some g =>
      if (g ++ bytes).length = maxDataSize then
        { m with image := m.image ++ (g ++ bytes), got := none }
      else { m with got := some (g ++ bytes) }

/-- A receive of a payload failed. -/
def fail (m : Ledger) : Ledger := { m with intact := false, got := none }

/-- A flash write and its result. -/
def store (m : Ledger) (sector : Nat) (page : Option Page) (ok : Bool) : Ledger :=
  { m with
    stores := m.stores ++ [ok]
    flash := Function.update m.flash sector (if ok then page else none) }

/-- What one call and its result add to the ledger. -/
def note (m : Ledger) (e : Call × Answer) : Ledger :=
  match e.1, e.2 with
  | .accept, _ => {}
  | .malloc, .allocated p => { m with page := p.isSome }
  | .recvHeader off _, .received (.data x [y, z]) =>
      if off = 0 ∧ y.toNat + z.toNat = 0xff then m.header x else m
  | .recvLength _ _, .received (.data b bs) => m.length (b :: bs)
  | .recvLength _ _, .received (.error _) => m.fail
  | .select, .selected ret => if ret < 0 then m.fail else m
  | .recvPage _ _, .received (.data b bs) => m.block (b :: bs)
  | .recvPage _ _, .received _ => m.fail
  | .write sector page, .stored ok => m.store sector page ok
  | _, _ => m

/-- The image is complete: a length was announced on this connection, everything
    since then arrived in full and fits the sectors that can be addressed, it is at
    least as long as announced, and no page of the announced part failed to be
    stored so far. -/
def Complete (m : Ledger) : Prop :=
  m.page = true ∧ m.intact = true ∧ m.got = none ∧ m.image.length ≤ 65536 * bufSz ∧
    ∃ n, m.announced = some n ∧ n ≤ m.image.length ∧
      ∀ j, bufSz * j < n → m.stores[j]? ≠ some false

/-- The promise: the sector begins with the announced length and `MAGIC`, and that
    many bytes have arrived in full since the announcement and are in flash, in
    order, from the first data sector on. -/
def Justified (m : Ledger) (info : Option Page) : Prop :=
  ∃ n d, m.announced = some n ∧ info = some d ∧ InfoSector n d ∧
    n ≤ m.image.length ∧ ∀ i (h : i < m.image.length), i < n →
      ∃ p, m.flash (updateDataAddr + i / bufSz) = some p ∧
        p ⟨i % bufSz, Nat.mod_lt i (by decide)⟩ = m.image[i]

end Ledger

/-- The server and the onlooker. -/
abbrev Account := Server × Ledger

/-- One step of the server with the onlooker's note of it. -/
abbrev accountStep : Account → Answer → Option Account := watched step observe Ledger.note

/-- The onlooker's ledger after a run. -/
def ledger (s : Server) (as : List Answer) : Ledger := (events s as).foldl Ledger.note {}

/-- If the server is about to write the information sector, it may. -/
def CommitSafe (s : Server) (m : Ledger) : Prop :=
  ∀ info, s.call = .write updateInfoAddr info → m.Justified info

/-- What the surroundings must see to: an `EOT` header arrives only for a complete
    image, and the write of the page that was still open then does not fail where
    the image needs it. -/
def Committable (w : Account) (a : Answer) : Prop :=
  match w.1.pc, a with
  | .headerRecv, .received (.data x [y, z]) =>
      w.1.index = 0 → y.toNat + z.toNat = 0xff → x = eot → w.2.Complete
  | .eotWrite, .stored ok => ok = true ∨
      ∀ n, w.2.announced = some n → n ≤ bufSz * (w.2.image.length / bufSz)
  | _, _ => True

/-- The pages before page `k` have been written and the page buffer starts with
    what follows them. -/
structure Kept (s : Server) (m : Ledger) (k : Nat) (image : List UInt8) : Prop where
  size : m.announced = some s.totalSize.toNat
  offset : s.pageOffset = k % 2 ^ 16
  page : ∀ p, s.dataBuf = some p → p.Holds 0 (image.drop (bufSz * k))
  count : m.stores.length = k
  flash : m.page = true → k ≤ 65536 → ∀ j : Nat, m.stores[j]? = some true → ∃ p : Page,
    m.flash (updateDataAddr + j) = some p ∧ p.Holds 0 ((image.drop (bufSz * j)).take bufSz)

/-- Between two frames, `f` blocks after the announcement. -/
structure Settled (s : Server) (m : Ledger) (f : Nat) : Prop where
  kept : Kept s m (f / 4) m.image
  length : m.image.length = maxDataSize * f
  packCount : s.packCount = f % 4

/-- Behind the receive of block `f`, which is not counted yet. -/
structure Unsettled (s : Server) (m : Ledger) (f : Nat) : Prop where
  kept : Kept s m (f / 4) m.image
  length : m.image.length = maxDataSize * (f + 1)

/-- Inside block `f`, with the bytes `g` of it in the page buffer. -/
structure Filling (s : Server) (m : Ledger) (b : BlockingRecv) (f : Nat) (g : List UInt8) :
    Prop where
  got : m.got = some g
  block : InBlock s b
  kept : Kept s m (f / 4) (m.image ++ g)
  length : m.image.length = maxDataSize * f
  packCount : s.packCount = f % 4
  position : s.dataIndex + b.offset = g.length

/-- The page buffer is allocated if the onlooker saw that. -/
def PageKnown (s : Server) (m : Ledger) : Prop :=
  s.pc ≠ .accept → m.page = true → s.dataBuf.isSome

/-- What the account says about the variables of the server, call by call. An
    account that is not intact says nothing. -/
def AccountInv (s : Server) (m : Ledger) : Prop :=
  match s.pc with
  | .mutexTake | .malloc => m.intact = false
  | .headerRecv | .sohAck | .stxAck => m.intact = true → m.got = none → ∃ f, Settled s m f
  | .headerNak => s.headerBuf 0 = nak ∧ (m.intact = true → m.got = none → ∃ f, Settled s m f)
  | .sohRecv => s.dataIndex < 4 ∧ m.intact = false ∧
      ∀ g, m.got = some g → s.buf.Holds 0 g ∧ s.dataIndex = g.length
  | .sohNak => s.retry = 0 ∧ (m.intact = true → m.announced = some (rbigu4 s.buf).toNat ∧
      4 ≤ s.dataIndex ∧ m.image = [] ∧ m.stores = [])
  | .stxRecv b => s.dataIndex < maxDataSize ∧ (m.intact = true → ∃ f g, Filling s m b f g)
  | .stxNak => s.retry = 0 ∧ (m.intact = true → m.got = none → maxDataSize ≤ s.dataIndex ∧
      ∃ f, Unsettled s m f ∧ s.packCount = f % 4)
  | .stxWrite => m.intact = true → m.got = none →
      ∃ f, Unsettled s m f ∧ f % 4 = 3 ∧ s.packCount = 0
  | .eotWrite => m.Complete ∧ ∃ f, Kept s m (f / 4) m.image ∧
      m.image.length = maxDataSize * f ∧ f % 4 ≠ 0
  | .eotInfo => m.Justified s.dataBuf
  | _ => True

/-- What holds at each call of a committable run. -/
def CommitInv (w : Account) : Prop := PageKnown w.1 w.2 ∧ AccountInv w.1 w.2

section Frame

variable {s t : Server} {m : Ledger}

/-- The variables the account is about. -/
structure SameImage (s t : Server) : Prop where
  size : t.totalSize = s.totalSize
  offset : t.pageOffset = s.pageOffset
  data : t.dataBuf = s.dataBuf

theorem Kept.congr {k : Nat} {image : List UInt8} (h : Kept s m k image) (he : SameImage s t) :
    Kept t m k image := by
  refine ⟨?_, ?_, ?_, h.count, h.flash⟩
  · rw [he.size]
    exact h.size
  · rw [he.offset]
    exact h.offset
  · rw [he.data]
    exact h.page

theorem Settled.congr {f : Nat} (h : Settled s m f) (he : SameImage s t)
    (hp : t.packCount = s.packCount) : Settled t m f :=
  ⟨h.kept.congr he, h.length, hp.trans h.packCount⟩

/-- The note of a header changes nothing the account is about. -/
theorem Kept.header {k : Nat} {image : List UInt8} (h : Kept s m k image) (x : UInt8) :
    Kept s (m.header x) k image := ⟨h.size, h.offset, h.page, h.count, h.flash⟩

end Frame

/-- More bytes behind a page do not change it. -/
theorem slice_append {image more : List UInt8} {j : Nat} (h : bufSz * (j + 1) ≤ image.length) :
    ((image ++ more).drop (bufSz * j)).take bufSz = (image.drop (bufSz * j)).take bufSz := by
  have hle : bufSz * j ≤ image.length := le_trans (Nat.mul_le_mul_left _ (Nat.le_succ j)) h
  rw [List.drop_append_of_le_length hle, List.take_append_of_le_length]
  rw [List.length_drop]
  rw [Nat.mul_succ] at h
  omega

/-- A page of the image, byte by byte. -/
theorem holds_slice {p : Page} {image : List UInt8} {i : Nat} (hi : i < image.length)
    (h : p.Holds 0 ((image.drop (bufSz * (i / bufSz))).take bufSz)) :
    p ⟨i % bufSz, Nat.mod_lt i (by decide)⟩ = image[i] := by
  have hdiv := Nat.div_add_mod i bufSz
  have hmod : i % bufSz < bufSz := Nat.mod_lt i (by decide)
  rcases h (i % bufSz) (by rw [List.length_take, List.length_drop]; omega) with ⟨hlt, hval⟩
  have hidx : (⟨0 + i % bufSz, hlt⟩ : Fin bufSz) = ⟨i % bufSz, hmod⟩ := Fin.ext (Nat.zero_add _)
  rw [← hidx, hval, List.getElem_take, List.getElem_drop]
  exact getElem_congr_idx hdiv

/-- The promise, page by page. -/
theorem justified_of_pages {m : Ledger} {n : UInt32} {p : Page}
    (ha : m.announced = some n.toNat) (hn : n.toNat ≤ m.image.length)
    (hpages : ∀ j, bufSz * j < n.toNat → ∃ q : Page, m.flash (updateDataAddr + j) = some q ∧
      q.Holds 0 ((m.image.drop (bufSz * j)).take bufSz)) :
    m.Justified (some (wbigu4 (wbigu4 p 0 n) 4 magic)) := by
  refine ⟨n.toNat, _, ha, rfl, infoSector_wbigu4 p n, hn, fun i hi hlt => ?_⟩
  have hj : bufSz * (i / bufSz) < n.toNat := lt_of_le_of_lt (Nat.mul_div_le i bufSz) hlt
  rcases hpages (i / bufSz) hj with ⟨q, hq, hholds⟩
  exact ⟨q, hq, holds_slice hi hholds⟩

/-- The pages that have been written hold what they should, if the account is
    complete. -/
theorem kept_pages {s : Server} {m : Ledger} {k n : Nat} (h : Kept s m k m.image)
    (hc : m.Complete) (ha : m.announced = some n) (hk : k ≤ 65536) {j : Nat} (hj : j < k)
    (hn : bufSz * j < n) : ∃ q : Page, m.flash (updateDataAddr + j) = some q ∧
      q.Holds 0 ((m.image.drop (bufSz * j)).take bufSz) := by
  rcases hc with ⟨hpage, -, -, -, n', ha', -, hok⟩
  rw [ha, Option.some.injEq] at ha'
  subst ha'
  have hlt : j < m.stores.length := by
    rw [h.count]
    exact hj
  have hstore : m.stores[j]? = some true := by
    have hne := hok j hn
    rw [List.getElem?_eq_getElem hlt] at hne ⊢
    cases hb : m.stores[j] with
    | false =>
        rw [hb] at hne
        exact absurd rfl hne
    | true => rfl
  exact h.flash hpage hk j hstore

theorem fits_of_complete {m : Ledger} {f : Nat} (hc : m.Complete)
    (hlen : m.image.length = maxDataSize * f) : f ≤ 4 * 65536 := by
  have hle := hc.2.2.2.1
  rw [hlen, maxDataSize, bufSz] at hle
  omega

/-- An `EOT` header for a complete image: either the last page is open and written
    first, or everything is in flash. -/
theorem accountInv_eotStart {s : Server} {m : Ledger} {f : Nat} (h : Settled s m f)
    (hc : m.Complete) (hd : s.dataBuf.isSome) : AccountInv s.eotStart m := by
  have hfits := fits_of_complete hc h.length
  -- The source writes the page first if the packet counter is not zero.
  by_cases hp : s.packCount ≠ 0
  · have hstart : s.eotStart = { s with packCount := 0, pc := .eotWrite } := by
      simp only [Server.eotStart, if_pos hp]
    rw [hstart]
    refine ⟨hc, f, h.kept.congr ⟨rfl, rfl, rfl⟩, h.length, ?_⟩
    rw [← h.packCount]
    exact hp
  · have hstart : s.eotStart = s.eotInfo := by simp only [Server.eotStart, if_neg hp]
    rcases Option.isSome_iff_exists.mp hd with ⟨p, hp'⟩
    have hinfo : s.eotInfo.dataBuf = some (wbigu4 (wbigu4 p 0 s.totalSize) 4 magic) := by
      simp only [Server.eotInfo, hp', Option.map_some]
    have hz : f % 4 = 0 := by
      rw [← h.packCount]
      exact not_not.mp hp
    rw [hstart]
    show m.Justified s.eotInfo.dataBuf
    rw [hinfo]
    rcases hc.2.2.2.2 with ⟨n, ha, hn, -⟩
    have hsize : n = s.totalSize.toNat := by
      have hboth := h.kept.size
      rw [ha, Option.some.injEq] at hboth
      exact hboth
    subst hsize
    refine justified_of_pages ha hn fun j hj => ?_
    -- Every page of the image is full, so each of them has been written.
    refine kept_pages h.kept hc ha (by omega) ?_ hj
    have hlen := h.length
    rw [maxDataSize] at hlen
    rw [bufSz] at hj
    omega

/-- The page that was open at `EOT` has been written. -/
theorem accountInv_eotWrite {s : Server} {m : Ledger} {f : Nat} {ok : Bool} (hc : m.Complete)
    (h : Kept s m (f / 4) m.image) (hlen : m.image.length = maxDataSize * f) (hf : f % 4 ≠ 0)
    (hd : s.dataBuf.isSome) (hok : ok = true ∨
      ∀ n, m.announced = some n → n ≤ bufSz * (m.image.length / bufSz)) :
    AccountInv s.pageWritten.eotInfo (m.store (updateDataAddr + s.pageOffset) s.dataBuf ok) := by
  have hfits := fits_of_complete hc hlen
  rcases Option.isSome_iff_exists.mp hd with ⟨p, hp⟩
  have hinfo : s.pageWritten.eotInfo.dataBuf =
      some (wbigu4 (wbigu4 p 0 s.totalSize) 4 magic) := by
    simp only [Server.eotInfo, Server.pageWritten, hp, Option.map_some]
  have hoff : s.pageOffset = f / 4 := by
    rw [h.offset, Nat.mod_eq_of_lt (by omega)]
  show (m.store _ _ _).Justified s.pageWritten.eotInfo.dataBuf
  rw [hinfo, hoff]
  rcases hc.2.2.2.2 with ⟨n, ha, hn, -⟩
  have hsize : n = s.totalSize.toNat := by
    have hboth := h.size
    rw [ha, Option.some.injEq] at hboth
    exact hboth
  subst hsize
  refine justified_of_pages ha hn fun j hj => ?_
  by_cases hlt : j < f / 4
  · -- A page from before: the write went to another sector.
    rcases kept_pages h hc ha (by omega) hlt hj with ⟨q, hq, hholds⟩
    refine ⟨q, ?_, hholds⟩
    simp only [Ledger.store]
    rw [Function.update_of_ne (by omega)]
    exact hq
  · -- The page just written; the image reaches into it, so the write succeeded.
    have hj' : j = f / 4 := by
      rw [hlen, maxDataSize] at hn
      rw [bufSz] at hj
      omega
    subst hj'
    have htrue : ok = true := by
      rcases hok with hok | hle
      · exact hok
      · have hle' := hle _ ha
        rw [hlen, maxDataSize, bufSz] at hle'
        rw [bufSz] at hj
        omega
    refine ⟨p, ?_, ?_⟩
    · simp only [Ledger.store, htrue, if_true, hp, Function.update_self]
    · have hholds := h.page p hp
      rw [← List.take_of_length_le (by
        rw [List.length_drop, hlen, maxDataSize, bufSz]
        omega : (m.image.drop (bufSz * (f / 4))).length ≤ bufSz)] at hholds
      exact hholds

/-- Behind a payload the server thinks complete: if it is, the block is counted,
    and the fourth of a page goes to flash first. -/
theorem accountInv_stxDone {s : Server} {m : Ledger}
    (h : m.intact = true → m.got = none → ∃ f, Unsettled s m f ∧ s.packCount = f % 4) :
    AccountInv s.stxDone m := by
  by_cases h4 : (s.packCount + 1) % 2 ^ 16 = 4
  · -- The page is full; its block counts once the page is written.
    have hdone : s.stxDone = { s with packCount := 0, pc := .stxWrite } := by
      simp only [Server.stxDone, if_pos h4]
    rw [hdone]
    intro hi hg
    rcases h hi hg with ⟨f, hu, hp⟩
    exact ⟨f, ⟨hu.kept.congr ⟨rfl, rfl, rfl⟩, hu.length⟩, by omega, rfl⟩
  · have hdone : s.stxDone = Server.reply
        { s with packCount := (s.packCount + 1) % 2 ^ 16 } ack .stxAck := by
      simp only [Server.stxDone, if_neg h4]
    rw [hdone]
    intro hi hg
    rcases h hi hg with ⟨f, hu, hp⟩
    have hsame : f / 4 = (f + 1) / 4 := by omega
    refine ⟨f + 1, ?_, hu.length, ?_⟩
    · rw [← hsame]
      exact hu.kept.congr ⟨rfl, rfl, rfl⟩
    · simp only [Server.reply]
      omega

/-- The fourth block of a page has been written. Whether the write succeeded is
    noted in the account. -/
theorem settled_stxWrite {s : Server} {m : Ledger} {f : Nat} (ok : Bool) (h : Unsettled s m f)
    (hf : f % 4 = 3) (hp : s.packCount = 0) (hd : m.page = true → s.dataBuf.isSome) :
    Settled (s.pageWritten.reply ack .stxAck)
      (m.store (updateDataAddr + s.pageOffset) s.dataBuf ok) (f + 1) := by
  have hk : (f + 1) / 4 = f / 4 + 1 := by omega
  have hlen := h.length
  refine ⟨⟨h.kept.size, ?_, ?_, ?_, ?_⟩, h.length, ?_⟩
  · simp only [Server.reply, Server.pageWritten, h.kept.offset]
    omega
  · -- The page buffer starts over.
    intro p _
    have hnil : m.image.drop (bufSz * ((f + 1) / 4)) = [] := by
      apply List.drop_eq_nil_of_le
      rw [hlen, maxDataSize, bufSz]
      omega
    simp only [Ledger.store]
    rw [hnil]
    exact Buffer.holds_nil _ _
  · simp only [Ledger.store, List.length_append, List.length_singleton, h.kept.count, hk]
  · intro hpage hle j hj
    have hoff : s.pageOffset = f / 4 := by
      rw [h.kept.offset, Nat.mod_eq_of_lt (by omega)]
    simp only [Ledger.store] at hj ⊢
    by_cases hlt : j < f / 4
    · -- A page from before lies in another sector.
      rw [List.getElem?_append_left (by rw [h.kept.count]; exact hlt)] at hj
      rcases h.kept.flash hpage (by omega) j hj with ⟨q, hq, hholds⟩
      refine ⟨q, ?_, hholds⟩
      rw [hoff, Function.update_of_ne (by omega)]
      exact hq
    · -- The page just written, if the write succeeded.
      rw [List.getElem?_append_right (by rw [h.kept.count]; omega), h.kept.count,
        List.getElem?_singleton] at hj
      by_cases hj' : j - f / 4 = 0
      · rw [if_pos hj', Option.some.injEq] at hj
        have hjf : j = f / 4 := by omega
        rcases Option.isSome_iff_exists.mp (hd hpage) with ⟨q, hq⟩
        refine ⟨q, ?_, ?_⟩
        · rw [hoff, hjf, Function.update_self, hj, if_pos rfl]
          exact hq
        · have hholds := h.kept.page q hq
          rw [← List.take_of_length_le (by
            rw [List.length_drop, hlen, maxDataSize, bufSz]
            omega : (m.image.drop (bufSz * (f / 4))).length ≤ bufSz)] at hholds
          rw [hjf]
          exact hholds
      · rw [if_neg hj'] at hj
        cases hj
  · simp only [Server.reply, Server.pageWritten]
    omega

/-- More bytes of a block: they go behind the ones that are there. -/
theorem Kept.receive {s : Server} {m : Ledger} {b : BlockingRecv} {f : Nat}
    {g : List UInt8} (h : Filling s m b f g) (bytes : List UInt8)
    (hlen : ((bytes.length : Nat) : Int) ≤ b.len - b.offset) :
    Kept { s with dataBuf := s.dataBuf.map (·.store (b.mem + b.offset) bytes) } m (f / 4)
      (m.image ++ (g ++ bytes)) := by
  have himg := h.length
  have hpos := h.position
  have hblen := h.block.len
  have hbmem := h.block.mem
  rw [← List.append_assoc]
  refine ⟨h.kept.size, h.kept.offset, ?_, h.kept.count, ?_⟩
  · intro p hp
    rcases Option.map_eq_some_iff.mp hp with ⟨q, hq, rfl⟩
    have hdrop : ((m.image ++ g).drop (bufSz * (f / 4))).length =
        maxDataSize * (f % 4) + g.length := by
      rw [List.length_drop, List.length_append, himg, maxDataSize, bufSz]
      omega
    have hoff : b.mem + b.offset = ((maxDataSize * (f % 4) + g.length : Nat) : Int) := by
      rw [hbmem, h.packCount, maxDataSize]
      omega
    rw [List.drop_append_of_le_length (by
      rw [List.length_append, himg, maxDataSize, bufSz]
      omega), hoff]
    refine Buffer.holds_append _ _ _ _ (Buffer.holds_store_after _ _ _ _ _ (h.kept.page q hq) ?_) ?_
    · rw [hdrop]
      omega
    · rw [hdrop, Nat.zero_add]
      refine Buffer.holds_store q _ bytes ?_
      rw [maxDataSize] at hblen
      rw [maxDataSize, bufSz]
      omega
  · -- The pages in flash are full and stay what they are.
    intro hpage hk j hj
    rcases h.kept.flash hpage hk j hj with ⟨q, hq, hholds⟩
    have hj' : j < f / 4 := by
      rw [← h.kept.count]
      exact (List.getElem?_eq_some_iff.mp hj).1
    refine ⟨q, hq, ?_⟩
    rw [slice_append (by
      rw [List.length_append, himg, maxDataSize, bufSz]
      omega)]
    exact hholds

section PageBuffer

variable (s : Server)

@[simp] theorem sohLoop_dataBuf : s.sohLoop.dataBuf = s.dataBuf := by
  unfold Server.sohLoop
  split
  · split
    · rfl
    · rfl
  · rfl

@[simp] theorem stxDone_dataBuf : s.stxDone.dataBuf = s.dataBuf := by
  unfold Server.stxDone
  split
  · rfl
  · rfl

@[simp] theorem stxLoop_dataBuf : s.stxLoop.dataBuf = s.dataBuf := by
  unfold Server.stxLoop
  split
  · split
    · rfl
    · exact stxDone_dataBuf _
  · exact stxDone_dataBuf _

@[simp] theorem eotInfo_dataBuf : s.eotInfo.dataBuf.isSome = s.dataBuf.isSome := by
  simp only [Server.eotInfo, Option.isSome_map]

@[simp] theorem dispatch_dataBuf : s.dispatch.dataBuf.isSome = s.dataBuf.isSome := by
  unfold Server.dispatch
  split
  · rw [sohLoop_dataBuf]
  · split
    · rw [stxLoop_dataBuf]
    · split
      · unfold Server.eotStart
        split
        · rfl
        · exact eotInfo_dataBuf s
      · rfl

@[simp] theorem onHeader_dataBuf (r : Recv) :
    (s.onHeader r).dataBuf.isSome = s.dataBuf.isSome := by
  unfold Server.onHeader
  split
  · rfl
  · dsimp only
    split
    · rfl
    · split
      · rfl
      · exact dispatch_dataBuf _

@[simp] theorem onLength_dataBuf (r : Recv) : (s.onLength r).dataBuf = s.dataBuf := by
  unfold Server.onLength
  dsimp only
  split
  · exact sohLoop_dataBuf _
  · split
    · rfl
    · exact sohLoop_dataBuf _

@[simp] theorem onOutcome_dataBuf (o : Outcome) : (s.onOutcome o).dataBuf = s.dataBuf := by
  cases o with
  | running b => rfl
  | returned ret =>
      simp only [Server.onOutcome, Server.onBlock]
      split
      · exact stxLoop_dataBuf _
      · split
        · rfl
        · exact stxLoop_dataBuf _

/-- A reply leaves the page buffer to what follows it. -/
theorem onSent_dataBuf (ret : Int) (k : Server → Server)
    (hk : (k s).dataBuf.isSome = s.dataBuf.isSome) :
    (s.onSent ret k).dataBuf.isSome = s.dataBuf.isSome := by
  unfold Server.onSent
  split
  · rfl
  · exact hk

end PageBuffer

/-- Only the allocation and the release of the page buffer decide whether there is
    one. -/
theorem isSome_step {s t : Server} {a : Answer} (hs : step s a = some t)
    (hm : s.pc ≠ .malloc) (hf : s.pc ≠ .free) : t.dataBuf.isSome = s.dataBuf.isSome := by
  cases step_cases hs with
  | malloc h => exact absurd h hm
  | free h => exact absurd h hf
  | headerRecv _ r _ => exact onHeader_dataBuf s r
  | headerNak _ ret => exact onSent_dataBuf s ret _ (dispatch_dataBuf s)
  | sohRecv _ r _ => rw [onLength_dataBuf]
  | sohNak _ ret => exact onSent_dataBuf s ret _ (by rw [sohLoop_dataBuf])
  | sohAck _ ret => exact onSent_dataBuf s ret _ rfl
  | select _ _ ret => rw [onOutcome_dataBuf]
  | recvfrom _ _ r _ => rw [onOutcome_dataBuf, Option.isSome_map]
  | stxNak _ ret => exact onSent_dataBuf s ret _ (by rw [stxLoop_dataBuf])
  | stxAck _ ret => exact onSent_dataBuf s ret _ rfl
  | eotWrite _ ok => exact eotInfo_dataBuf _
  | _ => rfl

/-- The onlooker's note about the page buffer changes only with a new connection
    and with the allocation. -/
theorem note_page (m : Ledger) (e : Call × Answer) (ha : e.1 ≠ .accept) (hm : e.1 ≠ .malloc) :
    (m.note e).page = m.page := by
  unfold Ledger.note
  -- One case for each kind of entry; all but the first two leave the note alone.
  split
  · rename_i h
    exact absurd h ha
  · rename_i h _
    exact absurd h hm
  · split
    · rfl
    · rfl
  · unfold Ledger.length
    split
    · rfl
    · split
      · rfl
      · rfl
  · rfl
  · split
    · rfl
    · rfl
  · unfold Ledger.block
    split
    · rfl
    · split
      · rfl
      · rfl
  · rfl
  · rfl
  · rfl

theorem call_ne_of_pc {s : Server} (ha : s.pc ≠ .accept) (hm : s.pc ≠ .malloc) :
    s.call ≠ .accept ∧ s.call ≠ .malloc := by
  cases h : s.pc with
  | accept => exact absurd h ha
  | malloc => exact absurd h hm
  | stxRecv b => cases hb : b.pc <;> simp [Server.call, h, hb]
  | _ => simp [Server.call, h]

theorem pageKnown_step {s t : Server} {m : Ledger} {a : Answer} (h : PageKnown s m)
    (hs : step s a = some t) : PageKnown t (m.note (observe s a)) := by
  intro ht hpage
  by_cases ha : s.pc = .accept
  · have hcall : s.call = .accept := by simp only [Server.call, ha]
    rw [observe, hcall] at hpage
    cases hpage
  · by_cases hm : s.pc = .malloc
    · rcases step_malloc hm hs with ⟨p, rfl, rfl⟩
      have hcall : s.call = .malloc := by simp only [Server.call, hm]
      rw [observe, hcall] at hpage
      exact hpage
    · by_cases hf : s.pc = .free
      · rcases step_free hf hs with ⟨-, rfl⟩
        exact absurd rfl ht
      · rcases call_ne_of_pc ha hm with ⟨hca, hcm⟩
        rw [note_page m (observe s a) hca hcm] at hpage
        rw [isSome_step hs hm hf]
        exact h ha hpage

/-- Behind the length, complete or not: a complete one is a new account. -/
theorem accountInv_sohDone {s : Server} {m : Ledger} (h : m.intact = true →
    m.announced = some (rbigu4 s.buf).toNat ∧ m.image = [] ∧ m.stores = []) :
    AccountInv s.sohDone m := by
  intro hi _
  rcases h hi with ⟨ha, himg, hst⟩
  refine ⟨0, ⟨ha, rfl, fun p _ => ?_, ?_, fun _ _ j hj => ?_⟩, ?_, rfl⟩
  · rw [himg, List.drop_nil]
    exact Buffer.holds_nil _ _
  · rw [hst]
    rfl
  · rw [hst] at hj
    cases hj
  · rw [himg]
    rfl

/-- What a receive of the length adds to the ledger: nothing that could be relied
    on, or more bytes, or the last of them. -/
theorem note_length {s : Server} {m : Ledger} (r : Recv) (hpc : s.pc = .sohRecv)
    (hi : m.intact = false) :
    ((m.note (observe s (.received r))).intact = false ∧
      ∀ g, (m.note (observe s (.received r))).got = some g → 0 ≤ r.ret ∧
        ∃ g', m.got = some g' ∧ g = g' ++ r.bytes) ∨
    (∃ g, m.got = some g ∧ (g ++ r.bytes).length = 4 ∧
      m.note (observe s (.received r)) = { m with
        announced := some (beValue (g ++ r.bytes))
        intact := true
        image := []
        stores := []
        flash := fun _ => none
        got := none }) := by
  have hcall : s.call = .recvLength s.dataIndex (4 - s.dataIndex) := by
    simp only [Server.call, hpc]
  rw [observe, hcall]
  cases r with
  | closed => exact Or.inl ⟨hi, fun g hg => ⟨le_refl 0, g, hg, (List.append_nil g).symm⟩⟩
  | error e => exact Or.inl ⟨rfl, fun g hg => by cases hg⟩
  | data b bs =>
      simp only [Ledger.note, Recv.bytes, Ledger.length]
      -- Bytes count only behind an `SOH`, and only the fourth of them completes a length.
      cases hg : m.got with
      | none =>
          refine Or.inl ⟨hi, fun g hg' => ?_⟩
          simp only [hg] at hg'
          cases hg'
      | some g =>
          by_cases hfull : (g ++ b :: bs).length = 4
          · exact Or.inr ⟨g, rfl, hfull, if_pos hfull⟩
          · simp only [if_neg hfull]
            refine Or.inl ⟨hi, fun g' hg' => ?_⟩
            rw [Option.some.injEq] at hg'
            exact ⟨by simp only [Recv.ret]; omega, g, rfl, hg'.symm⟩

/-- A piece of the length behind the ones that are there. -/
theorem holds_piece {b : Buffer UInt8 4} {g : List UInt8} {d : Int} {r : Recv}
    (h : b.Holds 0 g) (hd : d = g.length) (hpos : 0 ≤ r.ret) (hle : d + r.ret ≤ 4) :
    (b.store d r.bytes).Holds 0 (g ++ r.bytes) ∧ d + r.ret = (g ++ r.bytes).length := by
  have hret := Recv.bytes_length_of_pos r hpos
  refine ⟨Buffer.holds_behind h hd (by omega), ?_⟩
  rw [List.length_append]
  omega

/-- The length loop: the bytes received so far are in the length buffer, in order. -/
theorem accountInv_onLength {s : Server} {m : Ledger} {r : Recv} (hpc : s.pc = .sohRecv)
    (h : AccountInv s m) :
    AccountInv (s.onLength r) (m.note (observe s (.received r))) := by
  simp only [AccountInv, hpc] at h
  rcases h with ⟨hd, hi, hg⟩
  rcases note_length r hpc hi with ⟨hi', hgot⟩ | ⟨g, hmg, hfull, hm⟩
  · -- Not complete, or not to be relied on.
    have hvoid : (m.note (observe s (.received r))).intact = true → False := fun hc => by
      rw [hi'] at hc
      cases hc
    rcases onLength_cases s r hd with ⟨-, hlt, hon⟩ | ⟨-, -, hon⟩ | ⟨hk, -, hon⟩ | ⟨-, -, hon⟩
    · rw [hon]
      refine ⟨hlt, hi', fun g hg' => ?_⟩
      rcases hgot g hg' with ⟨hpos, g', hmg, rfl⟩
      rcases hg g' hmg with ⟨hholds, hidx⟩
      exact holds_piece hholds hidx hpos (by omega)
    · rw [hon]
      exact accountInv_sohDone fun hc => absurd hc hvoid
    · rw [hon]
      exact ⟨hk, fun hc => absurd hc hvoid⟩
    · rw [hon]
      exact accountInv_sohDone fun hc => absurd hc hvoid
  · -- The fourth byte: the number in the buffer is the one announced.
    rcases hg g hmg with ⟨hholds, hidx⟩
    have hpos : 0 ≤ r.ret := by
      by_contra hneg
      have hnil : r.bytes = [] := Recv.bytes_of_neg r (by omega)
      rw [hnil, List.append_nil] at hfull
      omega
    have hret := Recv.bytes_length_of_pos r hpos
    rw [List.length_append] at hfull
    rcases holds_piece hholds hidx hpos (by omega) with ⟨hholds', hidx'⟩
    have hval := toNat_rbigu4 hholds' (by rw [List.length_append]; exact hfull)
    rw [hm]
    rcases onLength_cases s r hd with ⟨-, hlt, -⟩ | ⟨-, -, hon⟩ | ⟨hk, -, hon⟩ | ⟨-, hz, -⟩
    · omega
    · rw [hon]
      exact accountInv_sohDone fun _ => ⟨congrArg some hval.symm, rfl, rfl⟩
    · have hge : 4 ≤ s.dataIndex + r.ret := by omega
      rw [hon]
      exact ⟨hk, fun _ => ⟨congrArg some hval.symm, hge, rfl, rfl⟩⟩
    · omega

theorem Unsettled.congr {s t : Server} {m : Ledger} {f : Nat} (h : Unsettled s m f)
    (he : SameImage s t) : Unsettled t m f := ⟨h.kept.congr he, h.length⟩

/-- The result of `blocking_lwip_recv`, the account being whatever it is: only a
    block that is complete has to be accounted for. -/
theorem accountInv_onBlock {s : Server} {m : Ledger} {ret : Int} (hd : s.dataIndex < maxDataSize)
    (hmore : m.intact = true → s.dataIndex + ret < maxDataSize → ∃ f g, Filling
      { s with
        dataIndex := s.dataIndex + ret
        retry := s.retry - 1
        pc := .stxRecv (blockingLwipRecv (s.packCount * maxDataSize + (s.dataIndex + ret))
          (maxDataSize - (s.dataIndex + ret))) } m
      (blockingLwipRecv (s.packCount * maxDataSize + (s.dataIndex + ret))
        (maxDataSize - (s.dataIndex + ret))) f g)
    (hdone : m.intact = true → m.got = none → maxDataSize ≤ s.dataIndex + ret ∧
      ∃ f, Unsettled s m f ∧ s.packCount = f % 4) : AccountInv (s.onBlock ret) m := by
  -- The loop goes round, or ends with the block, with a `NAK`, or without a retry.
  rcases onBlock_cases s ret hd with ⟨-, hlt, hon⟩ | ⟨-, -, hon⟩ | ⟨hk, -, hon⟩ | ⟨hk, -, hon⟩
  · rw [hon]
    exact ⟨hlt, fun hi => hmore hi hlt⟩
  · rw [hon]
    refine accountInv_stxDone fun hi hg => ?_
    rcases (hdone hi hg).2 with ⟨f, hu, hp⟩
    exact ⟨f, hu.congr ⟨rfl, rfl, rfl⟩, hp⟩
  · rw [hon]
    refine ⟨hk, fun hi hg => ?_⟩
    rcases hdone hi hg with ⟨hge, f, hu, hp⟩
    exact ⟨hge, f, hu.congr ⟨rfl, rfl, rfl⟩, hp⟩
  · rw [hon]
    refine accountInv_stxDone fun hi hg => ?_
    rcases (hdone hi hg).2 with ⟨f, hu, hp⟩
    exact ⟨f, hu.congr ⟨rfl, rfl, rfl⟩, hp⟩

/-- A select inside a block. A time-out starts a new call of `blocking_lwip_recv`
    where this one ends. -/
theorem accountInv_select {s : Server} {m : Ledger} {b : BlockingRecv} {ret : Int}
    (hpc : s.pc = .stxRecv b) (hb : b.pc = .select) (h : AccountInv s m) :
    AccountInv (s.onOutcome (b.onSelect ret)) (m.note (observe s (.selected ret))) := by
  have hcall : s.call = .select := by simp only [Server.call, hpc, hb]
  simp only [AccountInv, hpc] at h
  rcases h with ⟨hd, hfill⟩
  rw [observe, hcall]
  simp only [Ledger.note]
  rcases onSelect_cases b ret with ⟨hz, ho⟩ | ⟨hneg, ho⟩ | ⟨hpos, ho⟩
  · rw [ho, if_neg (by omega)]
    refine accountInv_onBlock hd (fun hi hlt => ?_) (fun hi hg => ?_)
    · rcases hfill hi with ⟨f, g, hf⟩
      refine ⟨f, g, hf.got, inBlock_next s _ _ hlt, hf.kept.congr ⟨rfl, rfl, rfl⟩, hf.length,
        hf.packCount, ?_⟩
      simp only [blockingLwipRecv, add_zero]
      exact hf.position
    · rcases hfill hi with ⟨f, g, hf⟩
      rw [hf.got] at hg
      cases hg
  · -- The account ends here.
    rw [ho, if_pos hneg]
    exact accountInv_onBlock hd (fun hi => by cases hi) (fun hi => by cases hi)
  · rw [ho, if_neg (by omega)]
    refine ⟨hd, fun hi => ?_⟩
    rcases hfill hi with ⟨f, g, hf⟩
    exact ⟨f, g, hf.got, ⟨rfl, hf.block.mem, hf.block.len, hd, hf.block.offset, hf.block.more⟩,
      hf.kept.congr ⟨rfl, rfl, rfl⟩, hf.length, hf.packCount, hf.position⟩

theorem note_block {m : Ledger} {r : Recv} {off len : Int} (h : 0 < r.ret) :
    m.note (.recvPage off len, .received r) = m.block r.bytes := by
  cases r with
  | data x bs => rfl
  | closed => exact absurd h (lt_irrefl _)
  | error e =>
      simp only [Recv.ret] at h
      omega

theorem block_intact (m : Ledger) (bytes : List UInt8) : (m.block bytes).intact = m.intact := by
  unfold Ledger.block
  split
  · rfl
  · split
    · rfl
    · rfl

theorem block_full {m : Ledger} {g bytes : List UInt8} (hg : m.got = some g)
    (h : (g ++ bytes).length = maxDataSize) :
    m.block bytes = { m with image := m.image ++ (g ++ bytes), got := none } := by
  simp only [Ledger.block, hg, if_pos h]

theorem block_part {m : Ledger} {g bytes : List UInt8} (hg : m.got = some g)
    (h : (g ++ bytes).length ≠ maxDataSize) :
    m.block bytes = { m with got := some (g ++ bytes) } := by
  simp only [Ledger.block, hg, if_neg h]

/-- A receive inside a block. -/
theorem accountInv_recvfrom {s : Server} {m : Ledger} {b : BlockingRecv} {r : Recv}
    (hpc : s.pc = .stxRecv b) (hb : b.pc = .recvfrom) (hr : r.ret ≤ b.len - b.offset)
    (h : AccountInv s m) :
    AccountInv (Server.onOutcome
        { s with dataBuf := s.dataBuf.map (·.store (b.mem + b.offset) r.bytes) } (b.onRecvfrom r))
      (m.note (observe s (.received r))) := by
  have hcall : s.call = .recvPage (b.mem + b.offset) (b.len - b.offset) := by
    simp only [Server.call, hpc, hb]
  simp only [AccountInv, hpc] at h
  rcases h with ⟨hd, hfill⟩
  rw [observe, hcall]
  rcases onRecvfrom_cases b r with ⟨hret, e, -, ho⟩ | ⟨hpos, hfull, ho⟩ | ⟨hpos, hpart, ho⟩
  · -- The account ends here.
    have hfail :
        m.note (.recvPage (b.mem + b.offset) (b.len - b.offset), .received r) = m.fail := by
      cases r with
      | data x bs =>
          rw [Recv.ret_data, List.length_cons] at hret
          omega
      | closed => rfl
      | error e => rfl
    rw [ho, hfail]
    exact accountInv_onBlock hd (fun hi => by cases hi) (fun hi => by cases hi)
  · -- The block is complete and becomes part of the image.
    have hlen := Recv.bytes_length_of_pos r (le_of_lt hpos)
    have hblen : m.intact = true → b.len = maxDataSize - s.dataIndex := fun hi => by
      rcases hfill hi with ⟨f, g, hf⟩
      exact hf.block.len
    rw [ho, note_block hpos]
    refine accountInv_onBlock hd (fun hi hlt => ?_) (fun hi _ => ?_)
    · rw [block_intact] at hi
      have hb' := hblen hi
      simp only at hlt
      omega
    · rw [block_intact] at hi
      rcases hfill hi with ⟨f, g, hf⟩
      have hb' := hblen hi
      have hpos' := hf.position
      have hk := Kept.receive hf r.bytes (by omega)
      have hcount : (g ++ r.bytes).length = maxDataSize := by
        rw [List.length_append]
        omega
      rw [block_full hf.got hcount]
      refine ⟨by simp only; omega, f, ⟨⟨hk.size, hk.offset, hk.page, hk.count, hk.flash⟩, ?_⟩,
        hf.packCount⟩
      rw [List.length_append, hf.length, hcount, maxDataSize]
      omega
  · -- More of it to come.
    have hlen := Recv.bytes_length_of_pos r (le_of_lt hpos)
    rw [ho, note_block hpos]
    refine ⟨hd, fun hi => ?_⟩
    rw [block_intact] at hi
    rcases hfill hi with ⟨f, g, hf⟩
    have hb' := hf.block.len
    have hpos' := hf.position
    have hoff := hf.block.offset
    have hk := Kept.receive hf r.bytes (by omega)
    have hcount : (g ++ r.bytes).length ≠ maxDataSize := by
      rw [List.length_append]
      omega
    rw [block_part hf.got hcount]
    refine ⟨f, g ++ r.bytes, rfl, ⟨rfl, hf.block.mem, hf.block.len, hd, ?_, ?_⟩,
      ⟨hk.size, hk.offset, hk.page, hk.count, hk.flash⟩, hf.length, hf.packCount, ?_⟩
    · simp only
      omega
    · simp only
      omega
    · simp only [Server.onOutcome, List.length_append]
      omega

/-- A header that is not accepted leaves no note. -/
theorem note_header_refused {s : Server} {m : Ledger} {r : Recv} (hpc : s.pc = .headerRecv)
    (h : s.index = 0 → ∀ x, ¬ Accepted (.received r) x) :
    m.note (observe s (.received r)) = m := by
  have hcall : s.call = .recvHeader s.index (headerLen - s.index) := by
    simp only [Server.call, hpc]
  rw [observe, hcall]
  unfold Ledger.note
  split
  · rename_i hc
    cases hc
  · rename_i hc _
    cases hc
  · rename_i off len x y z hc ha
    cases hc
    cases ha
    exact if_neg fun hok => h hok.1 x ⟨y, z, rfl, hok.2⟩
  all_goals first | rfl | (rename_i hc _; cases hc)

theorem note_header_accepted {s : Server} {m : Ledger} {x y z : UInt8} (hpc : s.pc = .headerRecv)
    (h0 : s.index = 0) (hsum : y.toNat + z.toNat = 0xff) :
    m.note (observe s (.received (.data x [y, z]))) = m.header x := by
  have hcall : s.call = .recvHeader s.index (headerLen - s.index) := by
    simp only [Server.call, hpc]
  rw [observe, hcall]
  exact if_pos ⟨h0, hsum⟩

theorem header_eot {m : Ledger} (h : m.Complete) : m.header eot = m := by
  rcases h with ⟨-, hi, hg, -⟩
  cases m with
  | mk page announced intact image stores flash got =>
      simp only at hi hg
      subst hi hg
      rfl

/-- An accepted header, by its frame byte. -/
theorem accountInv_header {s : Server} {m : Ledger} {x y z : UInt8}
    (h : m.intact = true → m.got = none → ∃ f, Settled s m f)
    (hd : m.page = true → s.dataBuf.isSome) (heot : x = eot → m.Complete) :
    AccountInv (afterHeader s x y z) (m.header x) := by
  by_cases hsoh : x = soh
  · -- A new length makes the image before it worthless.
    subst hsoh
    rw [afterHeader_soh]
    refine ⟨by simp only; omega, ?_, fun g hg => ?_⟩
    · simp only [Ledger.header, bne_self_eq_false, Bool.and_false]
    · cases hg
      exact ⟨Buffer.holds_nil _ _, rfl⟩
  · have hintact : (m.header x).intact = true → m.intact = true ∧ m.got = none := by
      intro hi
      simp only [Ledger.header, Bool.and_eq_true, Option.isNone_iff_eq_none] at hi
      exact hi.1
    by_cases hstx : x = stx
    · subst hstx
      rw [afterHeader_stx]
      refine ⟨by simp only [maxDataSize]; omega, fun hi => ?_⟩
      rcases hintact hi with ⟨hi', hg⟩
      rcases h hi' hg with ⟨f, hs⟩
      have hk := hs.kept.header stx
      refine ⟨f, [], rfl, inBlock_next { s with
        headerBuf := s.headerBuf.store 0 [stx, y, z], index := headerLen } 0 19 (by decide),
        ?_, hs.length, hs.packCount, rfl⟩
      rw [List.append_nil]
      exact hk.congr ⟨rfl, rfl, rfl⟩
    · by_cases heq : x = eot
      · -- By assumption an `EOT` comes only behind a complete image.
        subst heq
        have hc := heot rfl
        have hsame : m.header eot = m := header_eot hc
        rcases h hc.2.1 hc.2.2.1 with ⟨f, hs⟩
        rw [hsame, afterHeader_eot]
        exact accountInv_eotStart (hs.congr ⟨rfl, rfl, rfl⟩ rfl) hc (hd hc.1)
      · have hnext : afterHeader s x y z = Server.nextFrame
            { s with headerBuf := s.headerBuf.store 0 [x, y, z], index := headerLen } :=
          (if_neg hsoh).trans ((if_neg hstx).trans (if_neg heq))
        rw [hnext]
        intro hi _
        rcases hintact hi with ⟨hi', hg⟩
        rcases h hi' hg with ⟨f, hs⟩
        exact ⟨f, (hs.kept.header x).congr ⟨rfl, rfl, rfl⟩, hs.length, hs.packCount⟩

theorem accountInv_onHeader {s : Server} {m : Ledger} {r : Recv} (hpc : s.pc = .headerRecv)
    (hr : r.ret ≤ headerLen - s.index) (h : AccountInv s m)
    (hd : m.page = true → s.dataBuf.isSome) (hG : Committable (s, m) (.received r)) :
    AccountInv (s.onHeader r) (m.note (observe s (.received r))) := by
  simp only [AccountInv, hpc] at h
  -- Unless the header is accepted, the note is empty and the variables stay as they are.
  rcases onHeader_cases s r hr with
    ⟨hneg, hon⟩ | ⟨hpos, hlt, hon⟩ | ⟨-, hidx, hbad, hon⟩ | ⟨x, y, z, rfl, hz, hsum, hon⟩
  · rw [note_header_refused hpc (fun _ x ha => ?_), hon]
    · simp only [AccountInv, hpc]
      exact h
    · rcases ha with ⟨y, z, ha, -⟩
      cases ha
      simp only [Recv.ret] at hneg
      omega
  · rw [note_header_refused hpc (fun hz x ha => ?_), hon]
    · simp only [AccountInv, hpc]
      intro hi hg
      rcases h hi hg with ⟨f, hs⟩
      exact ⟨f, hs.congr ⟨rfl, rfl, rfl⟩ rfl⟩
    · rcases ha with ⟨y, z, ha, -⟩
      cases ha
      simp only [Recv.ret, List.length_cons, List.length_nil, headerLen] at hlt
      omega
  · rw [note_header_refused hpc (fun hz x ha => ?_), hon]
    · refine ⟨rfl, fun hi hg => ?_⟩
      rcases h hi hg with ⟨f, hs⟩
      exact ⟨f, hs.congr ⟨rfl, rfl, rfl⟩ rfl⟩
    · rcases ha with ⟨y, z, ha, hsum⟩
      cases ha
      rw [hz] at hbad
      rcases hbad with hlen | hfalse
      · exact hlen rfl
      · rw [Recv.bytes, headerSum_store, hsum] at hfalse
        cases hfalse
  · rw [note_header_accepted hpc hz hsum, hon]
    refine accountInv_header h hd fun hx => ?_
    have hG' : s.index = 0 → y.toNat + z.toNat = 0xff → x = eot → m.Complete := by
      simpa only [Committable, hpc] using hG
    exact hG' hz hsum hx

/-- The reply of a step that goes on only if it could be sent. Leaving the loop
    ends the account. -/
theorem accountInv_onSent {s : Server} {m : Ledger} {ret : Int} (k : Server → Server)
    (h : AccountInv (k s) m) : AccountInv (s.onSent ret k) m := by
  unfold Server.onSent
  by_cases hlt : ret < 0
  · rw [if_pos hlt]
    trivial
  · rw [if_neg hlt]
    exact h

/-- One step of a committable run preserves what the account says. -/
theorem accountInv_step {s t : Server} {m : Ledger} {a : Answer} (hp : PageKnown s m)
    (h : AccountInv s m) (hG : Committable (s, m) a) (hs : step s a = some t) :
    AccountInv t (m.note (observe s a)) := by
  have hd : s.pc ≠ .accept → m.page = true → s.dataBuf.isSome := hp
  cases step_cases hs with
  | accept hpc fd =>
      have hcall : s.call = .accept := by simp only [Server.call, hpc]
      rw [observe, hcall]
      exact (rfl : ({} : Ledger).intact = false)
  | mutexTake hpc =>
      have hcall : s.call = .mutexTake := by simp only [Server.call, hpc]
      rw [observe, hcall]
      simp only [AccountInv, hpc] at h
      exact h
  | malloc hpc p =>
      have hcall : s.call = .malloc := by simp only [Server.call, hpc]
      rw [observe, hcall]
      simp only [AccountInv, hpc] at h
      intro hi
      have hi' : m.intact = true := hi
      rw [h] at hi'
      cases hi'
  | headerRecv hpc r hr => exact accountInv_onHeader hpc hr h (hd (by rw [hpc]; decide)) hG
  | headerNak hpc ret =>
      have hcall : s.call = .send (s.headerBuf 0) := by simp only [Server.call, hpc]
      rw [observe, hcall]
      simp only [AccountInv, hpc] at h
      refine accountInv_onSent _ ?_
      -- The reply has taken the place of the frame byte, so no branch is taken.
      have hnext : s.dispatch = s.nextFrame := by
        simp only [Server.dispatch, h.1]
        rfl
      rw [hnext]
      intro hi hg
      rcases h.2 hi hg with ⟨f, hf⟩
      exact ⟨f, hf.congr ⟨rfl, rfl, rfl⟩ rfl⟩
  | sohRecv hpc r hr => exact accountInv_onLength hpc h
  | sohNak hpc ret =>
      have hcall : s.call = .send (s.headerBuf 0) := by simp only [Server.call, hpc]
      rw [observe, hcall]
      simp only [AccountInv, hpc] at h
      refine accountInv_onSent _ ?_
      rcases Server.sohLoop_of_retry h.1 with ⟨k, hv⟩
      rw [hv]
      refine accountInv_sohDone fun hi => ?_
      rcases h.2 hi with ⟨ha, -, himg, hst⟩
      exact ⟨ha, himg, hst⟩
  | sohAck hpc ret =>
      have hcall : s.call = .send (s.headerBuf 0) := by simp only [Server.call, hpc]
      rw [observe, hcall]
      simp only [AccountInv, hpc] at h
      refine accountInv_onSent _ fun hi hg => ?_
      rcases h hi hg with ⟨f, hf⟩
      exact ⟨f, hf.congr ⟨rfl, rfl, rfl⟩ rfl⟩
  | select hpc hb ret => exact accountInv_select hpc hb h
  | recvfrom hpc hb r hr => exact accountInv_recvfrom hpc hb hr h
  | stxNak hpc ret =>
      have hcall : s.call = .send (s.headerBuf 0) := by simp only [Server.call, hpc]
      rw [observe, hcall]
      simp only [AccountInv, hpc] at h
      refine accountInv_onSent _ ?_
      rcases Server.stxLoop_of_retry h.1 with ⟨k, hv⟩
      rw [hv]
      refine accountInv_stxDone fun hi hg => ?_
      rcases h.2 hi hg with ⟨-, f, hu, hf⟩
      exact ⟨f, hu.congr ⟨rfl, rfl, rfl⟩, hf⟩
  | stxWrite hpc ok =>
      have hcall : s.call = .write (updateDataAddr + s.pageOffset) s.dataBuf := by
        simp only [Server.call, hpc]
      rw [observe, hcall]
      simp only [AccountInv, hpc] at h
      intro hi hg
      rcases h hi hg with ⟨f, hu, hf, hpack⟩
      exact ⟨f + 1, settled_stxWrite ok hu hf hpack (hd (by rw [hpc]; decide))⟩
  | stxAck hpc ret =>
      have hcall : s.call = .send (s.headerBuf 0) := by simp only [Server.call, hpc]
      rw [observe, hcall]
      simp only [AccountInv, hpc] at h
      refine accountInv_onSent _ fun hi hg => ?_
      rcases h hi hg with ⟨f, hf⟩
      exact ⟨f, hf.congr ⟨rfl, rfl, rfl⟩ rfl⟩
  | eotWrite hpc ok =>
      have hcall : s.call = .write (updateDataAddr + s.pageOffset) s.dataBuf := by
        simp only [Server.call, hpc]
      rw [observe, hcall]
      simp only [AccountInv, hpc] at h
      simp only [Committable, hpc] at hG
      rcases h with ⟨hc, f, hk, hlen, hf⟩
      exact accountInv_eotWrite hc hk hlen hf (hd (by rw [hpc]; decide) hc.1) hG
  | close hpc =>
      unfold Server.closed
      cases s.dataBuf.isSome
      · trivial
      · trivial
  | _ => trivial

theorem commitInv_step (w : Account) (a : Answer) (w' : Account) (h : CommitInv w)
    (hG : Committable w a) (hs : accountStep w a = some w') : CommitInv w' := by
  rcases Option.map_eq_some_iff.mp hs with ⟨t, ht, rfl⟩
  exact ⟨pageKnown_step h.1 ht, accountInv_step h.1 h.2 hG ht⟩

/-- Only one call writes the information sector: the data sectors begin behind it. -/
theorem call_info {s : Server} {info : Option Page} (h : s.call = .write updateInfoAddr info) :
    s.pc = .eotInfo ∧ info = s.dataBuf := by
  have hne : ∀ k : Nat, updateDataAddr + k ≠ updateInfoAddr := fun k => by
    rw [updateDataAddr, updateInfoAddr]
    omega
  unfold Server.call at h
  split at h
  case h_9 b hpc =>
    split at h
    · cases h
    · cases h
  case h_11 hpc =>
    rw [Call.write.injEq] at h
    exact absurd h.1 (hne _)
  case h_13 hpc =>
    rw [Call.write.injEq] at h
    exact absurd h.1 (hne _)
  case h_14 hpc =>
    rw [Call.write.injEq] at h
    exact ⟨hpc, h.2.symm⟩
  all_goals cases h

/-- In every run in which an `EOT` header arrives only for a complete image, the
    information sector is written only for a complete image. -/
theorem run_justified {s t : Server} {as : List Answer} (h : s.pc = .accept)
    (hG : Along accountStep Committable (s, {}) as) (hr : run step s as = some t) :
    CommitSafe t (ledger s as) := by
  have h0 : CommitInv (s, {}) := by
    refine ⟨fun hne => absurd h hne, ?_⟩
    simp only [AccountInv, h]
  have hrun := run_watched step observe Ledger.note hr {}
  have hinv := run_invariant_along accountStep Committable CommitInv commitInv_step h0 hG hrun
  intro info hcall
  rcases call_info hcall with ⟨hpc, rfl⟩
  have hacc : AccountInv t (ledger s as) := hinv.2
  simp only [AccountInv, hpc] at hacc
  exact hacc

/-- An image of one byte, up to its `EOT` header. -/
def oneByteImage : List Answer :=
  [.accepted 3, .done, .allocated (some fun _ => 0), .received (.data soh [0, 255]),
    .received (.data 0 [0, 0, 1]), .sent 1, .received (.data stx [1, 254]), .selected 1,
    .received (.data 7 (List.replicate 1023 0xff)), .sent 1, .received (.data eot [2, 253]),
    .stored true]

-- The block is a list of 1024 elements, and evaluating its length is a recursion over it.
set_option maxRecDepth 20000 in
theorem run_justified_oneByteImage : ∃ t, run step bootServer oneByteImage = some t ∧
    CommitSafe t (ledger bootServer oneByteImage) := by
  refine ⟨_, rfl, @run_justified bootServer _ oneByteImage rfl ?_ rfl⟩
  refine along_cons accountStep rfl trivial (along_cons accountStep rfl trivial ?_)
  refine along_cons accountStep rfl trivial (along_cons accountStep rfl ?_ ?_)
  · intro _ _ hx
    exact absurd hx (by decide)
  refine along_cons accountStep rfl trivial (along_cons accountStep rfl trivial ?_)
  refine along_cons accountStep rfl ?_ ?_
  · intro _ _ hx
    exact absurd hx (by decide)
  refine along_cons accountStep rfl trivial (along_cons accountStep rfl trivial ?_)
  refine along_cons accountStep rfl trivial ?_
  refine along_cons accountStep rfl ?_ (along_cons accountStep rfl (Or.inl rfl) trivial)
  intro _ _ _
  refine ⟨rfl, rfl, rfl, by decide, 1, by decide, by decide, fun j hj => ?_⟩
  exact fun hc => by cases hc

/-- A client that connects and sends an `EOT` header and nothing else: the
    information sector is about to be written for an image nobody has sent. -/
theorem not_justified_without_length :
    ¬ ∀ (s t : Server) (as : List Answer), Booted s → run step s as = some t →
      CommitSafe t (ledger s as) := by
  intro h
  have hsafe := h bootServer _ [.accepted 3, .done, .allocated (some fun _ => 0),
    .received (.data eot [1, 254])] booted_bootServer rfl
  rcases hsafe _ rfl with ⟨n, -, hn, -⟩
  cases hn

end Update

end Firmware
