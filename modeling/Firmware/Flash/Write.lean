import Firmware.Flash.Erase

/-!
# Writing and Reading

`page256_or_1_byte_write`, `aai_write`, `sfud_write`, `sfud_erase_write` and `sfud_read`
from `sfud/src/sfud.c`.

A page program must not reach beyond its page, or it would wrap around and spoil the
beginning of it. The driver cuts what it writes at the page boundaries. A chip with the
auto-increment mode takes two bytes at a time from an even address on, so a first byte
at an odd address and a last one that has no partner are programmed alone. Either way
the cells get the data and-ed onto them, from the first byte on, and over the cells that
`sfud_erase` has erased this is a store.

`ends_sfudEraseWrite` is the contract of the driver. With any chip, any link and any
stretch, either the stretch holds the data, the rest of the touched blocks is erased,
nothing else has changed and the chip is ready for the next call; or an error is
returned, the link has failed, and nothing outside the touched blocks has changed.

## Main definitions

* `PartlyProgrammed`: The beginning of some data has been programmed.
* `stored`: The contents behind a successful `sfud_erase_write`.
* `Writable`: The write modes the driver has code for.

## Theorems

* `ends_page256Loop`: Cutting at the page boundaries does not show.
* `ends_aaiLoop`: Nor does cutting into words.
* `ends_sfudWrite`: A write programs the data.
* `ends_sfudEraseWrite`: The contract of the driver.
* `ends_sfudRead`: A read returns the contents.
-/

namespace Firmware

namespace Flash

/-- The data up to some byte has been programmed, and no more. -/
def PartlyProgrammed (m : Nor.Cells) (addr : Nat) (data : List UInt8) (m' : Nor.Cells) : Prop :=
  ∃ k, k ≤ data.length ∧ m' = Nor.program m addr (data.take k)

/-- The contents behind a successful `sfud_erase_write`: the touched blocks are erased and
    the data is in its place. -/
def stored (g : Nat) (m : Nor.Cells) (addr : Nat) (data : List UInt8) : Nor.Cells :=
  Nor.overwrite (Nor.erase m (Nor.down g addr) (Nor.up g (addr + data.length))) addr data

/-- The write modes `sfud_write` has code for. -/
def SfudFlash.Writable (f : SfudFlash) : Prop :=
  f.writeMode.testBit wmPage256b = true ∨ f.writeMode.testBit wmAai = true

section Programming

variable {f : SfudFlash} {p : Part} {l : Link} {m : Nor.Cells} {G : Prop} {addr : Nat}
  {data : List UInt8} {behind : Nat → UInt8}

theorem partlyProgrammed_none (m : Nor.Cells) (addr : Nat) (data : List UInt8) :
    PartlyProgrammed m addr data m :=
  ⟨0, Nat.zero_le _, by rw [List.take_zero, Nor.program_nil]⟩

/-- What is programmed behind the first `n` bytes goes on with them. -/
theorem partlyProgrammed_drop {n : Nat} (hn : n ≤ data.length) {m' : Nor.Cells}
    (h : PartlyProgrammed (Nor.program m addr (data.take n)) (addr + n) (data.drop n) m') :
    PartlyProgrammed m addr data m' := by
  rcases h with ⟨k, hk, rfl⟩
  rw [List.length_drop] at hk
  refine ⟨n + k, by omega, ?_⟩
  have hlen : (data.take n).length = n := by rw [List.length_take]; omega
  have happend := Nor.program_append m addr (data.take n) ((data.drop n).take k)
  rw [hlen, ← List.take_add] at happend
  exact happend

theorem program_drop {n : Nat} (hn : n ≤ data.length) :
    Nor.program (Nor.program m addr (data.take n)) (addr + n) (data.drop n) =
      Nor.program m addr data := by
  have hlen : (data.take n).length = n := by rw [List.length_take]; omega
  have happend := Nor.program_append m addr (data.take n) (data.drop n)
  rwa [hlen, List.take_append_drop] at happend

/-- One page program, within a page. -/
theorem ends_programTurn (hd : Describes f p) (haddr : addr < p.capacity)
    (hfits : addr % 256 + data.length ≤ 256) (hG : G → l.Clean f.retryTimes)
    (hr : Ready m l.chip) :
    Ends (operation p f.retryTimes (cmdPageProgram :: (f.makeAdressByteArray addr ++ data))) l
      (fun _ l' => (G → l'.Clean f.retryTimes) ∧ Ready (Nor.program m addr data) l'.chip)
      (fun _ l' => ¬ G ∧ (l'.chip.mem = m ∨ l'.chip.mem = Nor.program m addr data)) := by
  refine ends_operation (fun c d hc hw => ?_) hG hr
  exact accept_pageProgram hc hw (makeAdressByteArray_length hd.fourByte addr)
    (addressOf_makeAdressByteArray hd.fourByte (lt_of_lt_of_le haddr hd.addressable)) hfits

/-- The loop cuts the data at the page boundaries, and programs all of it. -/
theorem ends_page256Loop (hd : Describes f p) {gran fuel : Nat} (hgran : gran = 1 ∨ gran = 256)
    (hfuel : data.length ≤ fuel) (hbound : addr + data.length ≤ p.capacity)
    (hG : G → l.Clean f.retryTimes) (hr : Ready m l.chip) :
    Ends (f.page256Loop p gran fuel addr data) l
      (fun _ l' => (G → l'.Clean f.retryTimes) ∧ Ready (Nor.program m addr data) l'.chip)
      (fun _ l' => ¬ G ∧ PartlyProgrammed m addr data l'.chip.mem) := by
  have huint := hd.uint32
  induction fuel generalizing addr data l m with
  | zero =>
      have hnil : data = [] := List.length_eq_zero_iff.mp (by omega)
      subst hnil
      rw [SfudFlash.page256Loop, ends_pure, Nor.program_nil]
      exact ⟨hG, hr⟩
  | succ fuel ih =>
      unfold SfudFlash.page256Loop
      by_cases hzero : data.length = 0
      · have hnil : data = [] := List.length_eq_zero_iff.mp hzero
        rw [if_pos hzero, ends_pure, hnil, Nor.program_nil]
        exact ⟨hG, hr⟩
      · rw [if_neg hzero, ends_bind]
        set room := if addr % gran ≠ 0 then gran - addr % gran else gran with hroom
        set n := if room < data.length then room else data.length with hn
        -- A turn does not cross the end of a page, with single bytes either.
        have hroom_pos : 0 < room ∧ addr % 256 + room ≤ 256 := by
          rw [hroom]
          rcases hgran with rfl | rfl
          · rw [Nat.mod_one]
            simp only [ne_eq, not_true, if_false]
            omega
          · split
            · omega
            · omega
        have hn_le : n ≤ data.length ∧ n ≤ room ∧ 0 < n := by
          rw [hn]
          split
          · omega
          · omega
        have hlen : (data.take n).length = n := by rw [List.length_take]; omega
        refine (ends_programTurn hd (by omega) (by rw [hlen]; omega) hG hr).mono ?_ ?_
        · rintro - l1 ⟨hclean, hr1⟩
          have hsmall : wrap32 (addr + n) = addr + n := Nat.mod_eq_of_lt (by omega)
          rw [hsmall]
          have hdrop : (data.drop n).length = data.length - n := List.length_drop
          have hrest := ih (by omega : (data.drop n).length ≤ fuel)
            (by omega : addr + n + (data.drop n).length ≤ p.capacity) hclean hr1
          rw [program_drop hn_le.1] at hrest
          -- What the rest has left undone is undone in the whole.
          refine hrest.mono (fun _ _ h => h) ?_
          rintro e l2 ⟨hg, hpart⟩
          exact ⟨hg, partlyProgrammed_drop hn_le.1 hpart⟩
        · rintro e l1 ⟨hg, hmem | hmem⟩
          · exact ⟨hg, hmem ▸ partlyProgrammed_none m addr data⟩
          · exact ⟨hg, n, hn_le.1, hmem⟩

theorem ends_page256Or1ByteWrite (hd : Describes f p) {gran : Nat} (hgran : gran = 1 ∨ gran = 256)
    (hbound : addr + data.length ≤ p.capacity) (hG : G → l.Clean f.retryTimes)
    (hr : Ready m l.chip) :
    Ends (f.page256Or1ByteWrite p addr data gran) l
      (fun _ l' => (G → l'.Clean f.retryTimes) ∧ Ready (Nor.program m addr data) l'.chip)
      (fun _ l' => ¬ G ∧ PartlyProgrammed m addr data l'.chip.mem) := by
  have huint := hd.uint32
  have hsmall : wrap32 (addr + data.length) = addr + data.length := Nat.mod_eq_of_lt (by omega)
  unfold SfudFlash.page256Or1ByteWrite
  rw [if_neg (by rw [hsmall, hd.capacity]; omega)]
  exact ends_withExit (ends_page256Loop hd hgran (le_refl _) hbound hG hr)

/-- The chip between two words of an auto-increment program: the latch is set and the next
    word goes to `addr`, which the first one is sent with. -/
structure BetweenWords (m : Nor.Cells) (first : Bool) (addr : Nat) (c : Chip) : Prop where
  mem : c.mem = m
  busy : c.busy = 0
  wel : c.wel = true
  aai : c.aai = if first then none else some addr

/-- One word. -/
theorem ends_aaiWord (hd : Describes f p) {first : Bool} {x y : UInt8} (haddr : addr < p.capacity)
    (heven : 2 ∣ addr) (hG : G → l.Clean f.retryTimes) (hb : BetweenWords m first addr l.chip) :
    Ends (do
        let _ ← wr p (cmdAaiWordProgram ::
          ((if first then f.makeAdressByteArray addr else []) ++ [x, y])) 0
        waitBusy p f.retryTimes) l
      (fun _ l' => (G → l'.Clean f.retryTimes) ∧
        BetweenWords (Nor.program m addr [x, y]) false (addr + 2) l'.chip)
      (fun _ l' => ¬ G ∧ (l'.chip.mem = m ∨ l'.chip.mem = Nor.program m addr [x, y])) := by
  -- The first word brings its address, and the others are where the last one ended.
  have hword : ∀ d, l.chip.accept p d (cmdAaiWordProgram ::
      ((if first then f.makeAdressByteArray addr else []) ++ [x, y])) =
        { l.chip with mem := Nor.program m addr [x, y], busy := d, aai := some (addr + 2) } := by
    intro d
    have haai := hb.aai
    cases first with
    | true =>
        rw [if_pos rfl] at haai
        exact accept_aaiFirst ⟨hb.mem, hb.busy, haai⟩ hb.wel
          (makeAdressByteArray_length hd.fourByte addr)
          (addressOf_makeAdressByteArray hd.fourByte (lt_of_lt_of_le haddr hd.addressable)) heven
    | false =>
        rw [if_neg (by simp)] at haai
        rw [← hb.mem]
        exact accept_aaiNext hb.busy haai hb.wel
  rw [ends_bind]
  refine (ends_wr _ 0 hG).mono ?_ ?_
  · rintro - l1 ⟨-, hclean, d, hd1, hc⟩
    rw [hword] at hc
    refine (ends_waitBusy f.retryTimes hclean (by rw [hc]; exact hd1)).mono ?_ ?_
    · rintro - l2 ⟨hclean2, hc2⟩
      rw [hc2, hc]
      exact ⟨hclean2, rfl, rfl, hb.wel, rfl⟩
    · rintro e l2 ⟨hg, b, hc2⟩
      rw [hc2, hc]
      exact ⟨hg, .inr rfl⟩
  · rintro e l1 ⟨hg, hc | ⟨d, hc⟩⟩
    · exact ⟨hg, .inl (hc ▸ hb.mem)⟩
    · rw [hc, hword]
      exact ⟨hg, .inr rfl⟩

/-- The words of the data, two bytes at a time. What is left is the last byte of an odd
    number of them. -/
theorem ends_aaiLoop (hd : Describes f p) {first : Bool}
    (hbound : addr + data.length ≤ p.capacity) (heven : 2 ∣ addr)
    (hG : G → l.Clean f.retryTimes) (hb : BetweenWords m first addr l.chip) :
    Ends (f.aaiLoop p first addr data) l
      (fun r l' => (G → l'.Clean f.retryTimes) ∧ ∃ n, n ≤ data.length ∧ data.length ≤ n + 1 ∧
        r = (addr + n, data.drop n) ∧ l'.chip.mem = Nor.program m addr (data.take n) ∧
        l'.chip.busy = 0)
      (fun _ l' => ¬ G ∧ PartlyProgrammed m addr data l'.chip.mem) := by
  have huint := hd.uint32
  -- The induction is the recursion of the loop: a word is taken off the data in each turn.
  induction first, addr, data using SfudFlash.aaiLoop.induct generalizing l m with
  | case1 first addr x y data ih =>
      simp only [List.length_cons] at hbound
      have hsmall : wrap32 (addr + 2) = addr + 2 := Nat.mod_eq_of_lt (by omega)
      -- A turn is a word and the turns behind it.
      have hassoc : f.aaiLoop p first addr (x :: y :: data) = (do
          let _ ← wr p (cmdAaiWordProgram ::
            ((if first then f.makeAdressByteArray addr else []) ++ [x, y])) 0
          waitBusy p f.retryTimes) >>= fun _ => f.aaiLoop p false (addr + 2) data := by
        rw [SfudFlash.aaiLoop, hsmall, bind_assoc]
      rw [hassoc, ends_bind]
      refine (ends_aaiWord hd (by omega) heven hG hb).mono ?_ ?_
      · rintro - l1 ⟨hclean, hb1⟩
        rw [hsmall] at ih
        refine (ih (by omega) (Nat.dvd_add heven (dvd_refl 2)) hclean hb1).mono ?_ ?_
        · rintro r l2 ⟨hclean2, n, hn, hn', rfl, hmem, hbusy⟩
          refine ⟨hclean2, n + 2, by simp only [List.length_cons]; omega,
            by simp only [List.length_cons]; omega, ?_, ?_, hbusy⟩
          · rw [List.drop_succ_cons, List.drop_succ_cons]
            exact congrArg (·, data.drop n) (by omega)
          · rw [hmem]
            exact Nor.program_append m addr [x, y] (data.take n)
        · rintro e l2 ⟨hg, hpart⟩
          exact ⟨hg, partlyProgrammed_drop (n := 2)
            (by simp only [List.length_cons]; omega) hpart⟩
      · rintro e l1 ⟨hg, hmem | hmem⟩
        · exact ⟨hg, hmem ▸ partlyProgrammed_none m addr _⟩
        · exact ⟨hg, 2, by simp only [List.length_cons]; omega, hmem⟩
  | case2 first addr data hshort =>
      -- The loop stops with one byte or none.
      have hlen : data.length ≤ 1 := by
        match data, hshort with
        | [], _ => simp
        | [_], _ => simp
        | x :: y :: rest, h => exact absurd rfl (h x y rest)
      have hstop : f.aaiLoop p first addr data = pure (addr, data) := by
        match data, hlen with
        | [], _ => rfl
        | [_], _ => rfl
      rw [hstop, ends_pure]
      refine ⟨hG, 0, Nat.zero_le _, by omega, by rw [Nat.add_zero, List.drop_zero], ?_, hb.busy⟩
      rw [List.take_zero, Nor.program_nil, hb.mem]

/-- From an even address on: the words, and the last byte alone if there is one. -/
theorem ends_aaiEven (hd : Describes f p) (hbound : addr + data.length ≤ p.capacity)
    (heven : 2 ∣ addr) (hG : G → l.Clean f.retryTimes) (hr : Ready m l.chip) :
    Ends (f.aaiEven p addr data) l
      (fun _ l' => (G → l'.Clean f.retryTimes) ∧ Ready (Nor.program m addr data) l'.chip)
      (fun _ l' => ¬ G ∧ PartlyProgrammed m addr data l'.chip.mem) := by
  unfold SfudFlash.aaiEven
  rw [ends_bind]
  refine (ends_setWriteEnabled hG hr).mono ?_ ?_
  · rintro - l1 ⟨hclean, hr1, hw1⟩
    rw [ends_bind]
    have hb1 : BetweenWords m true addr l1.chip := ⟨hr1.mem, hr1.busy, hw1, hr1.aai⟩
    refine (ends_aaiLoop hd hbound heven hclean hb1).mono ?_ ?_
    · rintro r l2 ⟨hclean2, n, hn, hn', rfl, hmem, hbusy⟩
      rw [ends_bind]
      refine (ends_exit_aai hclean2 hmem hbusy).mono ?_ ?_
      · rintro - l3 ⟨hclean3, hr3⟩
        have hlen : (data.drop n).length = data.length - n := List.length_drop
        by_cases hone : (data.drop n).length = 1
        · rw [if_pos hone]
          -- The last byte of an odd number is written alone.
          have hlast := ends_page256Or1ByteWrite hd (.inl rfl)
            (by omega : addr + n + (data.drop n).length ≤ p.capacity) hclean3 hr3
          rw [program_drop hn] at hlast
          refine hlast.mono (fun _ _ h => h) ?_
          rintro e l4 ⟨hg, hpart⟩
          exact ⟨hg, partlyProgrammed_drop hn hpart⟩
        · rw [if_neg hone, ends_pure]
          -- The words were all there is.
          have hall : data.take n = data := List.take_of_length_le (by omega)
          rw [hall] at hr3
          exact ⟨hclean3, hr3⟩
      · rintro e l3 ⟨hg, hmem3⟩
        exact ⟨hg, n, hn, hmem3⟩
    · exact fun e l2 h => h
  · rintro e l1 ⟨hg, hr1⟩
    exact ⟨hg, hr1.mem ▸ partlyProgrammed_none m addr data⟩

theorem ends_aaiWrite (hd : Describes f p) (hbound : addr + data.length ≤ p.capacity)
    (hpos : 0 < data.length) (hG : G → l.Clean f.retryTimes) (hr : Ready m l.chip) :
    Ends (f.aaiWrite p behind addr data) l
      (fun _ l' => (G → l'.Clean f.retryTimes) ∧ Ready (Nor.program m addr data) l'.chip)
      (fun _ l' => ¬ G ∧ PartlyProgrammed m addr data l'.chip.mem) := by
  have huint := hd.uint32
  have hsmall : wrap32 (addr + data.length) = addr + data.length := Nat.mod_eq_of_lt (by omega)
  unfold SfudFlash.aaiWrite
  rw [if_neg (by rw [hsmall, hd.capacity]; omega), ends_bind, ends_outcome]
  -- The exit clears the latch behind an error, which leaves the contents alone.
  have hexit : ∀ {e : SfudErr} {l1 : Link}, ¬ G → PartlyProgrammed m addr data l1.chip.mem →
      Ends (do
        let _ ← outcome (setWriteEnabled p false)
        throw e : Sfud Unit) l1
        (fun _ l' => (G → l'.Clean f.retryTimes) ∧ Ready (Nor.program m addr data) l'.chip)
        (fun _ l' => ¬ G ∧ PartlyProgrammed m addr data l'.chip.mem) := by
    intro e l1 hg hpart
    rw [ends_bind, ends_outcome]
    exact (ends_exit_mem rfl).mono (fun _ _ h => ⟨hg, h ▸ hpart⟩) (fun _ _ h => ⟨hg, h ▸ hpart⟩)
  -- An odd address has its byte written alone, and the rest begins at an even one.
  by_cases hodd : addr % 2 ≠ 0
  · have hdata : ¬ data.length = 0 := by omega
    rw [if_pos hodd, if_neg hdata, ends_bind]
    have hone : (data.take 1).length = 1 := by rw [List.length_take]; omega
    refine (ends_page256Or1ByteWrite hd (.inl rfl) (by omega) hG hr).mono ?_ ?_
    · rintro - l1 ⟨hclean, hr1⟩
      have hnext : wrap32 (addr + 1) = addr + 1 := Nat.mod_eq_of_lt (by omega)
      rw [hnext]
      have hdrop : (data.drop 1).length = data.length - 1 := List.length_drop
      have hrest := ends_aaiEven hd (by omega : addr + 1 + (data.drop 1).length ≤ p.capacity)
        (by omega) hclean hr1
      rw [program_drop hpos] at hrest
      refine hrest.mono (fun _ _ h => h) ?_
      rintro e l2 ⟨hg, hpart⟩
      exact hexit hg (partlyProgrammed_drop hpos hpart)
    · rintro e l1 ⟨hg, k, hk, hmem⟩
      refine hexit hg ⟨min k 1, by omega, ?_⟩
      rw [hmem, List.take_take]
  · rw [if_neg hodd]
    refine (ends_aaiEven hd hbound (by omega) hG hr).mono (fun _ _ h => h) ?_
    rintro e l1 ⟨hg, hpart⟩
    exact hexit hg hpart

/-- A write programs the data, from the first byte on. -/
theorem ends_sfudWrite (hd : Describes f p) (hw : f.Writable)
    (hbound : addr + data.length ≤ p.capacity) (hpos : 0 < data.length)
    (hG : G → l.Clean f.retryTimes) (hr : Ready m l.chip) :
    Ends (f.sfudWrite p behind addr data) l
      (fun _ l' => (G → l'.Clean f.retryTimes) ∧ Ready (Nor.program m addr data) l'.chip)
      (fun _ l' => ¬ G ∧ PartlyProgrammed m addr data l'.chip.mem) := by
  unfold SfudFlash.sfudWrite
  by_cases hpage : f.writeMode.testBit wmPage256b = true
  · rw [if_pos hpage]
    exact ends_page256Or1ByteWrite hd (.inr rfl) hbound hG hr
  · have haai : f.writeMode.testBit wmAai = true := hw.resolve_left hpage
    rw [if_neg hpage, if_pos haai]
    exact ends_aaiWrite hd hbound hpos hG hr

/-- `sfud_erase_write`, for every chip the driver describes, every link and every stretch:
    it succeeds with the data in its place and the chip ready, or it fails because the
    link does, with the erase or the programming done in part. -/
theorem ends_sfudEraseWrite (hd : Describes f p) (hw : f.Writable)
    (hbound : addr + data.length ≤ p.capacity) (hpos : 0 < data.length)
    (hG : G → l.Clean f.retryTimes) (hr : Ready m l.chip) :
    Ends (f.sfudEraseWrite p behind addr data) l
      (fun _ l' => (G → l'.Clean f.retryTimes) ∧ Ready (stored f.gran m addr data) l'.chip)
      (fun _ l' => ¬ G ∧
        (PartlyErased m (Nor.down f.gran addr) (Nor.up f.gran (addr + data.length)) l'.chip.mem ∨
          PartlyProgrammed
            (Nor.erase m (Nor.down f.gran addr) (Nor.up f.gran (addr + data.length)))
            addr data l'.chip.mem)) := by
  unfold SfudFlash.sfudEraseWrite
  rw [ends_bind]
  refine (ends_sfudErase hd hpos hbound hG hr).mono ?_ ?_
  · rintro - l1 ⟨hclean, hr1⟩
    have hwrite : Ends (f.sfudWrite p behind addr data) l1 _ _ :=
      ends_sfudWrite hd hw hbound hpos hclean hr1
    -- Into erased cells programming is overwriting.
    rw [Nor.program_erased m (Nor.down_le addr) (Nor.le_up hd.gran_pos _)] at hwrite
    exact hwrite.mono (fun _ _ h => h) (fun _ _ h => ⟨h.1, .inr h.2⟩)
  · exact fun e l1 h => ⟨h.1, .inl h.2⟩

/-- Either way nothing outside the touched blocks has changed. -/
theorem unchanged_of_partly {lo hi : Nat} {m' : Nor.Cells} (hlo : lo ≤ addr)
    (hhi : addr + data.length ≤ hi)
    (h : PartlyErased m lo hi m' ∨ PartlyProgrammed (Nor.erase m lo hi) addr data m') {i : Nat}
    (hi' : i < lo ∨ hi ≤ i) : m' i = m i := by
  rcases h with ⟨mid, h1, h2, rfl⟩ | ⟨k, hk, rfl⟩
  · exact Nor.erase_outside m (by omega)
  · have hlen : (data.take k).length ≤ data.length := List.length_take_le' _ _
    rw [Nor.program_outside _ _ _ (by omega), Nor.erase_outside m hi']

theorem stored_outside {g : Nat} (hg : 0 < g) {i : Nat}
    (h : i < Nor.down g addr ∨ Nor.up g (addr + data.length) ≤ i) :
    stored g m addr data i = m i := by
  have hlo := Nor.down_le (g := g) addr
  have hhi := Nor.le_up hg (addr + data.length)
  rw [stored, Nor.overwrite_outside _ _ _ (by omega), Nor.erase_outside m h]

/-- A read returns the contents, and leaves the chip ready. -/
theorem ends_sfudRead (hd : Describes f p) {size : Nat} (hbound : addr + size ≤ p.capacity)
    (hpos : 0 < size) (hG : G → l.Clean f.retryTimes) (hr : Ready m l.chip) :
    Ends (f.sfudRead p addr size) l
      (fun r l' => (G → l'.Clean f.retryTimes) ∧ Ready m l'.chip ∧
        r = (List.range size).map fun i => m (addr + i))
      (fun _ l' => ¬ G ∧ l'.chip.mem = m) := by
  have huint := hd.uint32
  have hsmall : wrap32 (addr + size) = addr + size := Nat.mod_eq_of_lt (by omega)
  unfold SfudFlash.sfudRead
  rw [if_neg (by rw [hsmall, hd.capacity]; omega), ends_bind]
  refine (ends_waitBusy f.retryTimes hG (by rw [hr.busy]; exact fun _ => Nat.zero_le _)).mono ?_ ?_
  · rintro - l1 ⟨hclean, hc⟩
    have hr1 : Ready m l1.chip := hc ▸ ⟨hr.mem, rfl, hr.aai⟩
    have hsame : ∀ d, Ready m (l1.chip.accept p d (cmdReadData :: f.makeAdressByteArray addr)) := by
      intro d
      rw [accept_readData hr1.busy]
      exact hr1
    have hanswer : l1.chip.answer p size (cmdReadData :: f.makeAdressByteArray addr) =
        (List.range size).map fun i => m (addr + i) := by
      have hlen := makeAdressByteArray_length hd.fourByte addr
      have haddr := addressOf_makeAdressByteArray hd.fourByte
        (lt_of_lt_of_le (by omega : addr < p.capacity) hd.addressable)
      simp [Chip.answer, hr1.busy, hr1.mem, cmdReadData, cmdReadStatusRegister, ← hlen, haddr]
    refine (ends_wr _ size hclean).mono ?_ ?_
    · rintro r l2 ⟨rfl, hclean2, d, -, hc2⟩
      exact ⟨hclean2, hc2 ▸ hsame d, hanswer⟩
    · rintro e l2 ⟨hg, hc2 | ⟨d, hc2⟩⟩
      · exact ⟨hg, hc2 ▸ hr1.mem⟩
      · exact ⟨hg, hc2 ▸ (hsame d).mem⟩
  · rintro e l1 ⟨hg, b, hc⟩
    exact ⟨hg, hc ▸ hr.mem⟩

end Programming

end Flash

end Firmware
