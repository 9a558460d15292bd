import Firmware.Flash.Sfud

/-!
# Erasing

`sfud_erase` and `sfud_chip_erase` from `sfud/src/sfud.c`.

A chip erases blocks, of several sizes if it has SFDP parameters, and the driver picks
the largest one that begins where it is and that is not longer than what is left. The
smallest block is used otherwise, also where the address is in the middle of one, and
the chip then erases all of it. Whatever is picked, the cells that are erased are those
of the smallest blocks the stretch touches, each turn beginning where the last one
ended: `ends_sfudErase`.

If the link fails on the way, the erased cells are a beginning of them.

## Main definitions

* `SfudFlash.gran`: The size of the smallest block.
* `Knows`: An erase command means to the chip what the driver takes it for.
* `Describes`: The driver's parameters are those of the chip.
* `PartlyErased`: The beginning of a stretch has been erased.

## Theorems

* `currentEraser_spec`: What the driver picks.
* `ends_eraseLoop`: The loop erases the smallest blocks that the stretch touches.
* `ends_sfudErase`: So does the function.
-/

namespace Firmware

namespace Flash

/-- The size of the smallest block. -/
def SfudFlash.gran (f : SfudFlash) : Nat :=
  if f.sfdpAvailable then (f.eraser smallestEraserIndex).size else f.eraseGran

/-- The chip erases blocks of the given size with the given command. -/
structure Knows (p : Part) (e : Eraser) : Prop where
  cmd : e.cmd ∉ reserved
  size : p.eraseSize e.cmd = some e.size

/-- The driver's parameters are those of the chip: its size, the width of an address and
    the erase commands, of which the first one has the smallest block. -/
structure Describes (f : SfudFlash) (p : Part) : Prop where
  capacity : f.capacity = p.capacity
  fourByte : f.addrIn4Byte = p.fourByte
  addressable : p.capacity ≤ 256 ^ p.addressLen
  uint32 : p.capacity < 2 ^ 32
  gran_pos : 0 < f.gran
  whole : f.gran ∣ p.capacity
  plain : f.sfdpAvailable = false → Knows p ⟨f.eraseGran, f.eraseGranCmd⟩
  table : f.sfdpAvailable = true → ∀ i, (f.eraser i).size ≠ 0 →
    f.gran ∣ (f.eraser i).size ∧ Knows p (f.eraser i)
  single : f.writeMode.testBit wmDualBuffer = false

/-- The cells from `lo` up to some place before `hi` have been erased, and no others. -/
def PartlyErased (m : Nor.Cells) (lo hi : Nat) (m' : Nor.Cells) : Prop :=
  ∃ mid, lo ≤ mid ∧ mid ≤ hi ∧ m' = Nor.erase m lo mid

section Choice

variable {f : SfudFlash} {p : Part}

/-- The search comes down to the first entry, or stops at one that fits. -/
theorem searchEraser_spec (f : SfudFlash) (addr size : Nat) (i : Fin 4) :
    f.searchEraser addr size i = smallestEraserIndex ∨
      ((f.eraser (f.searchEraser addr size i)).size ≠ 0 ∧
        (f.eraser (f.searchEraser addr size i)).size ≤ size ∧
        addr % (f.eraser (f.searchEraser addr size i)).size = 0) := by
  rcases i with ⟨n, hn⟩
  induction n with
  | zero =>
      left
      unfold SfudFlash.searchEraser
      rfl
  | succ n ih =>
      -- Coming down, the first entry that fits ends the search.
      unfold SfudFlash.searchEraser
      split
      · rename_i h
        exact .inr h
      · exact ih (by omega)

/-- The driver picks a block that begins where it is and is not longer than what is left,
    or the smallest one. -/
theorem currentEraser_spec (hd : Describes f p) (addr size : Nat) :
    Knows p (f.currentEraser addr size) ∧ f.gran ∣ (f.currentEraser addr size).size ∧
      0 < (f.currentEraser addr size).size ∧
      ((addr % (f.currentEraser addr size).size = 0 ∧ (f.currentEraser addr size).size ≤ size) ∨
        (f.currentEraser addr size).size = f.gran) := by
  have hpos := hd.gran_pos
  unfold SfudFlash.currentEraser
  cases hs : f.sfdpAvailable with
  | false =>
      have hgran : f.gran = f.eraseGran := by simp [SfudFlash.gran, hs]
      -- Without a table there is one kind of block.
      rw [if_neg (by simp), hgran]
      rw [hgran] at hpos
      exact ⟨hd.plain hs, dvd_refl _, hpos, .inr rfl⟩
  | true =>
      have hgran : f.gran = (f.eraser smallestEraserIndex).size := by simp [SfudFlash.gran, hs]
      have hfirst : (f.eraser smallestEraserIndex).size ≠ 0 := by omega
      rw [if_pos rfl]
      -- Either the first entry, or one that the search has stopped at.
      have hpick : f.sfudSfdpGetSuitableEraser addr size = 0 ∨
          ((f.eraser (f.sfudSfdpGetSuitableEraser addr size)).size ≠ 0 ∧
            (f.eraser (f.sfudSfdpGetSuitableEraser addr size)).size ≤ size ∧
            addr % (f.eraser (f.sfudSfdpGetSuitableEraser addr size)).size = 0) := by
        unfold SfudFlash.sfudSfdpGetSuitableEraser
        split
        · exact .inl rfl
        · exact searchEraser_spec f addr size 3
      rcases hpick with h0 | ⟨hne, hle, hmod⟩
      · rw [h0]
        rcases hd.table hs 0 hfirst with ⟨hdvd, hknows⟩
        exact ⟨hknows, hdvd, Nat.pos_of_ne_zero hfirst, .inr hgran.symm⟩
      · rcases hd.table hs _ hne with ⟨hdvd, hknows⟩
        exact ⟨hknows, hdvd, Nat.pos_of_ne_zero hne, .inl ⟨hmod, hle⟩⟩

end Choice

section Turns

variable {f : SfudFlash} {p : Part} {addr size : Nat}

/-- The cells a turn erases: from the smallest block that the address is in up to where
    the next turn begins. -/
theorem turn_stretch {g e : Nat} (hg : 0 < g) (hdvd : g ∣ e) (he : 0 < e)
    (h : (addr % e = 0 ∧ e ≤ size) ∨ e = g) :
    let turn := if addr % e ≠ 0 then e - addr % e else e
    Nor.down e addr = Nor.down g addr ∧ Nor.down e addr + e = addr + turn ∧ 0 < turn ∧
      g ∣ addr + turn ∧ (size ≤ turn → 0 < size → Nor.up g (addr + size) = addr + turn) := by
  intro turn
  have hmod := Nor.down_add_mod (g := e) addr
  have hlt := Nat.mod_lt addr he
  have hturn : turn = e - addr % e := by
    by_cases h0 : addr % e = 0
    · simp only [turn, h0, ne_eq, not_true, if_false]
      omega
    · simp only [turn, h0, ne_eq, not_false_eq_true, if_true]
  have hend : Nor.down e addr + e = addr + turn := by omega
  have hdown : Nor.down e addr = Nor.down g addr := by
    rcases h with ⟨h0, -⟩ | rfl
    · rw [Nor.down_of_dvd (Nat.dvd_of_mod_eq_zero h0),
        Nor.down_of_dvd (hdvd.trans (Nat.dvd_of_mod_eq_zero h0))]
    · rfl
  -- Blocks are whole smallest blocks, so one ends at the boundary of such a block.
  refine ⟨hdown, hend, by omega, ?_, fun hle hpos => ?_⟩
  · rw [← hend]
    exact Nat.dvd_add (hdvd.trans (Nat.dvd_mul_left e _)) hdvd
  · rcases h with ⟨h0, hes⟩ | rfl
    · -- The block is all that was left.
      have hsize : size = e := by omega
      rw [hsize, Nor.up_of_dvd hg (Nat.dvd_add (hdvd.trans (Nat.dvd_of_mod_eq_zero h0)) hdvd)]
      omega
    · -- A smallest block may reach behind the end of the stretch.
      rw [Nor.up_add_pos hg addr size hpos (by omega)]
      omega

variable {l : Link} {m : Nor.Cells} {G : Prop}

/-- One erase command. -/
theorem ends_eraseTurn (hd : Describes f p) (haddr : addr < p.capacity)
    (hG : G → l.Clean f.retryTimes) (hr : Ready m l.chip) {e : Eraser} (he : Knows p e) :
    Ends (operation p f.retryTimes (e.cmd :: f.makeAdressByteArray addr)) l
      (fun _ l' => (G → l'.Clean f.retryTimes) ∧
        Ready (Nor.erase m (Nor.down e.size addr) (Nor.down e.size addr + e.size)) l'.chip)
      (fun _ l' => ¬ G ∧ (l'.chip.mem = m ∨ l'.chip.mem =
        Nor.erase m (Nor.down e.size addr) (Nor.down e.size addr + e.size))) := by
  refine ends_operation (fun c d hc hw => ?_) hG hr
  exact accept_erase hc hw he.cmd he.size (makeAdressByteArray_length hd.fourByte addr)
    (addressOf_makeAdressByteArray hd.fourByte (lt_of_lt_of_le haddr hd.addressable))

/-- The loop erases the smallest blocks that the stretch touches, from the first one on.
    The induction is on the bytes that are left, with fuel for each of them. -/
theorem ends_eraseLoop (hd : Describes f p) {fuel : Nat} (hfuel : size ≤ fuel) (hpos : 0 < size)
    (hbound : addr + size ≤ p.capacity) (hG : G → l.Clean f.retryTimes) (hr : Ready m l.chip) :
    Ends (f.eraseLoop p fuel addr size) l
      (fun _ l' => (G → l'.Clean f.retryTimes) ∧
        Ready (Nor.erase m (Nor.down f.gran addr) (Nor.up f.gran (addr + size))) l'.chip)
      (fun _ l' => ¬ G ∧ PartlyErased m (Nor.down f.gran addr) (Nor.up f.gran (addr + size))
        l'.chip.mem) := by
  induction fuel generalizing addr size l m with
  | zero => omega
  | succ fuel ih =>
      rcases currentEraser_spec hd addr size with ⟨hknows, hdvd, he, hchoice⟩
      rcases turn_stretch hd.gran_pos hdvd he hchoice with ⟨hdown, hend, hturn, hnext, hlast⟩
      have hle : addr + size ≤ Nor.up f.gran (addr + size) := Nor.le_up hd.gran_pos _
      have hlo : Nor.down f.gran addr ≤ addr := Nor.down_le addr
      have huint := hd.uint32
      unfold SfudFlash.eraseLoop
      rw [if_neg (by omega), ends_bind]
      set turn := if addr % (f.currentEraser addr size).size ≠ 0 then
        (f.currentEraser addr size).size - addr % (f.currentEraser addr size).size
        else (f.currentEraser addr size).size with hdef
      -- No turn goes beyond the blocks of the stretch, not even the last one.
      have hreach : addr + turn ≤ Nor.up f.gran (addr + size) := by
        by_cases hmore : turn < size
        · omega
        · rw [hlast (by omega) hpos]
      refine (ends_eraseTurn hd (by omega) hG hr hknows).mono ?_ ?_
      · rintro - l1 ⟨hclean, hr1⟩
        rw [hdown] at hend
        rw [hdown, hend] at hr1
        by_cases hmore : turn < size
        · have hsmall : wrap32 (addr + turn) = addr + turn := Nat.mod_eq_of_lt (by omega)
          have hsum : addr + turn + (size - turn) = addr + size := by omega
          rw [if_pos hmore, hsmall]
          have hrest := ih (by omega : size - turn ≤ fuel) (by omega)
            (by omega : addr + turn + (size - turn) ≤ p.capacity) hclean hr1
          -- The next turn begins at a block boundary, where this one ended.
          rw [Nor.down_of_dvd hnext, hsum] at hrest
          refine hrest.mono ?_ ?_
          · rintro - l2 ⟨hclean2, hr2⟩
            rw [Nor.erase_append m (by omega) hreach] at hr2
            exact ⟨hclean2, hr2⟩
          · rintro e l2 ⟨hg, mid, h1, h2, hmem⟩
            rw [Nor.erase_append m (by omega) h1] at hmem
            exact ⟨hg, mid, by omega, h2, hmem⟩
        · -- The last turn has erased up to the end of the last block.
          rw [if_neg hmore, ends_pure, hlast (by omega) hpos]
          exact ⟨hclean, hr1⟩
      · -- The command that failed has erased its block or nothing.
        rintro e l1 ⟨hg, hmem | hmem⟩
        · exact ⟨hg, _, le_refl _, by omega, by rw [hmem, Nor.erase_self]⟩
        · rw [hend, hdown] at hmem
          exact ⟨hg, addr + turn, by omega, hreach, hmem⟩

/-- `sfud_erase` erases the smallest blocks that the stretch touches, and leaves the chip
    ready. If the link fails, it has erased some of them from the first one on. -/
theorem ends_sfudErase (hd : Describes f p) (hpos : 0 < size) (hbound : addr + size ≤ p.capacity)
    (hG : G → l.Clean f.retryTimes) (hr : Ready m l.chip) :
    Ends (f.sfudErase p addr size) l
      (fun _ l' => (G → l'.Clean f.retryTimes) ∧
        Ready (Nor.erase m (Nor.down f.gran addr) (Nor.up f.gran (addr + size))) l'.chip)
      (fun _ l' => ¬ G ∧ PartlyErased m (Nor.down f.gran addr) (Nor.up f.gran (addr + size))
        l'.chip.mem) := by
  have huint := hd.uint32
  have hsmall : wrap32 (addr + size) = addr + size := Nat.mod_eq_of_lt (by omega)
  have hlo : Nor.down f.gran addr ≤ addr := Nor.down_le addr
  have hhi : addr + size ≤ Nor.up f.gran (addr + size) := Nor.le_up hd.gran_pos _
  unfold SfudFlash.sfudErase
  rw [if_neg (by rw [hsmall, hd.capacity]; omega)]
  by_cases hall : addr = 0 ∧ size = f.capacity
  · -- The whole chip has a command of its own.
    rcases hall with ⟨rfl, rfl⟩
    have hchip : Nor.erase m 0 p.capacity =
        Nor.erase m (Nor.down f.gran 0) (Nor.up f.gran (0 + f.capacity)) := by
      rw [Nat.zero_add, hd.capacity, Nor.up_of_dvd hd.gran_pos hd.whole,
        Nor.down_of_dvd (dvd_zero _)]
    rw [if_pos ⟨rfl, rfl⟩, SfudFlash.sfudChipErase, hd.single, if_neg (by simp)]
    refine ends_withExit
      ((ends_operation (fun c d hc hw => accept_eraseChip hc hw) hG hr).mono ?_ ?_)
    · rw [hchip]
      exact fun _ _ h => h
    · rintro e l1 ⟨hg, hmem | hmem⟩
      · exact ⟨hg, _, le_refl _, by omega, by rw [hmem, Nor.erase_self]⟩
      · exact ⟨hg, _, by omega, le_refl _, by rw [hmem, hchip]⟩
  · rw [if_neg hall]
    exact ends_withExit (ends_eraseLoop hd (le_refl size) hpos hbound hG hr)

end Turns

end Flash

end Firmware
