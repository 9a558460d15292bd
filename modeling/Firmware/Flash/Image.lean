import Firmware.Flash.Device
import Firmware.Update.Delivery

/-!
# The Image on the Chip

What the flash writes of an update leave on the chip.

The server hands its pages to `flash_dev->write`, one sector at a time, and
`Update.Delivered` says which pages an update without errors hands over. Here they go
through the block device, the driver and the link down to the chip. `delivered_on_chip`
says what a boot loader finds there: the image, byte by byte from the first sector of the
update area on, its length and `MAGIC` in the information sector, and every other sector
as it was.

## Main definitions

* `pageRequest`: A flash write of the server as a request to the device.
* `Imaged`: The cells of a chip that holds an image.

## Theorems

* `fold_pages`: The disk behind the page writes.
* `delivered_on_chip`: The writes of an update put the image on the chip.
-/

namespace Firmware

namespace Flash

open Update

/-- `flash_dev->write(flash_dev, sector, data_buf, 1)`. The server writes no page that it
    has not allocated. -/
def pageRequest (w : Nat × Option Page) : Request :=
  .write w.1 (match w.2 with
    | some page => List.ofFn page
    | none => []) 1

/-- The chip holds the image from the update area on, and at the start of the information
    sector the four bytes of the length, the most significant one first, and those of
    `MAGIC`. -/
structure Imaged (total : List UInt8) (length : Nat) (m : Nor.Cells) : Prop where
  data : ∀ i (h : i < total.length), m (updateDataAddr * bufSz + i) = total[i]
  info : ∃ bytes, BigEndian length bytes ∧ ∀ i (h : i < (bytes ++ magicBytes).length),
    m (updateInfoAddr * bufSz + i) = (bytes ++ magicBytes)[i]

section Pages

variable {d : Disk} {o : Nat} {pages : List Page}

/-- One page write: its sector and no other. -/
theorem after_page (d : Disk) (n : Nat) (page : Page) :
    d.after bufSz (pageRequest (n, some page)) = Function.update d n (List.ofFn page) := by
  funext k
  simp only [pageRequest, Disk.after]
  -- The request is one sector long, so this is all of its bytes.
  by_cases hk : k = n
  · subst hk
    rw [if_pos (by omega), Nat.sub_self, Nat.zero_mul, List.drop_zero, Function.update_self,
      List.take_of_length_le (by rw [List.length_ofFn])]
  · rw [if_neg (by omega), Function.update_of_ne hk]

/-- The disk behind the writes of consecutive pages. -/
theorem fold_pages (d : Disk) (o : Nat) (pages : List Page) (k : Nat) :
    ((pageWrites o pages).map pageRequest).foldl (Disk.after bufSz) d k =
      if updateDataAddr + o ≤ k then
        ((pages[k - (updateDataAddr + o)]?).map List.ofFn).getD (d k)
      else d k := by
  induction pages generalizing o d with
  | nil => simp [pageWrites]
  | cons page pages ih =>
      rw [pageWrites_cons, List.map_cons, List.foldl_cons, ih, after_page]
      -- The later pages are written behind the first one and do not touch it.
      by_cases hfirst : k = updateDataAddr + o
      · subst hfirst
        rw [if_neg (by omega), if_pos (le_refl _), Function.update_self, Nat.sub_self,
          List.getElem?_cons_zero, Option.map_some, Option.getD_some]
      · rw [Function.update_of_ne hfirst]
        by_cases hlater : updateDataAddr + o ≤ k
        · -- The sectors behind the first one are those of the other pages.
          have hsub : k - (updateDataAddr + o) = k - (updateDataAddr + (o + 1)) + 1 := by omega
          rw [if_pos (by omega), if_pos hlater, hsub, List.getElem?_cons_succ]
        · rw [if_neg (by omega), if_neg hlater]

end Pages

section Chip

variable {dev : Device} {m : Nor.Cells}

/-- A cell is a byte of its sector. -/
theorem cell_of_disk (hg : dev.bytesPerSector = bufSz) {k i : Nat} (hi : i < bufSz)
    {bytes : List UInt8} (h : dev.disk m k = bytes) : bytes[i]? = some (m (k * bufSz + i)) := by
  subst h
  simp [Device.disk, hg, hi]

/-- A page that begins with some bytes leaves them at the start of its sector. -/
theorem cell_of_holds (hg : dev.bytesPerSector = bufSz) {k i : Nat} {page : Page}
    {bytes : List UInt8} (hd : dev.disk m k = List.ofFn page) (hp : page.Holds 0 bytes)
    (hi : i < bytes.length) : m (k * bufSz + i) = bytes[i] := by
  rcases hp i hi with ⟨hlt, hval⟩
  rw [Nat.zero_add] at hlt
  have hcell := cell_of_disk hg hlt hd
  rw [List.getElem?_ofFn, dif_pos hlt, Option.some.injEq] at hcell
  rw [← hcell, ← hval]
  congr 1
  exact Fin.ext (Nat.zero_add i).symm

/-- The flash writes of an update, on every chip with sectors of a page and room for the
    image and over every clean link: none of them fails, and the chip holds the image, its
    length and `MAGIC`, and every other sector as it was. -/
theorem delivered_on_chip {l : Link} {total : List UInt8} {length : Nat}
    {ws : List (Nat × Option Page)} (hg : dev.bytesPerSector = bufSz)
    (hd : Delivered total length ws)
    (hroom : updateDataAddr + (total.length + (bufSz - 1)) / bufSz ≤ dev.sectorCount)
    (hclean : l.Clean dev.flash.retryTimes) (hr : Ready m l.chip) :
    ∃ t m', run dev.serveStep l (ws.map pageRequest) = some t ∧ Ready m' t.chip ∧
      Imaged total length m' ∧
      ∀ k, k ≠ updateInfoAddr → (k < updateDataAddr ∨
        updateDataAddr + (total.length + (bufSz - 1)) / bufSz ≤ k) →
        dev.disk m' k = dev.disk m k := by
  rcases hd with ⟨pages, info, rfl, hcount, hslices, bytes, hbytes, hinfo⟩
  have hbefore : updateInfoAddr < updateDataAddr := by decide
  -- Every write is one of a whole sector that the device has.
  have hin : ∀ r ∈ (pageWrites 0 pages ++ [(updateInfoAddr, some info)]).map pageRequest,
      dev.InRange r := by
    intro r hr'
    rcases List.mem_map.mp hr' with ⟨w, hw, rfl⟩
    rcases List.mem_append.mp hw with hw | hw
    · rcases List.mem_mapIdx.mp hw with ⟨i, hi, rfl⟩
      refine ⟨Nat.one_pos, by simp only; omega, ?_⟩
      rw [List.length_ofFn, hg, Nat.one_mul]
    · rw [List.mem_singleton] at hw
      subst hw
      refine ⟨Nat.one_pos, by simp only; omega, ?_⟩
      rw [List.length_ofFn, hg, Nat.one_mul]
  -- Over a clean link no request fails, so the run goes through to its end.
  rcases run_clean hin hclean hr with ⟨t, ht, -⟩
  rcases run_met hin hr ht with ⟨-, m', hr', hdisk⟩
  rw [hg, List.map_append, List.foldl_append, List.map_singleton, List.foldl_cons, List.foldl_nil,
    after_page] at hdisk
  -- Sector by sector: the information sector, the pages, and the others.
  have hsector : ∀ k, k ≠ updateInfoAddr → dev.disk m' k =
      if updateDataAddr ≤ k then ((pages[k - updateDataAddr]?).map List.ofFn).getD (dev.disk m k)
      else dev.disk m k := by
    intro k hk
    rw [hdisk, Function.update_of_ne hk, fold_pages, Nat.add_zero]
  refine ⟨t, m', ht, hr', ⟨fun i hi => ?_, bytes, hbytes, fun i hi => ?_⟩, fun k hk hout => ?_⟩
  · -- Byte `i` is byte `r` of page `q`.
    obtain ⟨q, r, hr, rfl⟩ : ∃ q r, r < bufSz ∧ i = bufSz * q + r :=
      ⟨i / bufSz, i % bufSz, Nat.mod_lt i (by decide), (Nat.div_add_mod i bufSz).symm⟩
    have hpage : q < pages.length := by
      rw [hcount]
      refine (Nat.le_div_iff_mul_le (by decide)).mpr ?_
      rw [Nat.succ_mul, Nat.mul_comm q]
      have hpos : 0 < bufSz := by decide
      omega
    -- The page holds its slice of the image, and the sector the page.
    have hget : pages[q]? = some pages[q] := List.getElem?_eq_getElem hpage
    have hholds := hslices q _ hget
    have hk := hsector (updateDataAddr + q) (by omega)
    rw [if_pos (Nat.le_add_right _ _), Nat.add_sub_cancel_left, hget, Option.map_some,
      Option.getD_some] at hk
    rw [Nat.zero_add] at hholds
    -- The last slice may be shorter than a page.
    have hbyte : r < ((total.drop (bufSz * q)).take bufSz).length := by
      rw [List.length_take, List.length_drop]
      omega
    have hcell := cell_of_holds hg hk hholds hbyte
    rw [Nat.add_mul, Nat.mul_comm q, Nat.add_assoc] at hcell
    rw [hcell, List.getElem_take, List.getElem_drop]
  · have hk : dev.disk m' updateInfoAddr = List.ofFn info := by rw [hdisk, Function.update_self]
    exact cell_of_holds hg hk hinfo hi
  · rw [hsector k hk]
    rcases hout with hout | hout
    · rw [if_neg (by omega)]
    · -- Behind the last page nothing has been written.
      have hnone : pages[k - updateDataAddr]? = none := List.getElem?_eq_none (by omega)
      rw [if_pos (by omega), hnone]
      rfl

end Chip

/-- The writes of an image of three bytes. -/
def smallWrites : List (Nat × Option Page) :=
  pageWrites 0 [Buffer.store (fun _ => 0) 0 [7, 8, 9]] ++
    [(updateInfoAddr, some (Buffer.store (fun _ => 0) 0 [0, 0, 0, 3, 0x11, 0x22, 0x33, 0x44]))]

theorem smallWrites_delivered : Delivered [7, 8, 9] 3 smallWrites := by
  refine ⟨_, _, rfl, by decide, fun i p hp => ?_, [0, 0, 0, 3], ⟨rfl, rfl⟩,
    Buffer.holds_store _ 0 _ (by decide)⟩
  rcases i with _ | i
  · rw [List.getElem?_cons_zero, Option.some.injEq] at hp
    subst hp
    exact Buffer.holds_store _ 0 [7, 8, 9] (by decide)
  · rw [List.getElem?_cons_succ, List.getElem?_nil] at hp
    exact absurd hp (by simp)

theorem delivered_on_chip_w25q64 :
    ∃ t m', run w25q64.serveStep quietLink (smallWrites.map pageRequest) = some t ∧
      Ready m' t.chip ∧ Imaged [7, 8, 9] 3 m' := by
  rcases delivered_on_chip (by decide : w25q64.bytesPerSector = bufSz) smallWrites_delivered
    (by decide) quietLink_clean quietLink_ready with ⟨t, m', ht, hr, himage, -⟩
  exact ⟨t, m', ht, hr, himage⟩

end Flash

end Firmware
