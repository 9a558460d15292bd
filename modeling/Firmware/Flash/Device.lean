import Firmware.Flash.Decided
import Firmware.Flash.Write
import Firmware.Lib.Runs

/-!
# The Block Device

The device `flash0` of `spi_flash_sfud.c`, through which the update server and the file
system use the flash: `rt_sfud_read`, `rt_sfud_write` and the erase command of
`rt_sfud_control`. A sector is the smallest block the chip can erase, so that a write of
whole sectors erases exactly the sectors it writes.

What a block device is for is said without flash: a `Disk` is a table of sectors, a
write replaces some of them and a read returns some of them. `device_refines_disk` says that the
device is a disk. For every sequence of requests, every chip that is written in pages or
in words and every link, the device answers as the disk does up to the first request that
fails, and no request fails on a clean link. `serve_failed` says what a request that fails
has done: one of its own transfers was refused or took too long, and it may have changed
sectors it was asked to write, and no others.

## Main definitions

* `Device`: A driver and the chip it describes.
* `Device.rtSfudRead`, `Device.rtSfudWrite`, `Device.blkErase`: The operations.
* `Request`, `Device.serve`: A request and what becomes of it.
* `Disk`, `Disk.after`, `Disk.answer`: A table of sectors.
* `Device.disk`: The table of sectors that some contents are.

## Theorems

* `disk_stored`: A write of whole sectors replaces them and no others.
* `serve_cases`: What one request does.
* `device_refines_disk`: The device is a disk.
* `serve_failed`: A request that fails spoils its own sectors at most.
-/

namespace Firmware

namespace Flash

/-- A driver and the chip that it describes, as they are behind a successful
    `rt_sfud_flash_probe`, and what the memory holds behind the buffer of a write. -/
structure Device where
  flash : SfudFlash
  part : Part
  behind : Nat → UInt8 := fun _ => 0
  describes : Describes flash part
  writable : flash.Writable
  smallest : flash.eraseGran = flash.gran

/-- A request to the device. The bounds of an erase are the first sector and the one
    behind the last. -/
inductive Request
  | read (pos size : Nat)
  | write (pos : Nat) (buffer : List UInt8) (size : Nat)
  | erase (start stop : Nat)

namespace Device

variable (dev : Device)

/-- `geometry.bytes_per_sector` -/
def bytesPerSector : Nat := dev.flash.eraseGran

/-- `geometry.sector_count` -/
def sectorCount : Nat := dev.flash.capacity / dev.flash.eraseGran

/-- `rt_sfud_read`: the count it returns, and the bytes it has put into the buffer. -/
def rtSfudRead (pos size : Nat) : StateM Link (Nat × List UInt8) := fun l =>
  match dev.flash.sfudRead dev.part (wrap32 (pos * dev.bytesPerSector))
      (wrap32 (size * dev.bytesPerSector)) l with
  | (.ok bytes, l') => ((size, bytes), l')
  | (.error _, l') => ((0, []), l')

/-- `rt_sfud_write` -/
def rtSfudWrite (pos : Nat) (buffer : List UInt8) (size : Nat) : StateM Link Nat := fun l =>
  match dev.flash.sfudEraseWrite dev.part dev.behind (wrap32 (pos * dev.bytesPerSector))
      (buffer.take (wrap32 (size * dev.bytesPerSector))) l with
  | (.ok _, l') => (size, l')
  | (.error _, l') => (0, l')

/-- `RT_DEVICE_CTRL_BLK_ERASE` of `rt_sfud_control`: whether it returns `RT_EOK`. An empty
    range is taken for one sector. -/
def blkErase (start stop : Nat) : StateM Link Bool := fun l =>
  if stop < start then (false, l)
  else
    -- `end_addr == start_addr` makes the end that of the sector.
    let stop := if stop = start then stop + 1 else stop
    match dev.flash.sfudErase dev.part (wrap32 (start * dev.bytesPerSector))
        (wrap32 ((stop - start) * dev.bytesPerSector)) l with
    | (.ok _, l') => (true, l')
    | (.error _, l') => (false, l')

/-- What becomes of a request: the bytes it returns, or nothing if it fails. A count that
    is not the requested one is a failure. -/
def serve (l : Link) : Request → Option (List UInt8) × Link
  | .read pos size =>
      let ((count, bytes), l') := dev.rtSfudRead pos size l
      (if count = size then some bytes else none, l')
  | .write pos buffer size =>
      let (count, l') := dev.rtSfudWrite pos buffer size l
      (if count = size then some [] else none, l')
  | .erase start stop =>
      let (ok, l') := dev.blkErase start stop l
      (if ok then some [] else none, l')

/-- The requests that can be met: some sectors that the device has, and as many bytes. -/
def InRange : Request → Prop
  | .read pos size => 0 < size ∧ pos + size ≤ dev.sectorCount
  | .write pos buffer size => 0 < size ∧ pos + size ≤ dev.sectorCount ∧
      buffer.length = size * dev.bytesPerSector
  | .erase start stop => start ≤ stop ∧ stop ≤ dev.sectorCount ∧ start < dev.sectorCount

/-- The sectors a request changes. -/
def Touches : Request → Nat → Prop
  | .read _ _, _ => False
  | .write pos _ size, k => pos ≤ k ∧ k < pos + size
  | .erase start stop, k => start ≤ k ∧ (k < stop ∨ k = start)

/-- A step of a run that ends with the first request that fails. -/
def serveStep (l : Link) (r : Request) : Option Link :=
  match dev.serve l r with
  | (some _, l') => some l'
  | (none, _) => none

end Device

/-- A table of sectors. -/
abbrev Disk := Nat → List UInt8

namespace Disk

/-- The disk behind a request, with sectors of `g` bytes. -/
def after (g : Nat) (d : Disk) : Request → Disk
  | .read _ _ => d
  | .write pos buffer size => fun k =>
      if pos ≤ k ∧ k < pos + size then (buffer.drop ((k - pos) * g)).take g else d k
  | .erase start stop => fun k =>
      if start ≤ k ∧ (k < stop ∨ k = start) then List.replicate g 0xff else d k

/-- What a request returns. -/
def answer (d : Disk) : Request → List UInt8
  | .read pos size => (List.range size).flatMap fun i => d (pos + i)
  | .write _ _ _ => []
  | .erase _ _ => []

end Disk

/-- The disk that some contents are. -/
def Device.disk (dev : Device) (m : Nor.Cells) : Disk :=
  fun k => (List.range dev.bytesPerSector).map fun i => m (k * dev.bytesPerSector + i)

section Sectors

variable {dev : Device} {m : Nor.Cells}

theorem bytesPerSector_eq : dev.bytesPerSector = dev.flash.gran := dev.smallest

theorem bytesPerSector_pos : 0 < dev.bytesPerSector := by
  rw [bytesPerSector_eq]
  exact dev.describes.gran_pos

/-- The sectors are the whole chip. -/
theorem sectorCount_mul : dev.sectorCount * dev.bytesPerSector = dev.part.capacity := by
  have hwhole := dev.describes.whole
  rw [← dev.smallest] at hwhole
  rw [Device.sectorCount, Device.bytesPerSector, dev.describes.capacity]
  exact Nat.div_mul_cancel hwhole

/-- Addresses of sectors the device has do not overflow. -/
theorem wrap32_sector {k : Nat} (h : k ≤ dev.sectorCount) :
    wrap32 (k * dev.bytesPerSector) = k * dev.bytesPerSector := by
  have hle := Nat.mul_le_mul_right dev.bytesPerSector h
  have huint := dev.describes.uint32
  rw [sectorCount_mul] at hle
  exact Nat.mod_eq_of_lt (by omega)

theorem sector_bound {pos size : Nat} (h : pos + size ≤ dev.sectorCount) :
    pos * dev.bytesPerSector + size * dev.bytesPerSector ≤ dev.part.capacity := by
  have hle := Nat.mul_le_mul_right dev.bytesPerSector h
  rwa [sectorCount_mul, Nat.add_mul] at hle

/-- Contents that agree on the cells of a sector have the same sector. -/
theorem disk_congr {m' : Nor.Cells} {k : Nat}
    (h : ∀ i, i < dev.bytesPerSector → m' (k * dev.bytesPerSector + i) =
      m (k * dev.bytesPerSector + i)) : dev.disk m' k = dev.disk m k := by
  unfold Device.disk
  exact List.map_congr_left fun i hi => h i (List.mem_range.mp hi)

/-- A cell of another sector is outside a stretch of whole sectors. -/
theorem sector_outside {pos size k i : Nat} (hk : ¬ (pos ≤ k ∧ k < pos + size))
    (hi : i < dev.bytesPerSector) :
    k * dev.bytesPerSector + i < pos * dev.bytesPerSector ∨
      pos * dev.bytesPerSector + size * dev.bytesPerSector ≤ k * dev.bytesPerSector + i := by
  -- The sector ends in front of the stretch, or begins behind it.
  by_cases hlt : k < pos
  · have hle : (k + 1) * dev.bytesPerSector ≤ pos * dev.bytesPerSector :=
      Nat.mul_le_mul_right _ hlt
    rw [Nat.succ_mul] at hle
    exact .inl (by omega)
  · have hle : (pos + size) * dev.bytesPerSector ≤ k * dev.bytesPerSector :=
      Nat.mul_le_mul_right _ (by omega)
    rw [Nat.add_mul] at hle
    exact .inr (by omega)

/-- The blocks that whole sectors touch are these sectors. -/
theorem blocks_of_sectors (dev : Device) (pos size : Nat) :
    Nor.down dev.flash.gran (pos * dev.bytesPerSector) = pos * dev.bytesPerSector ∧
      Nor.up dev.flash.gran (pos * dev.bytesPerSector + size * dev.bytesPerSector) =
        pos * dev.bytesPerSector + size * dev.bytesPerSector := by
  rw [← bytesPerSector_eq]
  refine ⟨Nor.down_of_dvd (Nat.dvd_mul_left _ _), Nor.up_of_dvd bytesPerSector_pos ?_⟩
  exact Nat.dvd_add (Nat.dvd_mul_left _ _) (Nat.dvd_mul_left _ _)

/-- A write of whole sectors replaces them and no others. -/
theorem disk_stored {pos size : Nat} {buffer : List UInt8}
    (hlen : buffer.length = size * dev.bytesPerSector) :
    dev.disk (stored dev.flash.gran m (pos * dev.bytesPerSector) buffer) =
      (dev.disk m).after dev.bytesPerSector (.write pos buffer size) := by
  rcases blocks_of_sectors dev pos size with ⟨hdown, hup⟩
  funext k
  simp only [Disk.after]
  by_cases hk : pos ≤ k ∧ k < pos + size
  · rw [if_pos hk]
    -- The sector is the one `k - pos` sectors behind the beginning of the buffer.
    have hend : (k - pos + 1) * dev.bytesPerSector ≤ size * dev.bytesPerSector :=
      Nat.mul_le_mul_right _ (by omega)
    rw [Nat.succ_mul] at hend
    have hstart : k * dev.bytesPerSector = pos * dev.bytesPerSector +
        (k - pos) * dev.bytesPerSector := by
      rw [← Nat.add_mul]
      congr 1
      omega
    refine List.ext_getElem ?_ fun i hi hi' => ?_
    · rw [Device.disk, List.length_map, List.length_range, List.length_take, List.length_drop,
        hlen]
      omega
    · rw [Device.disk, List.length_map, List.length_range] at hi
      simp only [Device.disk, List.getElem_map, List.getElem_range, List.getElem_take,
        List.getElem_drop, stored]
      rw [hstart, Nat.add_assoc]
      exact Nor.overwrite_inside _ _ _ (by omega)
  · rw [if_neg hk]
    -- The erase blocks of the write are its sectors, so no other sector shares one.
    refine disk_congr fun i hi => stored_outside dev.describes.gran_pos ?_
    rw [hlen, hdown, hup]
    exact sector_outside hk hi

/-- An erase of whole sectors. -/
theorem disk_erase (dev : Device) (m : Nor.Cells) {start stop : Nat} (hle : start ≤ stop) :
    dev.disk (Nor.erase m (start * dev.bytesPerSector)
      (start * dev.bytesPerSector +
        ((if stop = start then stop + 1 else stop) - start) * dev.bytesPerSector)) =
      (dev.disk m).after dev.bytesPerSector (.erase start stop) := by
  set n := (if stop = start then stop + 1 else stop) - start with hn
  -- An empty range is erased as one sector, and touches just this one.
  have htouch : ∀ k, (start ≤ k ∧ (k < stop ∨ k = start)) ↔ (start ≤ k ∧ k < start + n) := by
    intro k
    by_cases heq : stop = start
    · rw [if_pos heq] at hn
      omega
    · rw [if_neg heq] at hn
      omega
  funext k
  simp only [Disk.after]
  by_cases hk : start ≤ k ∧ (k < stop ∨ k = start)
  · rw [if_pos hk]
    have hk' := (htouch k).mp hk
    have hlo : start * dev.bytesPerSector ≤ k * dev.bytesPerSector :=
      Nat.mul_le_mul_right _ hk'.1
    have hhi : (k + 1) * dev.bytesPerSector ≤ (start + n) * dev.bytesPerSector :=
      Nat.mul_le_mul_right _ hk'.2
    rw [Nat.succ_mul, Nat.add_mul] at hhi
    refine List.ext_getElem (by simp [Device.disk]) fun i hi hi' => ?_
    rw [Device.disk, List.length_map, List.length_range] at hi
    simp only [Device.disk, List.getElem_map, List.getElem_range, List.getElem_replicate]
    exact if_pos ⟨by omega, by omega⟩
  · rw [if_neg hk]
    refine disk_congr fun i hi => Nor.erase_outside m ?_
    exact sector_outside (fun h => hk ((htouch k).mpr h)) hi

/-- The bytes of a stretch of whole sectors are those of the sectors. -/
theorem disk_answer (pos size : Nat) :
    (List.range (size * dev.bytesPerSector)).map (fun i => m (pos * dev.bytesPerSector + i)) =
      (dev.disk m).answer (.read pos size) := by
  induction size with
  | zero => simp [Disk.answer]
  | succ size ih =>
      -- The last sector is taken off the end, since `List.range` grows there.
      have hlast : (List.range dev.bytesPerSector).map
          (fun i => m (pos * dev.bytesPerSector + (size * dev.bytesPerSector + i))) =
          dev.disk m (pos + size) := by
        simp only [Device.disk, Nat.add_mul, Nat.add_assoc]
      rw [Nat.succ_mul, List.range_add, List.map_append, ih, List.map_map]
      simp only [Disk.answer, List.range_succ, List.flatMap_append, List.flatMap_singleton]
      rw [← hlast]
      rfl

end Sectors

section Serving

variable {dev : Device} {m : Nor.Cells} {l : Link} {G : Prop}

/-- A request that was met: the answer of the disk, and the disk behind the request. -/
def Met (dev : Device) (G : Prop) (m : Nor.Cells) (r : Request) (bytes : List UInt8)
    (l' : Link) : Prop :=
  bytes = (dev.disk m).answer r ∧ (G → l'.Clean dev.flash.retryTimes) ∧
    ∃ m', Ready m' l'.chip ∧ dev.disk m' = (dev.disk m).after dev.bytesPerSector r

/-- A request that failed: the link did, and other sectors are as they were. -/
def Failed (dev : Device) (G : Prop) (m : Nor.Cells) (r : Request) (l' : Link) : Prop :=
  ¬ G ∧ ∀ k, ¬ Device.Touches r k → dev.disk l'.chip.mem k = dev.disk m k

theorem serve_read {pos size : Nat} (hin : dev.InRange (.read pos size))
    (hG : G → l.Clean dev.flash.retryTimes) (hr : Ready m l.chip) :
    match dev.serve l (.read pos size) with
    | (some bytes, l') => Met dev G m (.read pos size) bytes l'
    | (none, l') => Failed dev G m (.read pos size) l' := by
  rcases hin with ⟨hpos, hbound⟩
  have hread := ends_sfudRead dev.describes (sector_bound hbound)
    (Nat.mul_pos hpos bytesPerSector_pos) hG hr
  unfold Ends at hread
  simp only [Device.serve, Device.rtSfudRead, wrap32_sector (by omega : pos ≤ dev.sectorCount),
    wrap32_sector (by omega : size ≤ dev.sectorCount)]
  rcases hx : dev.flash.sfudRead dev.part (pos * dev.bytesPerSector)
    (size * dev.bytesPerSector) l with ⟨e | bytes, l'⟩
  · rw [hx] at hread
    simp only [if_neg (by omega : ¬ 0 = size)]
    exact ⟨hread.1, fun k _ => by rw [hread.2]⟩
  · rw [hx] at hread
    rcases hread with ⟨hclean, hr', rfl⟩
    simp only [if_true]
    exact ⟨disk_answer pos size, hclean, m, hr', rfl⟩

theorem serve_write {pos size : Nat} {buffer : List UInt8}
    (hin : dev.InRange (.write pos buffer size)) (hG : G → l.Clean dev.flash.retryTimes)
    (hr : Ready m l.chip) :
    match dev.serve l (.write pos buffer size) with
    | (some bytes, l') => Met dev G m (.write pos buffer size) bytes l'
    | (none, l') => Failed dev G m (.write pos buffer size) l' := by
  rcases hin with ⟨hpos, hbound, hlen⟩
  have hlen_pos : 0 < buffer.length := hlen ▸ Nat.mul_pos hpos bytesPerSector_pos
  have hfits : pos * dev.bytesPerSector + buffer.length ≤ dev.part.capacity :=
    hlen ▸ sector_bound hbound
  -- What the driver does, with the sectors as the blocks that are erased.
  have hwrite : Ends (dev.flash.sfudEraseWrite dev.part dev.behind
      (pos * dev.bytesPerSector) buffer) l _ _ :=
    ends_sfudEraseWrite dev.describes dev.writable hfits hlen_pos hG hr
  rcases blocks_of_sectors dev pos size with ⟨hdown, hup⟩
  have htake : buffer.take (size * dev.bytesPerSector) = buffer :=
    List.take_of_length_le (by omega)
  unfold Ends at hwrite
  simp only [Device.serve, Device.rtSfudWrite, wrap32_sector (by omega : pos ≤ dev.sectorCount),
    wrap32_sector (by omega : size ≤ dev.sectorCount), htake]
  rcases hx : dev.flash.sfudEraseWrite dev.part dev.behind (pos * dev.bytesPerSector) buffer l
    with ⟨e | bytes, l'⟩
  · -- A failed write may leave anything in its own sectors and nothing in others.
    rw [hx] at hwrite
    rcases hwrite with ⟨hg, hpart⟩
    simp only [if_neg (by omega : ¬ 0 = size)]
    refine ⟨hg, fun k hk => disk_congr fun i hi => ?_⟩
    rw [hlen, hdown, hup] at hpart
    exact unchanged_of_partly (le_refl _) (by rw [hlen]) hpart (sector_outside hk hi)
  · rw [hx] at hwrite
    simp only [if_true]
    exact ⟨rfl, hwrite.1, _, hwrite.2, disk_stored hlen⟩

theorem serve_erase {start stop : Nat} (hin : dev.InRange (.erase start stop))
    (hG : G → l.Clean dev.flash.retryTimes) (hr : Ready m l.chip) :
    match dev.serve l (.erase start stop) with
    | (some bytes, l') => Met dev G m (.erase start stop) bytes l'
    | (none, l') => Failed dev G m (.erase start stop) l' := by
  rcases hin with ⟨hle, hstop, hstart⟩
  have hdisk := disk_erase dev m hle
  have hn : 0 < (if stop = start then stop + 1 else stop) - start ∧
      start + ((if stop = start then stop + 1 else stop) - start) ≤ dev.sectorCount ∧
      ∀ k, ¬ Device.Touches (.erase start stop) k → ¬ (start ≤ k ∧
        k < start + ((if stop = start then stop + 1 else stop) - start)) := by
    simp only [Device.Touches]
    split
    · refine ⟨by omega, by omega, fun k hk => by omega⟩
    · refine ⟨by omega, by omega, fun k hk => by omega⟩
  simp only [Device.serve, Device.blkErase, if_neg (by omega : ¬ stop < start)]
  set n := (if stop = start then stop + 1 else stop) - start
  rcases hn with ⟨hpos, hbound, hout⟩
  -- Sectors are whole erase blocks, so the driver erases nothing else.
  rcases blocks_of_sectors dev start n with ⟨hdown, hup⟩
  have herase := ends_sfudErase dev.describes (Nat.mul_pos hpos bytesPerSector_pos)
    (sector_bound hbound) hG hr
  unfold Ends at herase
  simp only [wrap32_sector (by omega : start ≤ dev.sectorCount),
    wrap32_sector (by omega : n ≤ dev.sectorCount)]
  rw [hdown, hup] at herase
  rcases hx : dev.flash.sfudErase dev.part (start * dev.bytesPerSector)
    (n * dev.bytesPerSector) l with ⟨e | bytes, l'⟩
  · rw [hx] at herase
    rcases herase with ⟨hg, mid, h1, h2, hmem⟩
    simp only [Bool.false_eq_true, if_false]
    refine ⟨hg, fun k hk => disk_congr fun i hi => ?_⟩
    have hcell := sector_outside (hout k hk) hi
    rw [hmem]
    exact Nor.erase_outside m (by omega)
  · rw [hx] at herase
    simp only [if_true]
    exact ⟨rfl, herase.1, _, herase.2, hdisk⟩

/-- What one request does. -/
theorem serve_cases (r : Request) (hin : dev.InRange r) (hG : G → l.Clean dev.flash.retryTimes)
    (hr : Ready m l.chip) :
    match dev.serve l r with
    | (some bytes, l') => Met dev G m r bytes l'
    | (none, l') => Failed dev G m r l' := by
  cases r with
  | read pos size => exact serve_read hin hG hr
  | write pos buffer size => exact serve_write hin hG hr
  | erase start stop => exact serve_erase hin hG hr

/-- The answers of a device, one for each request of a run. -/
def Device.answers (dev : Device) (l : Link) (rs : List Request) : List (Option (List UInt8)) :=
  trace dev.serveStep (fun l r => (dev.serve l r).1) l rs

/-- The answers of a disk. -/
def Disk.answers (g : Nat) (d : Disk) (rs : List Request) : List (Option (List UInt8)) :=
  trace (fun d r => some (Disk.after g d r)) (fun d r => some (Disk.answer d r)) d rs

/-- One step of a run: the device has met the request. -/
theorem serveStep_met {l' : Link} {r : Request} (hin : dev.InRange r)
    (hG : G → l.Clean dev.flash.retryTimes) (hr : Ready m l.chip)
    (hs : dev.serveStep l r = some l') :
    ∃ bytes, dev.serve l r = (some bytes, l') ∧ Met dev G m r bytes l' := by
  have hcase := serve_cases r hin hG hr
  unfold Device.serveStep at hs
  rcases hx : dev.serve l r with ⟨_ | bytes, l1⟩
  · rw [hx] at hs
    cases hs
  · rw [hx] at hs hcase
    simp only [Option.some.injEq] at hs
    subst hs
    exact ⟨bytes, rfl, hcase⟩

/-- A run in which no request fails: the device has answered as the disk does, and is the
    disk behind the requests. -/
theorem run_met {t : Link} {rs : List Request} (hin : ∀ r ∈ rs, dev.InRange r)
    (hr : Ready m l.chip) (h : run dev.serveStep l rs = some t) :
    dev.answers l rs = (dev.disk m).answers dev.bytesPerSector rs ∧
      ∃ m', Ready m' t.chip ∧
        dev.disk m' = rs.foldl (Disk.after dev.bytesPerSector) (dev.disk m) := by
  induction rs generalizing l m with
  | nil =>
      simp only [run, Option.some.injEq] at h
      exact ⟨rfl, m, h ▸ hr, rfl⟩
  | cons r rs ih =>
      rcases run_cons_some dev.serveStep h with ⟨l', hs, hrest⟩
      -- Nothing is asked of the link here, as the requests are known to be met.
      rcases serveStep_met (G := False) (hin r List.mem_cons_self) False.elim hr hs with
        ⟨bytes, hserve, hbytes, -, m', hr', hdisk⟩
      rcases ih (fun q hq => hin q (List.mem_cons_of_mem r hq)) hr' hrest with ⟨hans, hlast⟩
      refine ⟨?_, ?_⟩
      · rw [Device.answers, trace_cons _ _ hs, Disk.answers, trace_cons _ _ rfl, hserve, hbytes]
        rw [Device.answers, Disk.answers, hdisk] at hans
        rw [hans]
      · rw [List.foldl_cons, ← hdisk]
        exact hlast

/-- On a clean link no request fails. -/
theorem run_clean {rs : List Request} (hin : ∀ r ∈ rs, dev.InRange r)
    (hclean : l.Clean dev.flash.retryTimes) (hr : Ready m l.chip) :
    ∃ t, run dev.serveStep l rs = some t ∧ t.Clean dev.flash.retryTimes := by
  induction rs generalizing l m with
  | nil => exact ⟨l, rfl, hclean⟩
  | cons r rs ih =>
      -- With the link being clean a request cannot have failed.
      have hcase := serve_cases r (hin r List.mem_cons_self) (G := True) (fun _ => hclean) hr
      rcases hx : dev.serve l r with ⟨_ | bytes, l'⟩
      · rw [hx] at hcase
        exact absurd trivial hcase.1
      · rw [hx] at hcase
        rcases hcase with ⟨-, hclean', m', hr', -⟩
        have hs : dev.serveStep l r = some l' := by simp only [Device.serveStep, hx]
        rcases ih (fun q hq => hin q (List.mem_cons_of_mem r hq)) (hclean' trivial) hr' with
          ⟨t, ht, hct⟩
        exact ⟨t, by rw [run_cons _ hs, ht], hct⟩

/-- The device is a disk: for every sequence of requests it can meet, every chip that is
    ready and every link, it answers as the disk does as long as no request fails, and is
    the disk behind them; and on a clean link none fails. -/
theorem device_refines_disk {rs : List Request} (hin : ∀ r ∈ rs, dev.InRange r)
    (hr : Ready m l.chip) :
    (∀ t, run dev.serveStep l rs = some t →
      dev.answers l rs = (dev.disk m).answers dev.bytesPerSector rs ∧
        ∃ m', Ready m' t.chip ∧
          dev.disk m' = rs.foldl (Disk.after dev.bytesPerSector) (dev.disk m)) ∧
      (l.Clean dev.flash.retryTimes → ∃ t, run dev.serveStep l rs = some t) := by
  refine ⟨fun t h => run_met hin hr h, fun hclean => ?_⟩
  rcases run_clean hin hclean hr with ⟨t, ht, -⟩
  exact ⟨t, ht⟩

theorem decided_rtSfudRead (dev : Device) (pos size : Nat) :
    Decided (dev.rtSfudRead pos size) := by
  refine decided_map (decided_sfudRead (f := dev.flash) (p := dev.part)
    (wrap32 (pos * dev.bytesPerSector)) (wrap32 (size * dev.bytesPerSector)))
    (fun r => match r with
      | .ok bytes => (size, bytes)
      | .error _ => (0, [])) fun l => ?_
  unfold Device.rtSfudRead
  rcases dev.flash.sfudRead dev.part _ _ l with ⟨e | bytes, l'⟩
  · rfl
  · rfl

theorem decided_rtSfudWrite (dev : Device) (pos : Nat) (buffer : List UInt8) (size : Nat) :
    Decided (dev.rtSfudWrite pos buffer size) := by
  have hwrite : Decided (dev.flash.sfudEraseWrite dev.part dev.behind
      (wrap32 (pos * dev.bytesPerSector)) (buffer.take (wrap32 (size * dev.bytesPerSector)))) :=
    decided_sfudEraseWrite _ _
  refine decided_map hwrite (fun r => match r with
    | .ok _ => size
    | .error _ => 0) fun l => ?_
  unfold Device.rtSfudWrite
  rcases dev.flash.sfudEraseWrite dev.part dev.behind _ _ l with ⟨e | _, l'⟩
  · rfl
  · rfl

theorem decided_blkErase (dev : Device) (start stop : Nat) : Decided (dev.blkErase start stop) := by
  unfold Device.blkErase
  by_cases hlt : stop < start
  · simp only [if_pos hlt]
    exact decided_const false
  · simp only [if_neg hlt]
    generalize (if stop = start then stop + 1 else stop) = stop'
    have herase : Decided (dev.flash.sfudErase dev.part (wrap32 (start * dev.bytesPerSector))
        (wrap32 ((stop' - start) * dev.bytesPerSector))) := decided_sfudErase _ _
    refine decided_map herase (fun r => match r with
      | .ok _ => true
      | .error _ => false) fun l => ?_
    rcases dev.flash.sfudErase dev.part _ _ l with ⟨e | _, l'⟩
    · rfl
    · rfl

/-- What a request does is decided by the transfers it makes. -/
theorem decided_serve (dev : Device) (r : Request) : Decided fun l => dev.serve l r := by
  cases r with
  | read pos size =>
      exact decided_map (decided_rtSfudRead dev pos size)
        (fun r => if r.1 = size then some r.2 else none) fun _ => rfl
  | write pos buffer size =>
      exact decided_map (decided_rtSfudWrite dev pos buffer size)
        (fun count => if count = size then some [] else none) fun _ => rfl
  | erase start stop =>
      exact decided_map (decided_blkErase dev start stop)
        (fun ok => if ok then some [] else none) fun _ => rfl

/-- A request that fails behind any number that did not: one of its transfers was refused or
    took too long, and every sector it was not asked to change is as the disk has it. -/
theorem serve_failed {t t' : Link} {rs : List Request} {r : Request}
    (hin : ∀ q ∈ rs, dev.InRange q) (hin' : dev.InRange r) (hr : Ready m l.chip)
    (h : run dev.serveStep l rs = some t) (hf : dev.serve t r = (none, t')) :
    t.Fault dev.flash.retryTimes t' ∧ ∀ k, ¬ Device.Touches r k →
      dev.disk t'.chip.mem k = rs.foldl (Disk.after dev.bytesPerSector) (dev.disk m) k := by
  rcases run_met hin hr h with ⟨-, m', hr', hdisk⟩
  have hcase := serve_cases r hin' (G := t.Clean dev.flash.retryTimes) id hr'
  rw [hf] at hcase
  refine ⟨?_, fun k hk => by rw [hcase.2 k hk, hdisk]⟩
  -- On a clean link the request would have been met.
  have hgood : ∀ fates : Nat → Fate, (t.withFates fates).Clean dev.flash.retryTimes →
      (dev.serve (t.withFates fates) r).1 ≠ none := by
    intro fates hclean hnone
    have hready : Ready m' (t.withFates fates).chip := hr'
    have hmet := serve_cases r hin' (G := True) (fun _ => hclean) hready
    rcases hx : dev.serve (t.withFates fates) r with ⟨_ | bytes, l'⟩
    · rw [hx] at hmet
      exact hmet.1 trivial
    · rw [hx] at hnone
      cases hnone
  have hfault := (decided_serve dev r).fault (· = none) hgood (by rw [hf])
  rw [hf] at hfault
  exact hfault

end Serving

/-- A W25Q64 as it is without SFDP parameters: 8 MiB, blocks of 4 KiB, pages of 256
    bytes. -/
def w25q64 : Device where
  flash := { capacity := 0x800000, writeMode := 1, eraseGran := 4096, eraseGranCmd := 0x20 }
  part :=
    { capacity := 0x800000
      eraseSize := fun cmd => if cmd = 0x20 then some 4096 else none
      fourByte := false }
  describes := ⟨rfl, rfl, by decide, by decide, by decide, by decide,
    fun _ => ⟨by decide, rfl⟩, nofun, rfl⟩
  writable := .inl rfl
  smallest := rfl

/-- An erased chip on a link without failures, each operation taking two looks. -/
def quietLink : Link := { chip := { mem := fun _ => 0xff }, fates := fun _ => .done 2 }

theorem quietLink_clean : quietLink.Clean w25q64.flash.retryTimes := fun _ => ⟨2, by decide, rfl⟩

theorem quietLink_ready : Ready (fun _ => 0xff) quietLink.chip := ⟨rfl, rfl, rfl⟩

/-- Two sectors are written, the first of them is erased, and both are read. -/
def someRequests : List Request :=
  [.write 897 (List.replicate 8192 7) 2, .erase 897 898, .read 897 2]

theorem someRequests_inRange : ∀ r ∈ someRequests, w25q64.InRange r := by
  intro r hr
  have hcount : w25q64.sectorCount = 2048 := by decide
  have hbytes : w25q64.bytesPerSector = 4096 := rfl
  simp only [someRequests, List.mem_cons, List.not_mem_nil, or_false] at hr
  rcases hr with rfl | rfl | rfl
  · exact ⟨by decide, by rw [hcount]; decide, by rw [List.length_replicate, hbytes]⟩
  · exact ⟨by decide, by rw [hcount]; decide, by rw [hcount]; decide⟩
  · exact ⟨by decide, by rw [hcount]; decide⟩

theorem device_refines_disk_w25q64 : ∃ t, run w25q64.serveStep quietLink someRequests = some t ∧
    w25q64.answers quietLink someRequests =
      (w25q64.disk fun _ => 0xff).answers w25q64.bytesPerSector someRequests := by
  rcases device_refines_disk someRequests_inRange quietLink_ready with ⟨hrun, hclean⟩
  rcases hclean quietLink_clean with ⟨t, ht⟩
  exact ⟨t, ht, (hrun t ht).1⟩

/-- A link on which every transfer is lost. -/
def deadLink : Link := { chip := { mem := fun _ => 0xff }, fates := fun _ => .lost }

/-- An erase over it fails in its first transfer, and the other sectors are as they were. -/
theorem serve_failed_deadLink : ∃ t', w25q64.serve deadLink (.erase 897 898) = (none, t') ∧
    deadLink.Fault w25q64.flash.retryTimes t' ∧
    ∀ k, k ≠ 897 → w25q64.disk t'.chip.mem k = w25q64.disk (fun _ => 0xff) k := by
  have hcount : w25q64.sectorCount = 2048 := by decide
  have hin : w25q64.InRange (.erase 897 898) :=
    ⟨by decide, by rw [hcount]; decide, by rw [hcount]; decide⟩
  have hnone : (w25q64.serve deadLink (.erase 897 898)).1 = none := rfl
  rcases hx : w25q64.serve deadLink (.erase 897 898) with ⟨a, t'⟩
  rw [hx] at hnone
  subst hnone
  have hready : Ready (fun _ => 0xff) deadLink.chip := ⟨rfl, rfl, rfl⟩
  have hnil : ∀ q ∈ ([] : List Request), w25q64.InRange q := by simp
  have hf := serve_failed hnil hin hready (run_nil _ _) hx
  rw [List.foldl_nil] at hf
  exact ⟨t', rfl, hf.1, fun k hk => hf.2 k (by simp only [Device.Touches]; omega)⟩

end Flash

end Firmware
