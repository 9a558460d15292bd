import Firmware.Lib.Bytes

/-!
# The Heap

`mem.c`, the allocator of the kernel: one stretch of memory, cut into blocks that begin
with a `struct heap_mem` each. A header says whether its block is in use and where the next
and the previous header are, as offsets from the beginning of the heap, and a last header
that is never freed ends the list.

The headers are in the same memory as the blocks and are read from it byte by byte, so a
thread that writes behind its block destroys them here as it does there. Offsets and sizes
are `rt_size_t`, 32 bits wide, and wrap around as in C. The pointers `mem`, `lfree` and
`heap_end` are kept as offsets from `heap_ptr`; what the callers give and get are
addresses.

An assertion that fails stops the system, and so does a loop that comes to no end: the
functions give `none` for both. The loops count down from more turns than a list of
headers inside the heap can have. The kernel takes the heap semaphore around everything
that reads or writes headers, so one call after the other is all there is, except that
`rt_realloc` gives it back before it allocates a new block: `Heap.resize` is the part of it
under the first lock, and `Heap.move` what comes behind it.

## Main definitions

* `HeapMem`: `struct heap_mem`, with its bytes.
* `Heap`: The memory and the variables of the allocator.
* `rtSystemHeapInit`, `rtMalloc`, `rtFree`, `rtRealloc`, `rtCalloc`: The functions.
* `Heap.plugHoles`, `Heap.cut`: Joining a free block with its neighbours, and cutting one.
-/

namespace Firmware

namespace Heap

/-- `RT_ALIGN_SIZE` -/
def rtAlignSize : UInt32 := 4

/-- `SIZEOF_STRUCT_MEM` -/
def sizeofStructMem : UInt32 := 12

/-- `MIN_SIZE` and `MIN_SIZE_ALIGNED`, which are the same for this alignment. -/
def minSizeAligned : UInt32 := 12

/-- `HEAP_MAGIC` -/
def heapMagic : UInt16 := 0x1ea0

/-- `RT_NULL` -/
def rtNull : UInt32 := 0

/-- `RT_ALIGN(size, RT_ALIGN_SIZE)` -/
def rtAlign (size : UInt32) : UInt32 := (size + rtAlignSize - 1) &&& ~~~(rtAlignSize - 1)

/-- `RT_ALIGN_DOWN(size, RT_ALIGN_SIZE)` -/
def rtAlignDown (size : UInt32) : UInt32 := size &&& ~~~(rtAlignSize - 1)

/-- `struct heap_mem` -/
@[ext] structure HeapMem where
  magic : UInt16
  used : UInt16
  next : UInt32
  prev : UInt32
  deriving DecidableEq, Repr

/-- The bytes of a header. -/
def HeapMem.bytes (mem : HeapMem) : List UInt8 :=
  leBytes 2 mem.magic.toNat ++ (leBytes 2 mem.used.toNat ++
    (leBytes 4 mem.next.toNat ++ leBytes 4 mem.prev.toNat))

/-- The header with these bytes. -/
def HeapMem.ofBytes (bs : List UInt8) : HeapMem where
  magic := UInt16.ofNat (leValue (bs.take 2))
  used := UInt16.ofNat (leValue ((bs.drop 2).take 2))
  next := UInt32.ofNat (leValue ((bs.drop 4).take 4))
  prev := UInt32.ofNat (leValue ((bs.drop 8).take 4))

end Heap

open Heap

/-- The memory, `heap_ptr`, `mem_size_aligned`, `lfree`, `used_mem` and `max_mem`. -/
structure Heap where
  ram : Memory UInt8
  heapPtr : UInt32
  memSizeAligned : UInt32
  lfree : UInt32
  usedMem : UInt32
  maxMem : UInt32

namespace Heap

variable (h : Heap)

/-- The address of the header at an offset, `&heap_ptr[ptr]`. -/
def addr (ptr : UInt32) : UInt32 := h.heapPtr + ptr

/-- The offset of `heap_end`. -/
def heapEnd : UInt32 := h.memSizeAligned + sizeofStructMem

/-- `(struct heap_mem *)&heap_ptr[ptr]` -/
def header (ptr : UInt32) : HeapMem := .ofBytes (h.ram.read (h.addr ptr).toNat 12)

/-- An assignment to fields of a header. -/
def modify (ptr : UInt32) (f : HeapMem → HeapMem) : Heap :=
  { h with ram := h.ram.store (h.addr ptr).toNat (f (h.header ptr)).bytes }

/-- `mem->next = nmem->next; ((struct heap_mem *)&heap_ptr[nmem->next])->prev = mem` -/
def join (mem nmem : UInt32) : Heap :=
  -- The header that goes is read once more behind the first assignment.
  let h := h.modify mem fun m => { m with next := (h.header nmem).next }
  h.modify (h.header nmem).next fun m => { m with prev := mem }

/-- The first half of `plug_holes` -/
def plugForward (mem : UInt32) : Heap :=
  let nmem := (h.header mem).next
  if mem ≠ nmem ∧ (h.header nmem).used = 0 ∧ nmem ≠ h.heapEnd then
    -- `lfree` must not point to a header that is gone.
    (if h.lfree = nmem then { h with lfree := mem } else h).join mem nmem
  else h

/-- The second half of `plug_holes` -/
def plugBackward (mem : UInt32) : Heap :=
  let pmem := (h.header mem).prev
  if pmem ≠ mem ∧ (h.header pmem).used = 0 then
    (if h.lfree = mem then { h with lfree := pmem } else h).join pmem mem
  else h

/-- `plug_holes` -/
def plugHoles (mem : UInt32) : Option Heap :=
  if h.heapPtr ≤ h.addr mem ∧ h.addr mem < h.addr h.heapEnd ∧ (h.header mem).used = 0 then
    some ((h.plugForward mem).plugBackward mem)
  else none

/-- Create the struct `mem2` at `ptr2` and insert it between `mem` and `mem->next`, as
    `rt_malloc` and `rt_realloc` do it. -/
def cut (ptr ptr2 : UInt32) : Heap :=
  let h := h.modify ptr2 fun _ => ⟨heapMagic, 0, (h.header ptr).next, ptr⟩
  let h := h.modify ptr fun mem => { mem with next := ptr2 }
  -- The last header keeps itself for its `prev`.
  if (h.header ptr2).next ≠ h.heapEnd then
    h.modify (h.header ptr2).next fun mem => { mem with prev := ptr2 }
  else h

/-- `used_mem += size; if (max_mem < used_mem) max_mem = used_mem;` -/
def account (size : UInt32) : Heap :=
  { h with
    usedMem := h.usedMem + size
    maxMem := if h.maxMem < h.usedMem + size then h.usedMem + size else h.maxMem }

/-- `rt_system_heap_init`. Without room for two headers there is no heap. -/
def rtSystemHeapInit (ram : Memory UInt8) (beginAddr endAddr : UInt32) : Option Heap :=
  let beginAlign := rtAlign beginAddr
  let endAlign := rtAlignDown endAddr
  if 2 * sizeofStructMem < endAlign ∧ beginAlign ≤ endAlign - 2 * sizeofStructMem then
    let size := endAlign - beginAlign - 2 * sizeofStructMem
    let h : Heap := ⟨ram, beginAlign, size, 0, 0, 0⟩
    let h := h.modify 0 fun _ => ⟨heapMagic, 0, size + sizeofStructMem, 0⟩
    -- The header at the end is in use, so nothing is ever joined with it.
    some (h.modify (size + sizeofStructMem) fun _ =>
      ⟨heapMagic, 1, size + sizeofStructMem, size + sizeofStructMem⟩)
  else none

/-- More turns than a loop along the headers can take. -/
def turns : Nat := h.memSizeAligned.toNat + 2

/-- The loop of `rt_malloc` from `ptr` on: the block it finds, if there is one. -/
def search (size : UInt32) : Nat → UInt32 → Option (Option UInt32)
  | 0, _ => none
  | fuel + 1, ptr =>
      -- A block that would end with the heap is not looked at.
      if ptr < h.memSizeAligned - size then
        let mem := h.header ptr
        if mem.used = 0 ∧ size ≤ mem.next - (ptr + sizeofStructMem) then some (some ptr)
        else search size fuel mem.next
      else some none

/-- `while (lfree->used && lfree != heap_end) lfree = &heap_ptr[lfree->next];`, with the
    assertion behind it, which says what the loop ends with. -/
def raiseLfree : Nat → Heap → Option Heap
  | 0, _ => none
  | fuel + 1, h =>
      if (h.header h.lfree).used ≠ 0 ∧ h.lfree ≠ h.heapEnd then
        raiseLfree fuel { h with lfree := (h.header h.lfree).next }
      else some h

/-- What `rt_malloc` writes to the headers of the block it has found, and counts. -/
def use (mem size : UInt32) : Heap :=
  let h :=
    if size + sizeofStructMem + minSizeAligned ≤
        (h.header mem).next - (mem + sizeofStructMem) then
      ((h.cut mem (mem + sizeofStructMem + size)).modify mem fun m => { m with used := 1 }).account
        (size + sizeofStructMem)
    else
      (h.modify mem fun m => { m with used := 1 }).account ((h.header mem).next - mem)
  h.modify mem fun m => { m with magic := heapMagic }

/-- What `rt_malloc` does with the block it has found, with the assertions at its end. -/
def take (mem size : UInt32) : Option (UInt32 × Heap) :=
  match if mem = h.lfree then raiseLfree h.turns (h.use mem size) else some (h.use mem size) with
  | none => none
  | some h =>
      if h.addr mem + sizeofStructMem + size ≤ h.addr h.heapEnd ∧
          (h.addr mem + sizeofStructMem) % rtAlignSize = 0 ∧
          h.addr mem &&& (rtAlignSize - 1) = 0 then
        some (h.addr mem + sizeofStructMem, h)
      else none

/-- `rt_malloc` -/
def rtMalloc (size : UInt32) : Option (UInt32 × Heap) :=
  if size = 0 then some (rtNull, h)
  else
    let size := rtAlign size
    if h.memSizeAligned < size then some (rtNull, h)
    else
      let size := if size < minSizeAligned then minSizeAligned else size
      match h.search size h.turns h.lfree with
      | none => none
      | some none => some (rtNull, h)
      | some (some mem) => h.take mem size

/-- The offset of the header in front of an address. -/
def headerOf (rmem : UInt32) : UInt32 := rmem - sizeofStructMem - h.heapPtr

/-- What `rt_free` does to the block before it plugs holes. -/
def release (mem : UInt32) : Heap :=
  let h := h.modify mem fun m => { m with used := 0, magic := heapMagic }
  -- `lfree` is the first of the free blocks.
  let h := if h.addr mem < h.addr h.lfree then { h with lfree := mem } else h
  { h with usedMem := h.usedMem - ((h.header mem).next - mem) }

/-- `rt_free` -/
def rtFree (rmem : UInt32) : Option Heap :=
  if rmem = rtNull then some h
  else if rmem &&& (rtAlignSize - 1) = 0 ∧ h.heapPtr ≤ rmem ∧ rmem < h.addr h.heapEnd then
    let mem := h.headerOf rmem
    if (h.header mem).used ≠ 0 ∧ (h.header mem).magic = heapMagic then
      (h.release mem).plugHoles mem
    else none
  else none

/-- `rt_realloc` from where it takes the semaphore to where it gives it back: whether it is
    done with the block, or goes on to allocate another one. -/
def resize (rmem newsize : UInt32) : Option (Bool × Heap) :=
  if rmem < h.heapPtr ∨ h.addr h.heapEnd ≤ rmem then some (true, h)
  else
    let ptr := h.headerOf rmem
    let size := (h.header ptr).next - ptr - sizeofStructMem
    if size = newsize then some (true, h)
    else if newsize + sizeofStructMem + minSizeAligned < size then
      let h := { h with usedMem := h.usedMem - (size - newsize) }
      let ptr2 := ptr + sizeofStructMem + newsize
      ((h.cut ptr ptr2).plugHoles ptr2).map fun h => (true, h)
    else some (false, h)

/-- `rt_realloc` behind its first lock: it allocates another block, copies what is in this
    one, of which `size` bytes are room, and gives it back. -/
def move (rmem newsize size : UInt32) : Option (UInt32 × Heap) :=
  match h.rtMalloc newsize with
  | none => none
  | some (nmem, h) =>
      if nmem ≠ rtNull then
        let n := if size < newsize then size else newsize
        let h := { h with ram := h.ram.store nmem.toNat (h.ram.read rmem.toNat n.toNat) }
        -- The old block is given back only now, so the two cannot overlap.
        (h.rtFree rmem).map fun h => (nmem, h)
      else some (nmem, h)

/-- `rt_realloc` -/
def rtRealloc (rmem newsize : UInt32) : Option (UInt32 × Heap) :=
  let newsize := rtAlign newsize
  if h.memSizeAligned < newsize then some (rtNull, h)
  else if newsize = 0 then (h.rtFree rmem).map fun h => (rtNull, h)
  else if rmem = rtNull then h.rtMalloc newsize
  else
    let ptr := h.headerOf rmem
    let size := (h.header ptr).next - ptr - sizeofStructMem
    match h.resize rmem newsize with
    | none => none
    | some (true, h) => some (rmem, h)
    | some (false, h) => h.move rmem newsize size

/-- `rt_calloc`. The product wraps around. -/
def rtCalloc (count size : UInt32) : Option (UInt32 × Heap) :=
  match h.rtMalloc (count * size) with
  | none => none
  | some (p, h) =>
      if p ≠ rtNull then
        some (p, { h with ram := h.ram.store p.toNat (List.replicate (count * size).toNat 0) })
      else some (p, h)

end Heap

end Firmware
