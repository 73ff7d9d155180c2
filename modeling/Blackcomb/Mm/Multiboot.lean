import Blackcomb.Mm.Pmm

/-!
# The boot loader's map

`pmm_set_mmap` of `pmm.c`: from the entries of the multiboot2 tag to the table of regions. The tag is
read from memory, at the offsets of `multiboot2.h`. The place of the kernel image is what `link.lds`
makes of it, below `2 ^ 31`; all that is asked of it is that a page behind its end has an address. A
region behind the last place of `regions` has no meaning.

`Region` promises what the allocator relies on. A region as it is recorded promises nothing, and the
allocator is here once more on such a table.
-/

namespace Blackcomb.Mm

open Memory Bitmap

/-- `MAX_REGIONS`. -/
def maxRegions : Nat := 64

/-- `MULTIBOOT_MEMORY_AVAILABLE`. -/
def multibootMemoryAvailable : Nat := 1

/-- `struct multiboot_mmap_entry`, the fields that are read. -/
structure MmapEntry where
  addr : Nat
  len : Nat
  type : Nat
  deriving DecidableEq

/-- The entry at an address. -/
def mmapEntryAt (m : Bytes) (entry : Nat) : MmapEntry where
  addr := load m entry 8
  len := load m (entry + 8) 8
  type := load m (entry + 16) 4

/-- `mmap->size`. -/
def mmapSize (m : Bytes) (mmap : Nat) : Nat := load m (mmap + 4) 4

/-- `mmap->entry_size`. -/
def mmapEntrySize (m : Bytes) (mmap : Nat) : Nat := load m (mmap + 8) 4

/-- Where `mmap->entries` stands in the tag. -/
def mmapEntriesOffset : Nat := 16

/-- `struct mmap_region`. -/
structure MmapRegion where
  start : Nat
  pages : Nat
  deriving DecidableEq

/-- `__kernel_start_phys` and `__kernel_end_phys`. -/
structure KernelImage where
  start : Nat
  stop : Nat
  ordered : start ≤ stop
  room : stop + pageSize ≤ 2 ^ 64

/-- `ALIGNDOWN(val, PAGE_SIZE)`. -/
def alignDown (val : Nat) : Nat := val / pageSize * pageSize

/-- `ALIGNUP(val, PAGE_SIZE)`. -/
def alignUp (val : Nat) : Nat := alignDown (add64 val (pageSize - 1))

namespace KernelImage

/-- `OVERLAPS_KERNEL(x)`. -/
def Overlaps (k : KernelImage) (x : Nat) : Prop := k.start ≤ x ∧ x < k.stop

instance (k : KernelImage) (x : Nat) : Decidable (k.Overlaps x) :=
  inferInstanceAs (Decidable (_ ∧ _))

/-- The hole poked for a start in the image: where the region starts, if it is not all overlapped. -/
def pokeStart (k : KernelImage) (start stop : Nat) : Option Nat :=
  if k.Overlaps start then
    if alignUp k.stop ≥ stop then none else some (alignUp k.stop)
  else some start

/-- The hole poked for an end in the image. -/
def pokeEnd (k : KernelImage) (start stop : Nat) : Option Nat :=
  if k.Overlaps stop then
    if start ≥ alignDown k.start then none else some (alignDown k.start)
  else some stop

/-- The body of `pmm_set_mmap`'s loop: the region that is recorded for an entry. -/
def regionOf (k : KernelImage) (entry : MmapEntry) : Option MmapRegion :=
  if entry.type ≠ multibootMemoryAvailable then none
  else do
    let stop := add64 entry.addr entry.len
    let start ← k.pokeStart entry.addr stop
    let stop ← k.pokeEnd start stop
    pure { start := start, pages := sub64 stop start / pageSize }

end KernelImage

/-- The `while` of `pmm_set_mmap`, with the regions recorded so far. -/
def setMmapLoop (k : KernelImage) (m : Bytes) (stop entrySize : Nat) :
    Nat → Nat → List MmapRegion → Except Fault (List MmapRegion)
  | 0, entry, rs => if entry < stop then .error .diverge else .ok rs
  | fuel + 1, entry, rs =>
    if entry < stop then
      match k.regionOf (mmapEntryAt m entry) with
      | none => setMmapLoop k m stop entrySize fuel (entry + entrySize) rs
      | some r =>
        if rs.length < maxRegions then
          setMmapLoop k m stop entrySize fuel (entry + entrySize) (rs ++ [r])
        else .error .undefined
    else .ok rs

/-- `pmm_set_mmap`: the first `n_regions` of `regions`. -/
def pmmSetMmap (k : KernelImage) (m : Bytes) (mmap : Nat) : Except Fault (List MmapRegion) :=
  setMmapLoop k m (mmap + mmapSize m mmap) (mmapEntrySize m mmap) (mmapSize m mmap)
    (mmap + mmapEntriesOffset) []

/-! ## The allocator on a table as it is recorded -/

/-- `bmap_size`. -/
def MmapRegion.bmapSize (region : MmapRegion) : Nat := (region.pages + 8 - 1) / 8

/-- The loop of `pmm_init_regions` over the pages of one bitmap. -/
def MmapRegion.reserveBitmap (m : Bytes) (region : MmapRegion) : Nat → Bytes
  | 0 => m
  | j + 1 => setBit (reserveBitmap m region j) region.start j

/-- The body of `pmm_init_regions`. -/
def MmapRegion.init (m : Bytes) (region : MmapRegion) : Bytes :=
  region.reserveBitmap (memset m region.start 0 region.bmapSize)
    ((region.bmapSize + pageSize - 1) / pageSize)

/-- `pmm_init_regions`. -/
def recordedInit (regions : List MmapRegion) (m : Bytes) : Bytes := regions.foldl MmapRegion.init m

/-- The loop of `find_free_page` from page `i` on, with `n` pages to go. -/
def MmapRegion.findFreePageFrom (m : Bytes) (region : MmapRegion) : Nat → Nat → Nat × Bytes
  | _, 0 => (0, m)
  | i, n + 1 =>
    if bit m region.start i then findFreePageFrom m region (i + 1) n
    else (add64 region.start (i * pageSize), setBit m region.start i)

/-- `find_free_page`. -/
def MmapRegion.findFreePage (m : Bytes) (region : MmapRegion) : Nat × Bytes :=
  region.findFreePageFrom m 0 region.pages

/-- The loop of `pmm_alloc`. -/
def recordedAllocFrom (m : Bytes) : List MmapRegion → Nat × Bytes
  | [] => (0, m)
  | region :: regions =>
    let (addr, m) := region.findFreePage m
    if addr ≠ 0 then (addr, m) else recordedAllocFrom m regions

/-- `pmm_alloc`. -/
def recordedAlloc (regions : List MmapRegion) (m : Bytes) : Nat × Bytes :=
  let (addr, m) := recordedAllocFrom m regions
  (addr, memset m addr 0 pageSize)

/-- The body of `pmm_free`'s loop. -/
def MmapRegion.freeIn (phys : Nat) (m : Bytes) (region : MmapRegion) : Bytes :=
  if phys < region.start ∨ phys > add64 region.start (region.pages * pageSize) then m
  else clearBit m region.start ((phys - region.start) / pageSize)

/-- `pmm_free`. -/
def recordedFree (regions : List MmapRegion) (m : Bytes) (phys : Nat) : Except Fault Bytes :=
  if phys % pageSize ≠ 0 then .error (.panic "attempting to free non-paged-aligned region")
  else .ok (regions.foldl (MmapRegion.freeIn phys) m)

end Blackcomb.Mm
