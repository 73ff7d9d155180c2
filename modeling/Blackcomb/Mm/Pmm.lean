import Mathlib.Data.List.Pairwise
import Blackcomb.Lib.Bitmap
import Blackcomb.Mm.Kmalloc

/-!
# The physical frame allocator

`pmm.c` on physical memory, which the kernel reads and writes through `P_TO_V`. The table of regions
is given: what `pmm_set_mmap` makes of the boot loader's map. A region is page aligned,
regions do not overlap, and physical addresses have at most 52 bits, so nothing here wraps and the
`int` that counts bitmap pages does not overflow.
-/

namespace Blackcomb.Mm

open Memory Bitmap

/-- `struct mmap_region`. -/
structure Region where
  start : Nat
  pages : Nat
  aligned : start % pageSize = 0
  fits : start + pages * pageSize ≤ 2 ^ 52

/-- The first address after a region. -/
def Region.stop (r : Region) : Nat := r.start + r.pages * pageSize

/-- `regions`, the first `n_regions` of it. -/
structure RegionTable where
  regions : List Region
  disjoint : regions.Pairwise fun r q => r.stop ≤ q.start ∨ q.stop ≤ r.start

/-- `region_get_bit`. -/
def regionGetBit (m : Bytes) (r : Region) (i : Nat) : Bool := bit m r.start i

/-- `region_set_bit`. -/
def regionSetBit (m : Bytes) (r : Region) (i : Nat) : Bytes := setBit m r.start i

/-- `region_unset_bit`. -/
def regionUnsetBit (m : Bytes) (r : Region) (i : Nat) : Bytes := clearBit m r.start i

/-- `find_free_page`'s loop from page `i` on, with `n` pages to go. -/
def findFreePageFrom (m : Bytes) (r : Region) : Nat → Nat → Nat × Bytes
  | _, 0 => (0, m)
  | i, n + 1 =>
    if regionGetBit m r i then findFreePageFrom m r (i + 1) n
    else (r.start + i * pageSize, regionSetBit m r i)

/-- `find_free_page`. -/
def findFreePage (m : Bytes) (r : Region) : Nat × Bytes := findFreePageFrom m r 0 r.pages

/-- `bmap_size`. -/
def Region.bmapSize (r : Region) : Nat := (r.pages + 8 - 1) / 8

/-- `DIV_CEIL(bmap_size, PAGE_SIZE)`: the pages that hold the region's own bitmap. -/
def Region.bmapPages (r : Region) : Nat := (r.bmapSize + pageSize - 1) / pageSize

/-- `pmm_init_regions`' loop over the pages of one bitmap. -/
def reserveBitmap (m : Bytes) (r : Region) : Nat → Bytes
  | 0 => m
  | j + 1 => regionSetBit (reserveBitmap m r j) r j

/-- The body of `pmm_init_regions`. -/
def initRegion (m : Bytes) (r : Region) : Bytes :=
  reserveBitmap (memset m r.start 0 r.bmapSize) r r.bmapPages

/-- `pmm_init_regions`. -/
def pmmInitRegions (m : Bytes) (rs : RegionTable) : Bytes := rs.regions.foldl initRegion m

/-- `pmm_alloc`'s loop over the regions. -/
def allocFrom (m : Bytes) : List Region → Nat × Bytes
  | [] => (0, m)
  | r :: rs =>
    let (addr, m) := findFreePage m r
    if addr ≠ 0 then (addr, m) else allocFrom m rs

/-- `pmm_alloc`. The page at the address found is zeroed, also when that address is the failure
value. -/
def pmmAlloc (rs : RegionTable) (m : Bytes) : Nat × Bytes :=
  let (addr, m) := allocFrom m rs.regions
  (addr, memset m addr 0 pageSize)

/-- `pmm_free`'s loop over the regions, whose upper bound is inclusive. -/
def freeIn (phys : Nat) (m : Bytes) (r : Region) : Bytes :=
  if phys < r.start ∨ phys > r.start + r.pages * pageSize then m
  else regionUnsetBit m r ((phys - r.start) / pageSize)

/-- `pmm_free`. -/
def pmmFree (rs : RegionTable) (m : Bytes) (phys : Nat) : Except Fault Bytes :=
  if phys % pageSize ≠ 0 then .error (.panic "attempting to free non-paged-aligned region")
  else .ok (rs.regions.foldl (freeIn phys) m)

/-! ## The allocator and its clients -/

/-- Physical memory with the frames handed out and not yet freed, latest first. -/
structure Frames where
  mem : Bytes
  taken : List Nat

/-- What is done to frames: `pmm_alloc`, `pmm_free`, and writes to a frame. -/
inductive FrameCall
  | alloc
  | free (f : Nat)
  | write (a : Nat) (byte : BitVec 8)

/-- One call. -/
def Frames.step (rs : RegionTable) : FrameCall → Frames → Except Fault Frames
  | .alloc, s =>
    let (f, m) := pmmAlloc rs s.mem
    .ok ⟨m, f :: s.taken⟩
  | .free f, s => do
    let m ← pmmFree rs s.mem f
    pure ⟨m, s.taken.erase f⟩
  | .write a byte, s => .ok { s with mem := Function.update s.mem a byte }

/-- Repeated `pmm_alloc`: the addresses returned, in order, and the memory after. -/
def pmmAllocs (rs : RegionTable) : Nat → Bytes → List Nat × Bytes
  | 0, m => ([], m)
  | n + 1, m =>
    let (f, m) := pmmAlloc rs m
    let (fs, m) := pmmAllocs rs n m
    (f :: fs, m)

end Blackcomb.Mm
