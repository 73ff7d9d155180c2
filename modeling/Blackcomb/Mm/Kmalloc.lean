import Mathlib.Logic.Function.Basic
import Blackcomb.Fault
import Blackcomb.Lib.Memory

/-!
# The kernel heap

`kmalloc.c`, with the `sbrk` of `vmm.c` and the `memset` and `memcpy` of `string.c`, on bytes. A `struct block` is a header in the heap's own
memory, thirty-two bytes before the payload it describes; a pointer to one is its address, `0` for
`NULL`. `size_t` arithmetic wraps at `2 ^ 64` and says so.

The walk of `kmalloc` is bounded by the number of bytes the heap can have. Running out of that bound
is `diverge`, which the laws exclude.
-/

namespace Blackcomb.Mm

open Memory

/-- `PAGE_SIZE`. -/
def pageSize : Nat := 4096

/-- `KERNEL_BRK_START`. -/
def kernelBrkStart : Nat := 0xFFFFC90000000000

/-- `KERNEL_BRK_PAGES`. -/
def kernelBrkPages : Nat := 128

/-- `INIT_HEAP_SIZE`. -/
def initHeapSize : Nat := pageSize * 4

/-- Addition of two `size_t`. -/
def add64 (a b : Nat) : Nat := (a + b) % 2 ^ 64

/-- Subtraction of two `size_t`. -/
def sub64 (a b : Nat) : Nat := (2 ^ 64 + a - b) % 2 ^ 64

/-- `memset`, byte after byte. -/
def memset (m : Bytes) (s : Nat) (c : BitVec 8) : Nat → Bytes
  | 0 => m
  | n + 1 => Function.update (memset m s c n) (s + n) c

/-- `memcpy`, byte after byte. -/
def memcpy (m : Bytes) (dest src : Nat) : Nat → Bytes
  | 0 => m
  | n + 1 => Function.update (memcpy m dest src n) (dest + n) (memcpy m dest src n (src + n))

/-- The fields of `struct block`. -/
inductive Field
  | size
  | inUse
  | next
  | prev
  deriving DecidableEq, Repr

/-- Where a field stands in the header. Four bytes of padding follow `in_use`. -/
def Field.offset : Field → Nat
  | .size => 0
  | .inUse => 8
  | .next => 16
  | .prev => 24

/-- How many bytes a field has: `in_use` is an `int`, the others are words. -/
def Field.width : Field → Nat
  | .inUse => 4
  | _ => 8

/-- `sizeof(struct block)`. -/
def sizeofBlock : Nat := 32

/-- The heap: its memory, `heap_base` and `kernel_brk`. -/
structure Heap where
  mem : Bytes
  heapBase : Nat
  kernelBrk : Nat

namespace Heap

/-- `block->field`. -/
def get (h : Heap) (f : Field) (block : Nat) : Nat :=
  load h.mem (block + f.offset) f.width

/-- `block->field = v`. -/
def set (h : Heap) (f : Field) (block v : Nat) : Heap :=
  { h with mem := store h.mem (block + f.offset) f.width v }

end Heap

/-- `sbrk`: the old break and the heap with the new one. -/
def sbrk (h : Heap) (inc : Nat) : Except Fault (Nat × Heap) :=
  if inc = 0 then .error (.panic "sbrk(0), likely kernel bug")
  else
    let h := { h with kernelBrk := add64 h.kernelBrk inc }
    if h.kernelBrk < kernelBrkStart then
      .error (.panic "sbrk brought kernel break to below KERNEL_BRK_START")
    else if kernelBrkStart + kernelBrkPages * pageSize ≤ h.kernelBrk then
      .error (.panic "kernel heap exhausted")
    else .ok (sub64 h.kernelBrk inc, h)

/-- `if (next) next->prev = v`. -/
def setPrevOf (h : Heap) (next v : Nat) : Heap :=
  if next ≠ 0 then h.set .prev next v else h

/-- `split_block`. -/
def splitBlock (h : Heap) (size victim : Nat) : Nat × Heap :=
  if sub64 (h.get .size victim) size ≤ sizeofBlock then
    -- not enough space to fit another block in
    (victim, h)
  else
    let newBlock := add64 (add64 victim sizeofBlock) size
    let h := h.set .size newBlock (sub64 (sub64 (h.get .size victim) size) sizeofBlock)
    let h := h.set .inUse newBlock 0
    let h := h.set .next newBlock (h.get .next victim)
    let h := h.set .prev newBlock victim
    let h := h.set .size victim size
    let h := setPrevOf h (h.get .next victim) newBlock
    let h := h.set .next victim newBlock
    (victim, h)

/-- The walk of `kmalloc`: the last block passed, the block taken or `NULL`, and the heap, in which
that block may have been split. -/
def findBlock (size : Nat) (h : Heap) : Nat → Nat → Nat → Except Fault (Nat × Nat × Heap)
  | 0, prev, curr => if curr = 0 then .ok (prev, 0, h) else .error .diverge
  | fuel + 1, prev, curr =>
    if curr = 0 then .ok (prev, 0, h)
    else if h.get .inUse curr ≠ 0 then findBlock size h fuel curr (h.get .next curr)
    else if h.get .size curr = size then .ok (prev, curr, h)
    else if add64 size sizeofBlock ≤ h.get .size curr then
      let (target, h) := splitBlock h size curr
      .ok (prev, target, h)
    else findBlock size h fuel curr (h.get .next curr)

/-- What `kmalloc` does when no free block was found: a new last block from `sbrk`. -/
def extendHeap (h : Heap) (size prev : Nat) : Except Fault (Nat × Heap) := do
  let (target, h) ← sbrk h (add64 sizeofBlock size)
  let h := h.set .size target size
  let h := h.set .inUse target 1
  let h := h.set .next target 0
  let h := h.set .prev target prev
  let h := h.set .next prev target
  pure (target, h)

/-- A bound on the number of blocks: the heap has this many bytes. -/
def heapBytes : Nat := kernelBrkPages * pageSize

/-- `kmalloc`. -/
def kmalloc (h : Heap) (size : Nat) : Except Fault (Nat × Heap) :=
  if size = 0 then .error (.panic "malloc of size 0, likely kernel bug")
  else do
    let (prev, target, h) ← findBlock size h heapBytes 0 h.heapBase
    let (target, h) ← if target = 0 then extendHeap h size prev else pure (target, h)
    let h := h.set .inUse target 1
    pure (add64 target sizeofBlock, h)

/-- `free`'s merge with the block before: the block it goes on with. -/
def coalesceBack (h : Heap) (block : Nat) : Nat × Heap :=
  if h.get .prev block ≠ 0 ∧ h.get .inUse (h.get .prev block) = 0 then
    let h := h.set .size (h.get .prev block)
      (add64 (h.get .size (h.get .prev block)) (add64 (h.get .size block) sizeofBlock))
    let h := h.set .next (h.get .prev block) (h.get .next block)
    let h := setPrevOf h (h.get .next block) (h.get .prev block)
    (h.get .prev block, h)
  else (block, h)

/-- `free`'s merge with the block after. -/
def coalesceForward (h : Heap) (block : Nat) : Heap :=
  if h.get .next block ≠ 0 ∧ h.get .inUse (h.get .next block) = 0 then
    let h := h.set .size block
      (add64 (h.get .size block) (add64 (h.get .size (h.get .next block)) sizeofBlock))
    let h := h.set .next block (h.get .next (h.get .next block))
    setPrevOf h (h.get .next block) block
  else h

/-- `free`. -/
def free (h : Heap) (ptr : Nat) : Heap :=
  let block := sub64 ptr sizeofBlock
  let h := h.set .inUse block 0
  let (block, h) := coalesceBack h block
  coalesceForward h block

/-- `kmalloc_init`. -/
def kmallocInit (h : Heap) : Except Fault Heap := do
  let (heapBase, h) ← sbrk h initHeapSize
  let h := { h with heapBase := heapBase }
  let h := h.set .size heapBase (initHeapSize - sizeofBlock)
  let h := h.set .inUse heapBase 0
  let h := h.set .next heapBase 0
  pure (h.set .prev heapBase 0)

/-- `kcalloc`. `memset` writes the whole payload. -/
def kcalloc (h : Heap) (nmemb size : Nat) : Except Fault (Nat × Heap) := do
  let sz := nmemb * size % 2 ^ 64
  let (p, h) ← kmalloc h sz
  pure (p, { h with mem := memset h.mem p 0 sz })

/-! ## The heap and its clients -/

/-- The heap as its clients use it: with the pointers they hold and the sizes they asked for,
latest first. -/
structure Clients where
  heap : Heap
  live : List (Nat × Nat)

/-- What clients do: call `kmalloc`, call `free`, write a byte. -/
inductive HeapCall
  | kmalloc (n : Nat)
  | free (p : Nat)
  | write (a : Nat) (byte : BitVec 8)

namespace Clients

/-- One call. -/
def step : HeapCall → Clients → Except Fault Clients
  | .kmalloc n, s => do
    let (p, h) ← Mm.kmalloc s.heap n
    pure ⟨h, (p, n) :: s.live⟩
  | .free p, s => .ok ⟨Mm.free s.heap p, s.live.filter fun x => x.1 ≠ p⟩
  | .write a byte, s =>
    .ok { s with heap := { s.heap with mem := Function.update s.heap.mem a byte } }

/-- What clients are allowed: to ask for a positive size below `2 ^ 63 - 32`, to free a pointer
they hold, and to write inside a payload they hold. -/
def Allowed : HeapCall → Clients → Prop
  | .kmalloc n, _ => 0 < n ∧ n < 2 ^ 63 - 32
  | .free p, s => ∃ n, (p, n) ∈ s.live
  | .write a _, s => ∃ p n, (p, n) ∈ s.live ∧ p ≤ a ∧ a < p + n

end Clients

end Blackcomb.Mm
