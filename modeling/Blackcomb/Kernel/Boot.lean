import Blackcomb.Fault
import Blackcomb.Lib.Paging
import Blackcomb.Lib.X86Tables

/-!
# The way into long mode

`entry.asm`: the page tables that the kernel starts on, the control registers, and the descriptors that
`_start` jumps through. The linker places `page_tables` and `gdt`; both are part of the image, and the
tables are zeros there.

The loops that fill the tables are there with their counters, so that they end without a bound of
their own. Left out are the multiboot header, the loads of the segment registers and of the stack's
pointer, and the jump into the C code.
-/

namespace Blackcomb.Kernel

open Memory

/-- The tables of `page_tables`, in their order. -/
inductive BootTable
  | p4
  | p3Upper
  | p2Upper
  | p3Lower
  | p2Lower
  | p1Code
  | p3Stack
  | p2Stack
  | p1Stack
  | p3Physmem
  deriving DecidableEq, Repr

/-- Where a table stands in `page_tables`. -/
def BootTable.place : BootTable → Nat
  | .p4 => 0
  | .p3Upper => 1
  | .p2Upper => 2
  | .p3Lower => 3
  | .p2Lower => 4
  | .p1Code => 5
  | .p3Stack => 6
  | .p2Stack => 7
  | .p1Stack => 8
  | .p3Physmem => 9

/-- The address of a table. -/
def BootTable.at (pageTables : Nat) (t : BootTable) : Nat := pageTables + 4096 * t.place

/-- `PAGE_PRESENT | PAGE_WRITE`. -/
def bootFlags : Nat := (1 <<< 0) ||| (1 <<< 1)

/-- `lea eax, [table]`, `or eax, PAGE_PRESENT | PAGE_WRITE`, `mov [t + i * 8], eax`. -/
def bootLink (pageTables : Nat) (m : Bytes) (t : BootTable) (i : Nat) (table : BootTable) : Bytes :=
  store m (t.at pageTables + i * 8) 4 (table.at pageTables ||| bootFlags)

/-- `mov [edi], eax`, `add eax, step`, `add edi, 8`, `cmp eax, stop`, `jb`, for some rounds. -/
def bootFill (step stop : Nat) : Nat → Bytes → Nat → Nat → Except Fault Bytes
  | 0, _, _, _ => .error .diverge
  | n + 1, m, edi, eax =>
    let m := store m edi 4 eax
    let eax := (eax + step) % 2 ^ 32
    let edi := (edi + 8) % 2 ^ 32
    if eax < stop then bootFill step stop n m edi eax else .ok m

/-- As many rounds as `eax` has values at steps of a page. -/
def bootRounds : Nat := 2 ^ 20

/-- The page tables that `_start` makes. -/
def bootTables (pageTables : Nat) (m : Bytes) : Except Fault Bytes := do
  -- identity mapping of the first 2 MiB
  let m := bootLink pageTables m .p4 0 .p3Lower
  let m := bootLink pageTables m .p3Lower 0 .p2Lower
  let m := bootLink pageTables m .p2Lower 0 .p1Code
  -- higher half mapping
  let m := bootLink pageTables m .p4 511 .p3Upper
  let m := bootLink pageTables m .p3Upper 510 .p2Upper
  let m := bootLink pageTables m .p2Upper 0 .p1Code
  let m ← bootFill 0x1000 0x200000 bootRounds m (BootTable.p1Code.at pageTables) bootFlags
  -- kernel stack mapping
  let m := bootLink pageTables m .p4 510 .p3Stack
  let m := bootLink pageTables m .p3Stack 0 .p2Stack
  let m := bootLink pageTables m .p2Stack 0 .p1Stack
  let m ← bootFill 0x1000 (1 <<< 15) bootRounds m (BootTable.p1Stack.at pageTables) bootFlags
  -- map of all physical memory
  let m := bootLink pageTables m .p4 273 .p3Physmem
  bootFill (1 <<< 30) (1 <<< 20) bootRounds m (BootTable.p3Physmem.at pageTables)
    (bootFlags ||| (1 <<< 7))

/-- Memory and the control registers. -/
structure Control where
  mem : Bytes
  cr0 : Nat
  cr3 : Nat
  cr4 : Nat
  efer : Nat

/-- `_start`, up to the far jump. -/
def entryStart (pageTables : Nat) (c : Control) : Except Fault Control := do
  let mem ← bootTables pageTables c.mem
  pure { mem, cr4 := 0b10100000, cr3 := BootTable.p4.at pageTables,
         efer := c.efer ||| 0x00000100, cr0 := c.cr0 ||| 0x80000001 }

/-- Paging and protection are on, with long mode and the tables of its format. -/
def Control.long (c : Control) : Bool :=
  c.cr0.testBit 31 && c.cr0.testBit 0 && c.cr4.testBit 5 && c.efer.testBit 8

/-- The quads of `gdt`. -/
def bootGdt : List Nat := [0x0000000000000000, 0x00209A0000000000, 0x0000920000000000]

/-- `CODE_SEG` and `DATA_SEG`. -/
def bootCodeSeg : Nat := 0x0008
def bootDataSeg : Nat := 0x0010

end Blackcomb.Kernel
