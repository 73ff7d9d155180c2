import Blackcomb.Drivers.Ata
import Blackcomb.Lib.AtaDrive

/-!
# The disk driver at its ports

All of `ata.c`, over drives with registers (`Ata.Drives`). `ata_read` and `ata_write` are one transfer, which
takes the command and what is done with a word. A loop that waits for the drive is given `fuel`, which is
how often it reads the status at most.
-/

namespace Blackcomb.Drivers.Ports

open Memory Mm Ata

/-! ## Registers -/

def ataDataReg : Nat := 0x1F0
def ataSectorCountReg : Nat := 0x1F2
def ataSectorNumberReg : Nat := 0x1F3
def ataCylinderLowReg : Nat := 0x1F4
def ataCylinderHighReg : Nat := 0x1F5
def ataDriveHeadReg : Nat := 0x1F6
def ataStatusCommandReg : Nat := 0x1F7

def statusBsy : Nat := 0x80
def statusRdy : Nat := 0x40

def commandWrite : Nat := 0x30
def commandRead : Nat := 0x20

/-- An access that the drives give no meaning to. -/
def access {α : Type} : Option α → Except Fault α
  | some a => .ok a
  | none => .error .undefined

/-- `outb` to a port of the drives. -/
def outb (t : Timing) (port value : Nat) (d : Drives) : Except Fault Drives :=
  access (d.writeRegister t (port - ataDataReg) value)

/-- `wait_ready`. -/
def waitReady (t : Timing) : Nat → Drives → Except Fault Drives
  | 0, _ => .error .diverge
  | fuel + 1, d =>
    let (status, d) := d.readStatus t
    if status &&& statusRdy ≠ 0 ∧ ¬ status &&& statusBsy ≠ 0 then .ok d else waitReady t fuel d

/-- `load_lba_nsectors`. -/
def loadLbaNsectors (t : Timing) (lba nsectors : Nat) (d : Drives) : Except Fault Drives := do
  let d ← outb t ataDriveHeadReg (0xE0 ||| (lba >>> 24 &&& 0xFF)) d
  let d ← outb t ataSectorCountReg nsectors d
  let d ← outb t ataSectorNumberReg (lba &&& 0xFF) d
  let d ← outb t ataCylinderLowReg (lba >>> 8 &&& 0xFF) d
  outb t ataCylinderHighReg (lba >>> 16 &&& 0xFF) d

/-! ## Transfers -/

/-- The inner loop: `n` words of sector `j`. -/
def moveWords (t : Timing) (direction : Direction) (buf j : Nat) (h : Host) : Nat → Except Fault Host
  | 0 => .ok h
  | n + 1 => do
    let h ← moveWords t direction buf j h n
    access (h.word t direction (buf + 2 * (n + j * 256)))

/-- The outer loop: `n` sectors. -/
def moveSectors (t : Timing) (fuel : Nat) (direction : Direction) (buf : Nat) (h : Host) :
    Nat → Except Fault Host
  | 0 => .ok h
  | n + 1 => do
    let h ← moveSectors t fuel direction buf h n
    let drives ← waitReady t fuel h.drives
    moveWords t direction buf n { h with drives } 256

/-- What `ata_read` and `ata_write` have in common. The count is a `uint8_t`. -/
def transfer (t : Timing) (fuel : Nat) (direction : Direction) (value buf lba nsectors : Nat) (h : Host) :
    Except Fault Host := do
  let drives ← waitReady t fuel h.drives
  let drives ← loadLbaNsectors t lba (nsectors % 2 ^ 8) drives
  let drives ← outb t ataStatusCommandReg value drives
  moveSectors t fuel direction buf { h with drives } (nsectors % 2 ^ 8)

/-- `ata_read`: `inw` into the buffer. -/
def ataRead (t : Timing) (fuel buf lba nsectors : Nat) : Host → Except Fault Host :=
  transfer t fuel .read commandRead buf lba nsectors

/-- `ata_write`: `outw` out of the buffer. -/
def ataWrite (t : Timing) (fuel buf lba nsectors : Nat) : Host → Except Fault Host :=
  transfer t fuel .write commandWrite buf lba nsectors

/-! ## Bytes -/

/-- The kernel's heap and the drives. -/
structure Kernel where
  heap : Heap
  drives : Drives

/-- A transfer into or out of the kernel's memory. -/
def onHeap (f : Host → Except Fault Host) (k : Kernel) : Except Fault Kernel := do
  let h ← f ⟨k.heap.mem, k.drives⟩
  pure ⟨{ k.heap with mem := h.mem }, h.drives⟩

/-- What `ata_read_bytes` and `ata_write_bytes` have in common: a transfer of the sectors that are counted
from the length alone, between the disk and a temporary buffer, and then a copy out of the buffer, from `start`
on. -/
def transferBytes (moves : Nat → Nat → Nat → Host → Except Fault Host) (start buf off len : Nat) (k : Kernel) :
    Except Fault Kernel := do
  let lba := off / sectorSize
  let (readbuf, heap) ← kmalloc k.heap (nsectors len * sectorSize % 2 ^ 32)
  if buf = 0 then .error (.panic "out of memory")
  let k ← onHeap (moves readbuf lba (nsectors len)) { k with heap }
  let heap := { k.heap with mem := memcpy k.heap.mem buf (readbuf + start) len }
  pure { k with heap := free heap readbuf }

/-- `ata_read_bytes`. -/
def ataReadBytes (t : Timing) (fuel buf off len : Nat) : Kernel → Except Fault Kernel :=
  transferBytes (ataRead t fuel) (off % sectorSize) buf off len

/-- `ata_write_bytes`, which no other code calls: it writes the sectors out of a buffer that nothing was
put into, and then copies out of the buffer. -/
def ataWriteBytes (t : Timing) (fuel buf off len : Nat) : Kernel → Except Fault Kernel :=
  transferBytes (ataWrite t fuel) 0 buf off len

/-- A call of the driver. -/
inductive Call
  | read (buf lba nsectors : Nat)
  | write (buf lba nsectors : Nat)
  | readBytes (buf off len : Nat)
  | writeBytes (buf off len : Nat)

/-- The driver's functions. Offsets and lengths are `uint32_t`. -/
def call (t : Timing) (fuel : Nat) : Call → Kernel → Except Fault Kernel
  | .read buf lba nsectors => onHeap (ataRead t fuel buf lba nsectors)
  | .write buf lba nsectors => onHeap (ataWrite t fuel buf lba nsectors)
  | .readBytes buf off len => ataReadBytes t fuel buf (off % 2 ^ 32) (len % 2 ^ 32)
  | .writeBytes buf off len => ataWriteBytes t fuel buf (off % 2 ^ 32) (len % 2 ^ 32)

end Blackcomb.Drivers.Ports
