import Blackcomb.Mm.Kmalloc

/-!
# The disk

`ata.c`, the reading half. The disk is a byte for every offset, and a command to read answers with the
sectors as they are stored: the `i`th word that `inw` takes from the data register after a command for
sector `lba` is the `i`th word from there. The status register, which `wait_ready` reads until the
drive is ready, and the ports that a command is written to are left out; the upper bits of `lba` have
no place in them, and no sector below 4 GiB has any. `AtaPorts` is the whole of `ata.c`, with the ports, and
what is read there is what is read here.
-/

namespace Blackcomb.Drivers

open Memory Mm

/-- `SECTOR_SIZE`. -/
def sectorSize : Nat := 512

/-- The inner loop of `ata_read`: `n` words of sector `j`. -/
def readWords (disk : Bytes) (buf lba j : Nat) (m : Bytes) : Nat → Bytes
  | 0 => m
  | n + 1 =>
    store (readWords disk buf lba j m n) (buf + 2 * (n + j * 256)) 2
      (load disk (sectorSize * (lba + j) + 2 * n) 2)

/-- The loop of `ata_read` over `n` sectors. -/
def readSectors (disk : Bytes) (buf lba : Nat) (m : Bytes) : Nat → Bytes
  | 0 => m
  | n + 1 => readWords disk buf lba n (readSectors disk buf lba m n) 256

/-- `ata_read`. The count is a `uint8_t`. -/
def ataRead (disk : Bytes) (m : Bytes) (buf lba nsectors : Nat) : Bytes :=
  readSectors disk buf lba m (nsectors % 2 ^ 8)

/-- `nsectors` of `ata_read_bytes`, in `uint32_t`. -/
def nsectors (len : Nat) : Nat := (len + (sectorSize - 1)) % 2 ^ 32 / sectorSize

/-- `ata_read_bytes`. -/
def ataReadBytes (disk : Bytes) (h : Heap) (buf off len : Nat) : Except Fault Heap := do
  let lba := off / sectorSize
  let sectorOff := off % sectorSize
  let (readbuf, h) ← kmalloc h (nsectors len * sectorSize % 2 ^ 32)
  if buf = 0 then .error (.panic "out of memory")
  let h := { h with mem := ataRead disk h.mem readbuf lba (nsectors len) }
  let h := { h with mem := memcpy h.mem buf (readbuf + sectorOff) len }
  pure (free h readbuf)

end Blackcomb.Drivers
