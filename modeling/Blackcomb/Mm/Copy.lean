import Blackcomb.Mm.Vmm

/-!
# Copying from a buffer in memory

`mm_copy_from_buf` with its `while` and with a buffer that is itself in memory: `src i` is the physical
address of byte `i` of the buffer, wherever the kernel has it. A copy that goes over the buffer or over page
tables is seen by the rounds after it. The calls of `memcpy` are the result, one for each round.

`Vmm.mmCopyFromBuf` reads its bytes from elsewhere, and counts its rounds beforehand.
-/

namespace Blackcomb.Mm

open Memory Budget

/-- `memcpy` from a buffer whose byte `i` is at the address `src i`. -/
def memcpyAt (m : Bytes) (dest : Nat) (src : Nat → Nat) : Nat → Bytes
  | 0 => m
  | n + 1 => Function.update (memcpyAt m dest src n) (dest + n) (memcpyAt m dest src n (src n))

/-- A call of `memcpy`: where to, from which offset of the buffer, and how much. -/
structure MemcpyCall where
  dest : Nat
  off : Nat
  bytes : Nat
  deriving DecidableEq

/-- The `while` of `mm_copy_from_buf`, from page `pg` on with `len` bytes to go. -/
def copyLoop (dst : Nat) (src : Nat → Nat) (start : Nat) : Nat → Nat → Nat → Op (List MemcpyCall)
  | 0, _, len => if len > 0 then throw .diverge else pure []
  | fuel + 1, pg, len =>
    if len > 0 then do
      let s ← get
      let off := pageSize * pg
      let dstData := s.vmmGetPhys dst (add64 start off)
      let bytes := if len > pageSize then pageSize else len
      set (s.setMem (memcpyAt s.frames.mem dstData (fun i => src (off + i)) bytes))
      let calls ← copyLoop dst src start fuel (pg + 1) (len - bytes)
      pure ({ dest := dstData, off, bytes } :: calls)
    else pure []

/-- `mm_copy_from_buf`. -/
def mmCopyFromBufAt (dst : Nat) (src : Nat → Nat) (start len : Nat) : Op (List MemcpyCall) := do
  panicIf (start % pageSize ≠ 0) "copy_physmem: start is not page aligned"
  copyLoop dst src start len 0 len

end Blackcomb.Mm
