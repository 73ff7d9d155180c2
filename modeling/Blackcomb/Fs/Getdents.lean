import Blackcomb.Mm.Vmm

/-!
# Listing a directory

`ext2_getdents` of `ext2.c` and the program that reads what it wrote, `ls.zig`. The directory's first
block is a parameter: `block` gives the byte at every offset of what `read_blk` reads from the disk.
The kernel's copy of it is in the heap, at `data`; the user's buffer is elsewhere, and `buf` gives the
byte at every offset from its start.

`uint32_t` offsets wrap at `2 ^ 32`. A directory walk that is not done after as many rounds as the
block has bytes has come to some offset twice, and it depends on nothing else: it never ends. That is
`diverge`, and so is the `continue` at an unused record, which goes back to the same record.
-/

namespace Blackcomb.Fs

open Memory Mm

/-! ## The kernel -/

/-- `struct ext2_dirent`, the fields that are read. -/
structure Ext2Dirent where
  inode : Nat
  recLen : Nat
  nameLen : Nat

/-- The record at an address. -/
def ext2DirentAt (m : Bytes) (de : Nat) : Ext2Dirent where
  inode := load m de 4
  recLen := load m (de + 4) 2
  nameLen := load m (de + 6) 1

/-- `de->name`, from its address on. -/
def ext2NameAt (m : Bytes) (de : Nat) : Bytes := fun i => m (de + 8 + i)

/-- `sizeof(struct dirent)`. -/
def sizeofDirent : Nat := 8

/-- `strlcpy` from byte `i` on, with `n` bytes to go. -/
def strlcpyFrom (m : Bytes) (dest : Nat) (src : Bytes) : Nat → Nat → Nat × Bytes
  | i, 0 => (i, m)
  | i, n + 1 =>
    let m := Function.update m (dest + i) (src i)
    if src i = 0 then (i, m) else strlcpyFrom m dest src (i + 1) n

/-- `strlcpy`. -/
def strlcpy (m : Bytes) (dest : Nat) (src : Bytes) (sz : Nat) : Nat × Bytes :=
  strlcpyFrom m dest src 0 sz

/-- The assignments to `us_de`. -/
def writeDirent (buf : Bytes) (usDe : Nat) (de : Ext2Dirent) (name : Bytes) : Bytes :=
  let buf := store buf usDe 4 de.inode
  let buf := store buf (usDe + 4) 4 (sizeofDirent + de.nameLen + 1)
  (strlcpy buf (usDe + sizeofDirent) name de.nameLen).2

/-- The `while` of `ext2_getdents`: `us_doff` and the buffer. -/
def getdentsLoop (m : Bytes) (data blockSize : Nat) :
    Nat → Nat → Nat → Bytes → Except Fault (Nat × Bytes)
  | 0, doff, usDoff, buf => if doff < blockSize then .error .diverge else .ok (usDoff, buf)
  | fuel + 1, doff, usDoff, buf =>
    if doff < blockSize then
      let de := ext2DirentAt m (data + doff)
      if de.inode = 0 then .error .diverge
      else
        let buf := writeDirent buf usDoff de (ext2NameAt m (data + doff))
        getdentsLoop m data blockSize fuel ((doff + de.recLen) % 2 ^ 32)
          ((usDoff + load buf (usDoff + 4) 4) % 2 ^ 32) buf
    else .ok (usDoff, buf)

/-- `ext2_getdents`: its result, the user's buffer and the heap. The argument `count` is not read. -/
def ext2Getdents (h : Heap) (blockSize : Nat) (block buf : Bytes) :
    Except Fault (Nat × Bytes × Heap) := do
  let (data, h) ← kmalloc h blockSize
  let h := { h with mem := memcpyFrom h.mem data block blockSize }
  let (usDoff, buf) ← getdentsLoop h.mem data blockSize blockSize 0 0 buf
  pure (usDoff, buf, free h data)

/-! ## The user -/

/-- `strlen` of `ls.zig` from byte `c` on, in a buffer of `size` bytes, with `n` bytes to go. A byte
outside the buffer is not the program's. -/
def strlenFrom (buf : Bytes) (size s : Nat) : Nat → Nat → Except Fault Nat
  | _, 0 => .error .badPointer
  | c, n + 1 =>
    if size ≤ s + c then .error .badPointer
    else if buf (s + c) = 0 then .ok c
    else strlenFrom buf size s (c + 1) n

/-- `strlen`. -/
def strlen (buf : Bytes) (size s : Nat) : Except Fault Nat := strlenFrom buf size s 0 (size + 1)

/-- The `while` of `_start`: the records met, `ino` and name, the pointer `de` at the end and what is
left of `sz`. A `rec_len` of `0` goes back to the same record, so a walk has at most `sz` rounds or
never ends. -/
def lsLoop (buf : Bytes) (size : Nat) :
    Nat → Nat → Int → Except Fault (List (Nat × List (BitVec 8)) × Nat × Int)
  | 0, de, sz => if 0 < sz then .error .diverge else .ok ([], de, sz)
  | fuel + 1, de, sz =>
    if 0 < sz then
      if size < de + sizeofDirent then .error .badPointer
      else do
        let ino := load buf de 4
        let recLen := load buf (de + 4) 4
        let n ← strlen buf size (de + sizeofDirent)
        let name := (List.range n).map fun i => buf (de + sizeofDirent + i)
        -- `@intCast(i32, de.rec_len)`
        if 2 ^ 31 ≤ recLen then .error .undefined
        else do
          let (records, rest) ← lsLoop buf size fuel (de + recLen) (sz - recLen)
          pure ((ino, name) :: records, rest)
    else .ok ([], de, sz)

/-- What `ls` makes of a buffer of `size` bytes and the result of `getdents`, which is an `i32`. -/
def lsRecords (buf : Bytes) (size sz : Nat) :
    Except Fault (List (Nat × List (BitVec 8)) × Nat × Int) :=
  if sz < 2 ^ 31 then lsLoop buf size sz 0 sz else .error .undefined

end Blackcomb.Fs
