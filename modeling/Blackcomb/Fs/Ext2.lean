import Mathlib.Algebra.Group.Int.Defs
import Blackcomb.Drivers.Ata
import Blackcomb.Fs.Getdents

/-!
# The file system

`ext2.c`, but for `ext2_ls`. What the kernel reads of the format is read from the bytes of the
structures of `ext2.h`, at their offsets: `sb` and `rooti` of a `struct ext2_fs` are kept as their
bytes, and `bgdt` is the address of the table in the heap. A buffer on the stack stands at an address
like any other; its caller names the address. Arithmetic in `uint32_t` wraps at `2 ^ 32`.
-/

namespace Blackcomb.Fs

open Memory Mm Drivers

/-- Conversion to `uint32_t`. -/
def uint32 (x : Int) : Int := x % 2 ^ 32

/-- Conversion to `int`. -/
def int32 (x : Int) : Int := x.bmod (2 ^ 32)

/-! ## Structures -/

/-- `SB_START_BYTES`. -/
def sbStartBytes : Nat := 1024

/-- `EXT2_ROOT_INO`. -/
def ext2RootIno : Nat := 2

/-- `EXT2_NDIR_BLK`. -/
def ext2NdirBlk : Nat := 12

/-- `EXT2_IND_BLK`. -/
def ext2IndBlk : Nat := ext2NdirBlk

/-- `EXT2_DIND_BLK`. -/
def ext2DindBlk : Nat := ext2IndBlk + 1

/-- `EXT2_TIND_BLK`. -/
def ext2TindBlk : Nat := ext2DindBlk + 1

/-- `sizeof(struct ext2_sb)`. -/
def sizeofSb : Nat := 264

/-- `sizeof(struct ext2_bgd)`. -/
def sizeofBgd : Nat := 32

/-- `sizeof(struct ext2_ino)`. -/
def sizeofIno : Nat := 128

/-- `sizeof(struct ext2_fs)`. -/
def sizeofFs : Nat := 408

/-- `sb.s_inodes_count`. -/
def sInodesCount (sb : Bytes) : Nat := load sb 0 4

/-- `sb.s_blocks_count`. -/
def sBlocksCount (sb : Bytes) : Nat := load sb 4 4

/-- `sb.s_first_data_block`. -/
def sFirstDataBlock (sb : Bytes) : Nat := load sb 20 4

/-- `sb.s_log_block_size`. -/
def sLogBlockSize (sb : Bytes) : Nat := load sb 24 4

/-- `sb.s_blocks_per_group`. -/
def sBlocksPerGroup (sb : Bytes) : Nat := load sb 32 4

/-- `sb.s_inodes_per_group`. -/
def sInodesPerGroup (sb : Bytes) : Nat := load sb 40 4

/-- `bg->bg_inode_table`. -/
def bgInodeTable (m : Bytes) (bg : Nat) : Nat := load m (bg + 8) 4

/-- `in->i_size`. -/
def iSize (m : Bytes) (ino : Nat) : Nat := load m (ino + 4) 4

/-- `in->i_blocks`. -/
def iBlocks (m : Bytes) (ino : Nat) : Nat := load m (ino + 28) 4

/-- `in->i_block[i]`. -/
def iBlock (m : Bytes) (ino i : Nat) : Nat := load m (ino + 40 + 4 * i) 4

/-- `struct ext2_fs`. -/
structure Ext2Fs where
  blockSize : Nat
  sb : Bytes
  rooti : Bytes
  bgdt : Nat

/-! ## Blocks and inodes -/

/-- `read_blk`. -/
def readBlk (disk : Bytes) (h : Heap) (fs : Ext2Fs) (buf boff len : Nat) : Except Fault Heap :=
  ataReadBytes disk h buf (boff * fs.blockSize % 2 ^ 32) len

/-- `off` of `ext2_get_inode`. The difference is an `int`, the product a `size_t` and the sum an
`unsigned int`, so only its lower bits are kept. -/
def inodeOff (m : Bytes) (fs : Ext2Fs) (ino : Nat) : Nat :=
  let bg := fs.bgdt + ino / sInodesPerGroup fs.sb * sizeofBgd
  let ioff : Int := (ino % sInodesPerGroup fs.sb : Nat) - 1
  (uint32 (bgInodeTable m bg * fs.blockSize % 2 ^ 32 + ioff * sizeofIno)).toNat

/-- `ext2_get_inode`. A division by zero has no quotient. -/
def ext2GetInode (disk : Bytes) (h : Heap) (fs : Ext2Fs) (buf ino : Nat) : Except Fault Heap :=
  if sInodesPerGroup fs.sb = 0 then .error .undefined
  else ataReadBytes disk h buf (inodeOff h.mem fs ino) sizeofIno

/-! ## Mounting -/

/-- `ext2_mount_rootfs` as far as it has read the superblock into the local `sb`, at `sbBuf`. -/
def mountSuper (disk : Bytes) (h : Heap) (sbBuf : Nat) : Except Fault (Nat × Heap) := do
  let (p, h) ← kmalloc h sizeofFs
  if p = 0 then .error (.panic "out of memory")
  else do
    let h := { h with mem := memset h.mem sbBuf 0 sizeofSb }
    let h ← ataReadBytes disk h sbBuf sbStartBytes sizeofSb
    pure (p, h)

/-- `ext2_mount_rootfs` as far as it has read the table of group descriptors. -/
def mountTable (disk : Bytes) (h : Heap) (sbBuf : Nat) : Except Fault (Nat × Ext2Fs × Heap) := do
  let (p, h) ← mountSuper disk h sbBuf
  let sb : Bytes := fun i => h.mem (sbBuf + i)
  -- `1024 << 21` is no `int`
  if 20 < sLogBlockSize sb ∨ sBlocksPerGroup sb = 0 then .error .undefined
  else do
    let bgdtElems := int32 (sBlocksCount sb / sBlocksPerGroup sb : Nat)
    let size := (bgdtElems * sizeofBgd % 2 ^ 64).toNat
    let (bgdt, h) ← kmalloc h size
    let fs : Ext2Fs :=
      { blockSize := 1024 <<< sLogBlockSize sb, sb := sb, rooti := fun _ => 0, bgdt := bgdt }
    let h ← readBlk disk h fs bgdt 2 (size % 2 ^ 32)
    pure (p, fs, h)

/-- `ext2_mount_rootfs`: the address of the `struct ext2_fs`, what is in it, and the heap. The local
`r_inodes` is at `inoBuf`. -/
def ext2MountRootfs (disk : Bytes) (h : Heap) (sbBuf inoBuf : Nat) :
    Except Fault (Nat × Ext2Fs × Heap) := do
  let (p, fs, h) ← mountTable disk h sbBuf
  let h ← readBlk disk h fs inoBuf (bgInodeTable h.mem fs.bgdt) (11 * sizeofIno)
  pure (p, { fs with rooti := fun i => h.mem (inoBuf + sizeofIno + i) }, h)

/-! ## Files -/

/-- `ext2_block_offsets`: the first `n` of `offsets`. -/
def ext2BlockOffsets (fs : Ext2Fs) (blk : Nat) : Except Fault (List Int) :=
  let ptrsPerBlock : Int := (fs.blockSize / 4 : Nat)
  let directBlocks : Int := ext2NdirBlk
  let indirectBlocks := ptrsPerBlock
  let doubleBlocks := indirectBlocks * indirectBlocks
  let tripleBlocks := doubleBlocks * doubleBlocks
  let blk : Int := blk
  if blk < directBlocks then .ok [int32 blk]
  else
    let blk := uint32 (blk - directBlocks)
    if blk - directBlocks < indirectBlocks then .ok [ext2IndBlk, int32 blk]
    else
      let blk := uint32 (blk - indirectBlocks)
      if blk - indirectBlocks < doubleBlocks then
        .ok [ext2DindBlk, int32 (blk / ptrsPerBlock), int32 (blk % ptrsPerBlock)]
      else
        let blk := uint32 (blk - doubleBlocks)
        if blk - doubleBlocks < tripleBlocks then
          .ok [ext2TindBlk, int32 (blk / (ptrsPerBlock * ptrsPerBlock)), int32 (blk / ptrsPerBlock),
            int32 (blk % ptrsPerBlock)]
        else .error (.panic "block too big: %d")

/-- The loop of `ext2_get_block`: a block of pointers is followed out of the buffer into the buffer. -/
def followPtrs (disk : Bytes) (fs : Ext2Fs) (buf : Nat) : List Int → Heap → Except Fault Heap
  | [], h => .ok h
  | o :: os, h => do
    let h ← readBlk disk h fs buf (load h.mem (buf + 4 * o).toNat 4) fs.blockSize
    followPtrs disk fs buf os h

/-- `ext2_get_block`. -/
def ext2GetBlock (disk : Bytes) (h : Heap) (fs : Ext2Fs) (inBuf buf blk : Nat) : Except Fault Heap :=
  if iBlocks h.mem inBuf < blk then .error (.panic "get block at index greater than file size")
  else do
    let offsets ← ext2BlockOffsets fs blk
    let h ← readBlk disk h fs buf (iBlock h.mem inBuf (offsets.headD 0).toNat) fs.blockSize
    followPtrs disk fs buf offsets.tail h

/-- The loop of `ext2_get_blocks`, from block `i` on, with `n` blocks to go. -/
def getBlocksFrom (disk : Bytes) (fs : Ext2Fs) (inBuf buf : Nat) : Nat → Nat → Heap → Except Fault Heap
  | _, 0, h => .ok h
  | i, n + 1, h => do
    let h ← ext2GetBlock disk h fs inBuf (buf + i * fs.blockSize % 2 ^ 32) i
    getBlocksFrom disk fs inBuf buf (i + 1) n h

/-- `ext2_get_blocks`. -/
def ext2GetBlocks (disk : Bytes) (h : Heap) (fs : Ext2Fs) (inBuf buf n : Nat) : Except Fault Heap :=
  getBlocksFrom disk fs inBuf buf 0 n h

/-- `ext2_read_file`: the buffer and the heap. -/
def ext2ReadFile (disk : Bytes) (h : Heap) (fs : Ext2Fs) (ino : Nat) : Except Fault (Nat × Heap) := do
  let (inodeBuf, h) ← kcalloc h 1 sizeofIno
  let h ← ext2GetInode disk h fs inodeBuf ino
  let nblk := (iSize h.mem inodeBuf + fs.blockSize - 1) % 2 ^ 32 / fs.blockSize
  let (buf, h) ← kmalloc h (nblk * fs.blockSize % 2 ^ 32)
  let h ← ext2GetBlocks disk h fs inodeBuf buf nblk
  let size := iSize h.mem inodeBuf
  let h := { h with
    mem := memset h.mem (buf + size) 0 (uint32 (uint32 (nblk * fs.blockSize) - size)).toNat }
  pure (buf, free h inodeBuf)

/-! ## Listing -/

/-- `ext2_getdents` as far as it has read the directory's first block: `data` and the heap. The inode
number is `f->ino`, and the local `in` is at `inBuf`. -/
def getdentsRead (disk : Bytes) (h : Heap) (rootfs : Ext2Fs) (inBuf ino : Nat) :
    Except Fault (Nat × Heap) := do
  let (data, h) ← kmalloc h rootfs.blockSize
  let h ← ext2GetInode disk h rootfs inBuf ino
  let h ← readBlk disk h rootfs data (iBlock h.mem inBuf 0) rootfs.blockSize
  pure (data, h)

/-- `ext2_getdents` from the open file on: what `ext2Getdents` is of a block. The argument `count` is
not read. -/
def ext2GetdentsFile (disk : Bytes) (h : Heap) (rootfs : Ext2Fs) (inBuf ino : Nat) (buf : Bytes)
    (_count : Nat) : Except Fault (Nat × Bytes × Heap) := do
  let (data, h) ← getdentsRead disk h rootfs inBuf ino
  let (usDoff, buf) ← getdentsLoop h.mem data rootfs.blockSize rootfs.blockSize 0 0 buf
  pure (usDoff, buf, free h data)

/-! ## Paths -/

/-- `strncmp` of a string and the bytes at `s2`. The count goes on below zero. -/
def strncmp (m : Bytes) : List (BitVec 8) → Nat → Nat → Int
  | [], s2, n => if n = 0 then 0 else 0 - (m s2).toNat
  | c :: s1, s2, n =>
    if c ≠ 0 ∧ c = m s2 then strncmp m s1 (s2 + 1) (sub64 n 1)
    else if n = 0 then 0
    else c.toNat - (m s2).toNat

/-- The inner `while` of `ext2_namei`: the inode number of the first record that is accepted. -/
def nameiLoop (m : Bytes) (dirbuf blockSize : Nat) (comp : List (BitVec 8)) :
    Nat → Nat → Except Fault (Option Nat)
  | 0, doff => if doff < blockSize then .error .diverge else .ok none
  | fuel + 1, doff =>
    if doff < blockSize then
      let de := ext2DirentAt m (dirbuf + doff)
      if de.inode ≠ 0 ∧ strncmp m comp (dirbuf + doff + 8) de.nameLen = 0 then .ok (some de.inode)
      else nameiLoop m dirbuf blockSize comp fuel ((doff + de.recLen) % 2 ^ 32)
    else .ok none

/-- `'/'`. -/
def slash : BitVec 8 := 47

/-- A round of the `while` of `ext2_namei`, once the component is in `comp`. -/
def nameiRound (disk : Bytes) (fs : Ext2Fs) (dirbuf inBuf : Nat) (comp : List (BitVec 8)) (h : Heap) :
    Except Fault (Nat × Heap) := do
  let h ← ext2GetBlock disk h fs inBuf dirbuf 0
  let found ← nameiLoop h.mem dirbuf fs.blockSize comp fs.blockSize 0
  if let some ino := found then do
    let h ← ext2GetInode disk h fs inBuf ino
    pure (ino, h)
  else .error (.panic "path %s does not exist")

/-- The `while` of `ext2_namei` over what is left of the path, of which each round leaves less. A
component that does not fit in `comp` is written past its end. -/
def nameiComps (disk : Bytes) (fs : Ext2Fs) (dirbuf inBuf : Nat) :
    Nat → List (BitVec 8) → Nat → Heap → Except Fault (Nat × Heap)
  | 0, path, ino, h => if path = [] then .ok (ino, h) else .error .diverge
  | fuel + 1, path, ino, h =>
    if path = [] then .ok (ino, h)
    else
      let comp := path.takeWhile (· ≠ slash)
      if 255 < comp.length then .error .undefined
      else do
        let (ino, h) ← nameiRound disk fs dirbuf inBuf comp h
        nameiComps disk fs dirbuf inBuf fuel ((path.dropWhile (· ≠ slash)).drop 1) ino h

/-- `ext2_namei`. The path is a string; its first character is passed over. -/
def ext2Namei (disk : Bytes) (h : Heap) (fs : Ext2Fs) (path : List (BitVec 8)) :
    Except Fault (Nat × Heap) := do
  let (dirbuf, h) ← kmalloc h fs.blockSize
  let (inBuf, h) ← kcalloc h 1 sizeofIno
  let h := { h with mem := memcpyFrom h.mem inBuf fs.rooti sizeofIno }
  let (ino, h) ← nameiComps disk fs dirbuf inBuf path.length path.tail ext2RootIno h
  pure (ino, free (free h dirbuf) inBuf)

end Blackcomb.Fs
