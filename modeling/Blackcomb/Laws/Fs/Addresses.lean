import Blackcomb.Laws.Fs.ReadFile

/-!
# Addresses on the disk

The place of a block on the disk is computed in 32 bits, and so is the place of an inode. A place is what
the disk is read at, whatever is on it: `BlockReadsAt` and `InodeReadsAt` say so for every disk, so there is
one place at most. It is the right one as long as the product does not wrap.
-/

namespace Blackcomb.Fs

open Memory Mm Drivers

variable {s : Clients} {bs : List Block} {fs : Ext2Fs} {buf b ino x y k : Nat}

/-- `read_blk` reads the block at a byte of the disk. -/
def BlockReadsAt (s : Clients) (fs : Ext2Fs) (buf b x : Nat) : Prop :=
  ∀ disk, ∃ h', readBlk disk s.heap fs buf b fs.blockSize = .ok h' ∧
    ∀ i < fs.blockSize, h'.mem (buf + i) = disk (x + i)

/-- `ext2_get_inode` reads the inode at a byte of the disk. -/
def InodeReadsAt (s : Clients) (fs : Ext2Fs) (buf ino x : Nat) : Prop :=
  ∀ disk, ∃ h', ext2GetInode disk s.heap fs buf ino = .ok h' ∧
    ∀ i < sizeofIno, h'.mem (buf + i) = disk (x + i)

/-- The offset of an inode in the table of the group that is taken for it, as a number. -/
def inodeOffset (m : Bytes) (fs : Ext2Fs) (ino : Nat) : Int :=
  fs.tablePlace m (ino / sInodesPerGroup fs.sb) +
    ((ino % sInodesPerGroup fs.sb : Nat) - 1) * sizeofIno

/-- Two places that have the same byte on every disk are one. -/
theorem place_unique (same : ∀ disk : Bytes, disk x = disk y) : x = y := by
  by_contra other
  have differ := same (Function.update (fun _ => 0) x 1)
  rw [Function.update_self, Function.update_of_ne (Ne.symm other)] at differ
  exact absurd differ (by decide)

/-- Room for a block is room for a sector. -/
theorem room_sector (small : k ≤ 6) (blocks : fs.blockSize = 1024 <<< k)
    (room : Room s bs fs.blockSize) : Room s bs 512 := by
  obtain ⟨quarter, low, _⟩ := ptrs_range small blocks
  rcases room with ready | behind
  · exact .inl (ready.smaller (by omega))
  · exact .inr (by omega)

theorem blockReadsAt_iff (inv : Served s bs) (small : k ≤ 6) (blocks : fs.blockSize = 1024 <<< k)
    (owned : ∀ i < fs.blockSize, s.Owns (buf + i)) (notNull : buf ≠ 0)
    (room : Room s bs fs.blockSize) :
    BlockReadsAt s fs buf b x ↔ x = b * fs.blockSize % 2 ^ 32 := by
  obtain ⟨_, _, _, pos⟩ := block_sectors small blocks
  have reads : ∀ disk, ∃ h', readBlk disk s.heap fs buf b fs.blockSize = .ok h' ∧
      ∀ i < fs.blockSize, h'.mem (buf + i) = disk (b * fs.blockSize % 2 ^ 32 + i) := by
    intro disk
    rcases readBlk_reads disk b inv small blocks owned notNull with ⟨_, full⟩ | ⟨h', ran, got⟩
    · exact absurd room full
    · exact ⟨h', ran, got.bytes⟩
  constructor
  · intro at_x
    apply place_unique
    intro disk
    obtain ⟨h', ran, bytes⟩ := reads disk
    obtain ⟨h'', ran', bytes'⟩ := at_x disk
    obtain rfl := Except.ok.inj (ran.symm.trans ran')
    exact (bytes' 0 pos).symm.trans (bytes 0 pos)
  · rintro rfl
    exact reads

theorem inodeReadsAt_iff (inv : Served s bs) (small : k ≤ 6) (blocks : fs.blockSize = 1024 <<< k)
    (owned : ∀ i < fs.blockSize, s.Owns (buf + i)) (notNull : buf ≠ 0)
    (room : Room s bs fs.blockSize) : InodeReadsAt s fs buf ino x ↔
      0 < sInodesPerGroup fs.sb ∧ x = inodeOff s.heap.mem fs ino := by
  obtain ⟨quarter, low, _⟩ := ptrs_range small blocks
  have multiple := blockSize_dvd blocks
  have ownedIno : ∀ i < sizeofIno, s.Owns (buf + i) := by
    intro i lt
    rw [sizeofIno] at lt
    exact owned i (by omega)
  have reads : 0 < sInodesPerGroup fs.sb → ∀ disk, ∃ h',
      ext2GetInode disk s.heap fs buf ino = .ok h' ∧
      ∀ i < sizeofIno, h'.mem (buf + i) = disk (inodeOff s.heap.mem fs ino + i) := by
    intro perGroup disk
    rcases ext2GetInode_serves disk ino inv multiple perGroup ownedIno notNull with
      ⟨_, full⟩ | ⟨h', ran, read⟩
    · exact absurd (room_sector small blocks room) full
    · exact ⟨h', ran, readIno_bytes read (inodeOff_aligned _ _ multiple)⟩
  constructor
  · intro at_x
    have perGroup : 0 < sInodesPerGroup fs.sb := by
      obtain ⟨_, ran, _⟩ := at_x fun _ => 0
      unfold ext2GetInode at ran
      split at ran
      · cases ran
      · exact Nat.pos_of_ne_zero ‹_›
    refine ⟨perGroup, place_unique fun disk => ?_⟩
    obtain ⟨h', ran, bytes⟩ := reads perGroup disk
    obtain ⟨h'', ran', bytes'⟩ := at_x disk
    obtain rfl := Except.ok.inj (ran.symm.trans ran')
    exact (bytes' 0 (by decide)).symm.trans (bytes 0 (by decide))
  · rintro ⟨perGroup, rfl⟩
    exact reads perGroup

/-! ## The whole file system -/

/-- What is promised of the addresses of a file system: every block is read at its number times the size of
a block, so two blocks are read from disjoint ranges, and every inode is read at its offset. -/
structure AddressesRight (s : Clients) (fs : Ext2Fs) (buf : Nat) : Prop where
  blocks : ∀ b < sBlocksCount fs.sb, BlockReadsAt s fs buf b (b * fs.blockSize)
  apart : ∀ b b', b < sBlocksCount fs.sb → b' < sBlocksCount fs.sb → b ≠ b' →
    ∀ x x', BlockReadsAt s fs buf b x → BlockReadsAt s fs buf b' x' →
      x + fs.blockSize ≤ x' ∨ x' + fs.blockSize ≤ x
  inodes : ∀ ino, 1 ≤ ino → ino ≤ sInodesCount fs.sb →
    ∃ x : Nat, (x : Int) = inodeOffset s.heap.mem fs ino ∧ InodeReadsAt s fs buf ino x

/-- A multiple of the block size below `2 ^ 32` leaves room for a block. -/
theorem blocks_below (small : k ≤ 6) (blocks : fs.blockSize = 1024 <<< k) :
    (∀ c < b, c * fs.blockSize < 2 ^ 32) ↔ b * fs.blockSize ≤ 2 ^ 32 := by
  have whole : 2 ^ 32 = 2 ^ (22 - k) * fs.blockSize := by
    rw [blocks, Nat.shiftLeft_eq, show 1024 = 2 ^ 10 by rfl, ← Nat.pow_add, ← Nat.pow_add]
    congr 1
    omega
  have pos : 0 < fs.blockSize := (block_sectors small blocks).2.2.2
  rw [whole]
  constructor
  · intro below
    apply Nat.mul_le_mul_right
    by_contra more
    exact Nat.lt_irrefl _ (below _ (Nat.lt_of_not_le more))
  · intro most c lt
    exact Nat.lt_of_lt_of_le (Nat.mul_lt_mul_of_pos_right lt pos) most

/-- **Addresses.** For every file system with any counts and any inode tables, in every state of the heap
with room for a block: the addresses are right exactly when the blocks end by 4 GiB, there are inodes in a
group, and the offset of every inode is a number of 32 bits. -/
theorem addressesRight_iff (s : Clients) (bs : List Block) (fs : Ext2Fs) (buf k : Nat)
    (inv : Served s bs) (small : k ≤ 6) (blocks : fs.blockSize = 1024 <<< k)
    (owned : ∀ i < fs.blockSize, s.Owns (buf + i)) (notNull : buf ≠ 0)
    (room : Room s bs fs.blockSize) : AddressesRight s fs buf ↔
      sBlocksCount fs.sb * fs.blockSize ≤ 2 ^ 32 ∧
      ∀ ino, 1 ≤ ino → ino ≤ sInodesCount fs.sb → 0 < sInodesPerGroup fs.sb ∧
        0 ≤ inodeOffset s.heap.mem fs ino ∧ inodeOffset s.heap.mem fs ino < 2 ^ 32 := by
  have block : ∀ {b x : Nat}, BlockReadsAt s fs buf b x ↔ x = b * fs.blockSize % 2 ^ 32 :=
    blockReadsAt_iff inv small blocks owned notNull room
  have inode : ∀ {ino x : Nat}, InodeReadsAt s fs buf ino x ↔
      0 < sInodesPerGroup fs.sb ∧ x = inodeOff s.heap.mem fs ino :=
    inodeReadsAt_iff inv small blocks owned notNull room
  have wrapped : ∀ ino, (inodeOff s.heap.mem fs ino : Int) = inodeOffset s.heap.mem fs ino % 2 ^ 32 :=
    inodeOff_eq s.heap.mem fs
  constructor
  · intro right
    refine ⟨(blocks_below small blocks).mp fun c lt => ?_, fun ino first last => ?_⟩
    · rw [block.mp (right.blocks c lt)]
      exact Nat.mod_lt _ (by decide)
    · obtain ⟨x, exact, reads⟩ := right.inodes ino first last
      obtain ⟨perGroup, rfl⟩ := inode.mp reads
      have off := wrapped ino
      exact ⟨perGroup, by omega, by omega⟩
  · rintro ⟨most, offsets⟩
    have below := (blocks_below small blocks).mpr most
    have place : ∀ c < sBlocksCount fs.sb, c * fs.blockSize % 2 ^ 32 = c * fs.blockSize :=
      fun c lt => Nat.mod_eq_of_lt (below c lt)
    constructor
    case blocks => exact fun c lt => block.mpr (place c lt).symm
    case apart =>
      intro c c' lt lt' other x x' reads reads'
      rw [block.mp reads, block.mp reads', place c lt, place c' lt']
      rcases Nat.lt_or_gt_of_ne other with less | more
      · left
        have next := Nat.mul_le_mul_right fs.blockSize less
        rwa [Nat.succ_mul] at next
      · right
        have next := Nat.mul_le_mul_right fs.blockSize more
        rwa [Nat.succ_mul] at next
    case inodes =>
      intro ino first last
      obtain ⟨perGroup, low, high⟩ := offsets ino first last
      have off := wrapped ino
      exact ⟨_, by omega, inode.mpr ⟨perGroup, rfl⟩⟩

/-- A file system of a number of blocks of 1 KiB, whose first group's descriptor is at an address. -/
def kibFs (count p : Nat) : Ext2Fs where
  blockSize := 1024
  sb := store (store (store (fun _ => 0) 0 4 7) 4 4 count) 40 4 8
  rooti := fun _ => 0
  bgdt := p

/-- With 64 blocks the addresses are right. -/
theorem addressesRight_iff_small : ∃ (s : Clients) (p : Nat), AddressesRight s (kibFs 64 p) 4096 := by
  obtain ⟨s, bs, p, inv, room, _, _, table, _⟩ := twoGroups_mounted
  have size : (kibFs 64 p).blockSize = 1024 := rfl
  have perGroup : sInodesPerGroup (kibFs 64 p).sb = 8 := by
    show load (store (store (store (fun _ => 0) 0 4 7) 4 4 64) 40 4 8) 40 4 = 8
    decide
  have inodes : sInodesCount (kibFs 64 p).sb = 7 := by
    show load (store (store (store (fun _ => 0) 0 4 7) 4 4 64) 40 4 8) 0 4 = 7
    decide
  have count : sBlocksCount (kibFs 64 p).sb = 64 := by
    show load (store (store (store (fun _ => 0) 0 4 7) 4 4 64) 40 4 8) 4 4 = 64
    decide
  refine ⟨s, p, (addressesRight_iff s bs (kibFs 64 p) 4096 0 inv (by decide) rfl ?_ (by decide) ?_).mpr
    ⟨?_, ?_⟩⟩
  · intro i lt
    exact owns_below s (by omega)
  · exact .inr (by omega)
  · rw [count, size]
    decide
  · intro ino first last
    have group : ino / 8 = 0 := by omega
    have place : (kibFs 64 p).tablePlace s.heap.mem 0 = 5120 := congrArg (· * 1024) table
    unfold inodeOffset
    rw [perGroup, group, place, sizeofIno]
    omega

/-- With one block more than 4 GiB the last block is read where the first is. -/
theorem addressesRight_large : ∃ (s : Clients) (bs : List Block), Served s bs ∧
    Room s bs 1024 ∧ (∀ i < 1024, s.Owns (4096 + i)) ∧
    sBlocksCount (kibFs (2 ^ 22 + 1) 0).sb = 2 ^ 22 + 1 ∧
    BlockReadsAt s (kibFs (2 ^ 22 + 1) 0) 4096 0 0 ∧
    BlockReadsAt s (kibFs (2 ^ 22 + 1) 0) 4096 (2 ^ 22) 0 ∧
    ¬ AddressesRight s (kibFs (2 ^ 22 + 1) 0) 4096 := by
  obtain ⟨s, bs, inv, room⟩ := fresh_heap
  have free : Room s bs 1024 := .inr (by omega)
  have owned : ∀ i < 1024, s.Owns (4096 + i) := fun i lt => owns_below s (by omega)
  have count : sBlocksCount (kibFs (2 ^ 22 + 1) 0).sb = 2 ^ 22 + 1 := by decide
  have reads : ∀ b, b * 1024 % 2 ^ 32 = 0 → BlockReadsAt s (kibFs (2 ^ 22 + 1) 0) 4096 b 0 := by
    intro b zero
    exact (blockReadsAt_iff inv (show 0 ≤ 6 by decide) rfl owned (by decide) free).mpr zero.symm
  have first := reads 0 (by decide)
  have last := reads (2 ^ 22) (by decide)
  refine ⟨s, bs, inv, free, owned, count, first, last, fun right => ?_⟩
  have apart := right.apart 0 (2 ^ 22) (by rw [count]; decide) (by rw [count]; decide) (by decide) 0 0
    first last
  exact absurd apart (by decide)

end Blackcomb.Fs
