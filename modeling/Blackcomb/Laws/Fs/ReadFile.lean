import Blackcomb.Laws.Fs.BlockMap
import Blackcomb.Laws.Fs.Inode

/-!
# Reading a file

A file of up to twelve blocks and a block of pointers. `ext2_get_block` reads the block of pointers into
the buffer and then, over it, the block it points to; `ext2_get_blocks` does so at one place of the buffer
after the other. What a block read does to the owned bytes is `GotBlock`, and the run of the loop goes
from block to block by it.

**What it does not establish.** Files with holes are in `Holes`, and those with more blocks in
`BlockMap`, where the way to a block goes wrong first. When the kernel heap is used up, the read
ends in its panic, and nothing is said of the buffer.
-/

namespace Blackcomb.Fs

open Memory Mm Drivers

variable {disk node : Bytes} {s : Clients} {bs : List Block} {fs : Ext2Fs} {inBuf buf blk image : Nat}

/-- The physical block of a logical block, by the direct pointers of an inode and its single indirect
block. -/
def fileBlock (disk node : Bytes) (fs : Ext2Fs) (blk : Nat) : Nat :=
  if blk < 12 then iBlock node 0 blk
  else load disk (iBlock node 0 12 * fs.blockSize + 4 * (blk - 12)) 4

/-- How many blocks a file has. -/
def fileBlocks (node : Bytes) (fs : Ext2Fs) : Nat :=
  (iSize node 0 + fs.blockSize - 1) / fs.blockSize

/-- The 128 bytes of an inode without holes, of a file that its direct and single indirect pointers
reach, in an image of `size` bytes. -/
structure FileNode (disk node : Bytes) (fs : Ext2Fs) (size : Nat) : Prop where
  nonempty : 1 ≤ iSize node 0
  reach : iSize node 0 ≤ (12 + fs.blockSize / 4) * fs.blockSize
  blocks : ∀ blk < fileBlocks node fs, fileBlock disk node fs blk ≠ 0 ∧
    (fileBlock disk node fs blk + 1) * fs.blockSize ≤ size
  indirect : 12 < fileBlocks node fs → iBlock node 0 12 ≠ 0 ∧
    (iBlock node 0 12 + 1) * fs.blockSize ≤ size
  sectors : (fileBlocks node fs + if 12 < fileBlocks node fs then 1 else 0) * (fs.blockSize / 512) ≤
    iBlocks node 0

/-! ## A block -/

/-- The sectors of a block. -/
theorem block_sectors {k : Nat} (small : k ≤ 6) (blocks : fs.blockSize = 1024 <<< k) :
    fs.blockSize + 511 < 2 ^ 32 ∧ 512 * nsectors fs.blockSize = fs.blockSize ∧
      nsectors fs.blockSize % 256 = nsectors fs.blockSize ∧ 0 < fs.blockSize := by
  obtain ⟨quarter, low, high⟩ := ptrs_range small blocks
  obtain ⟨c, multiple⟩ := blockSize_dvd blocks
  have fits : fs.blockSize + 511 < 2 ^ 32 := by omega
  have count := nsectors_eq _ fits
  refine ⟨fits, ?_, ?_, ?_⟩ <;> omega

/-- What reading a block's bytes from a place of the disk into owned bytes does. -/
structure GotAt (disk : Bytes) (s : Clients) (fs : Ext2Fs) (buf off : Nat) (h' : Heap) : Prop where
  served : ∃ bs', Served ⟨h', s.live⟩ bs' ∧ Ready fs.blockSize bs'
  bytes : ∀ i < fs.blockSize, h'.mem (buf + i) = disk (off + i)
  kept : ∀ a, s.Owns a → a < buf ∨ buf + fs.blockSize ≤ a → h'.mem a = s.heap.mem a

/-- What reading a block of the disk into owned bytes does. -/
structure GotBlock (disk : Bytes) (s : Clients) (fs : Ext2Fs) (buf place : Nat) (h' : Heap) :
    Prop where
  served : ∃ bs', Served ⟨h', s.live⟩ bs' ∧ Ready fs.blockSize bs'
  bytes : ∀ i < fs.blockSize, h'.mem (buf + i) = disk (place * fs.blockSize + i)
  kept : ∀ a, s.Owns a → a < buf ∨ buf + fs.blockSize ≤ a → h'.mem a = s.heap.mem a

/-- A block whose end has an address is read from its own place. -/
theorem GotAt.block {place : Nat} {h' : Heap}
    (got : GotAt disk s fs buf (place * fs.blockSize % 2 ^ 32) h') (pos : 0 < fs.blockSize)
    (below : image < 2 ^ 32) (inside : (place + 1) * fs.blockSize ≤ image) :
    GotBlock disk s fs buf place h' := by
  rw [Nat.add_mul, Nat.one_mul] at inside
  rw [Nat.mod_eq_of_lt (by omega)] at got
  exact ⟨got.served, got.bytes, got.kept⟩

/-- A block is read from its place modulo `2 ^ 32`, whole. -/
theorem readBlk_reads (disk : Bytes) (place : Nat) {k : Nat} (inv : Served s bs) (small : k ≤ 6)
    (blocks : fs.blockSize = 1024 <<< k) (owned : ∀ i < fs.blockSize, s.Owns (buf + i))
    (notNull : buf ≠ 0) :
    Serves (Room s bs fs.blockSize) (readBlk disk s.heap fs buf place fs.blockSize)
      (GotAt disk s fs buf (place * fs.blockSize % 2 ^ 32)) := by
  obtain ⟨fits, sectors, few, pos⟩ := block_sectors small blocks
  obtain ⟨c, multiple⟩ := blockSize_dvd blocks
  have aligned : place * fs.blockSize % 2 ^ 32 % 512 = 0 := by
    rw [multiple, Nat.mul_left_comm]
    omega
  have served := ataReadBytes_serves disk (place * fs.blockSize % 2 ^ 32) inv owned notNull pos fits
    (by omega)
  rw [sectors] at served
  refine served.imp ?_
  intro h' read
  obtain ⟨bs', inv', ready⟩ := read.served
  constructor
  case served => exact ⟨bs', inv', sectors ▸ ready⟩
  case bytes =>
    intro i lt
    apply read.bytes i lt
    rw [few, sectors]
    omega
  case kept => exact read.kept

theorem readBlk_serves (disk : Bytes) {k place : Nat} (inv : Served s bs) (small : k ≤ 6)
    (blocks : fs.blockSize = 1024 <<< k) (owned : ∀ i < fs.blockSize, s.Owns (buf + i))
    (notNull : buf ≠ 0) (below : image < 2 ^ 32) (inside : (place + 1) * fs.blockSize ≤ image) :
    Serves (Room s bs fs.blockSize) (readBlk disk s.heap fs buf place fs.blockSize)
      (GotBlock disk s fs buf place) :=
  (readBlk_reads disk place inv small blocks owned notNull).imp fun _ got =>
    got.block (block_sectors small blocks).2.2.2 below inside

/-- The bytes of the inode in memory. -/
def HoldsIno (m node : Bytes) (inBuf : Nat) : Prop := ∀ i < sizeofIno, m (inBuf + i) = node i

theorem HoldsIno.size {m : Bytes} (holds : HoldsIno m node inBuf) : iSize m inBuf = iSize node 0 := by
  apply load_shift
  intro i lt
  rw [Nat.add_assoc]
  exact (holds (4 + i) (by rw [sizeofIno]; omega)).trans (congrArg node (by omega))

theorem HoldsIno.sectors {m : Bytes} (holds : HoldsIno m node inBuf) :
    iBlocks m inBuf = iBlocks node 0 := by
  apply load_shift
  intro i lt
  rw [Nat.add_assoc]
  exact (holds (28 + i) (by rw [sizeofIno]; omega)).trans (congrArg node (by omega))

theorem HoldsIno.block {m : Bytes} {j : Nat} (holds : HoldsIno m node inBuf) (lt : j < 15) :
    iBlock m inBuf j = iBlock node 0 j := by
  apply load_shift
  intro i small
  rw [Nat.add_assoc, Nat.add_assoc]
  exact (holds (40 + (4 * j + i)) (by rw [sizeofIno]; omega)).trans
    (congrArg node (by omega))

/-- The offsets of a block that is direct or single indirect. -/
theorem offsets_direct {k : Nat} (small : k ≤ 6) (blocks : fs.blockSize = 1024 <<< k)
    (lt : blk < 12 + fs.ptrs) : ext2BlockOffsets fs blk =
      .ok (if blk < 12 then [(blk : Int)] else [12, (blk - 12 : Nat)]) := by
  obtain ⟨_, low, high⟩ := ptrs_range small blocks
  have taken := ext2BlockOffsets_taken blk low high (by omega) (by omega)
  rw [taken, takenPath]
  split
  · rfl
  · rw [if_pos (by omega)]
    rfl

/-- The blocks of a file that are read are direct or single indirect. -/
theorem FileNode.few (file : FileNode disk node fs image) (pos : 0 < fs.blockSize) :
    fileBlocks node fs ≤ 12 + fs.ptrs := by
  unfold fileBlocks Ext2Fs.ptrs
  apply Nat.le_of_lt_succ
  rw [Nat.div_lt_iff_lt_mul pos, Nat.succ_mul]
  have := file.reach
  omega

/-- The block that is read in the end for a logical block, through the pointer in the block that is read
first. -/
def readPlace (disk node : Bytes) (fs : Ext2Fs) (blk : Nat) : Nat :=
  if blk < 12 then iBlock node 0 blk
  else load disk (iBlock node 0 12 * fs.blockSize % 2 ^ 32 + 4 * (blk - 12)) 4

/-- **ext2_get_block.** Of a block that is direct or single indirect, and not behind `i_blocks`, the pointers
are followed, whatever they are, into owned bytes apart from the inode; nothing else that is owned
changes. -/
theorem ext2GetBlock_reads (disk : Bytes) (blk : Nat) {k : Nat} (inv : Served s bs)
    (small : k ≤ 6) (blocks : fs.blockSize = 1024 <<< k) (holds : HoldsIno s.heap.mem node inBuf)
    (owned : ∀ i < fs.blockSize, s.Owns (buf + i)) (notNull : buf ≠ 0) (lt : blk < 12 + fs.ptrs)
    (counted : blk ≤ iBlocks node 0) :
    Serves (Room s bs fs.blockSize) (ext2GetBlock disk s.heap fs inBuf buf blk)
      (GotAt disk s fs buf (readPlace disk node fs blk * fs.blockSize % 2 ^ 32)) := by
  obtain ⟨quarter, _, _⟩ := ptrs_range small blocks
  unfold ext2GetBlock readPlace
  rw [holds.sectors, if_neg (Nat.not_lt.mpr counted), offsets_direct small blocks lt]
  by_cases direct : blk < 12
  · simp only [if_pos direct, ok_bind, List.headD_cons, Int.toNat_natCast, List.tail_cons, followPtrs,
      holds.block (show blk < 15 by omega)]
    exact (readBlk_reads disk _ inv small blocks owned notNull).bind fun h' got => .ok got
  · simp only [if_neg direct, ok_bind, List.headD_cons, List.tail_cons, followPtrs,
      holds.block (show (12 : Int).toNat < 15 by decide)]
    refine (readBlk_reads disk _ inv small blocks owned notNull).bind ?_
    intro h₁ first
    obtain ⟨bs₁, inv₁, ready⟩ := first.served
    -- the pointer is read before the block it points to is read over it
    have pointer : load h₁.mem ((buf : Int) + 4 * ((blk - 12 : Nat) : Int)).toNat 4 =
        load disk (iBlock node 0 12 * fs.blockSize % 2 ^ 32 + 4 * (blk - 12)) 4 := by
      have address : ((buf : Int) + 4 * ((blk - 12 : Nat) : Int)).toNat = buf + 4 * (blk - 12) := by
        omega
      rw [address]
      apply load_shift
      intro i less
      rw [Nat.add_assoc, Nat.add_assoc]
      exact first.bytes _ (by omega)
    rw [pointer]
    refine ((readBlk_reads disk _ inv₁ small blocks owned notNull).room_mono fun _ =>
      .inl ready).bind fun h₂ got => .ok ?_
    constructor
    case served => exact got.served
    case bytes => exact got.bytes
    case kept =>
      intro a owns out
      exact (got.kept a owns out).trans (first.kept a owns out)

/-- The pointers of a file without holes are those of the image. -/
theorem FileNode.readPlace_eq (file : FileNode disk node fs image) (pos : 0 < fs.blockSize)
    (below : image < 2 ^ 32) (lt : blk < fileBlocks node fs) :
    readPlace disk node fs blk = fileBlock disk node fs blk := by
  unfold readPlace fileBlock
  split
  · rfl
  · have indirect := (file.indirect (by omega)).2
    rw [Nat.add_mul, Nat.one_mul] at indirect
    rw [Nat.mod_eq_of_lt (by omega)]

/-- A block of a file is read into owned bytes. -/
theorem ext2GetBlock_serves {k : Nat} (inv : Served s bs) (small : k ≤ 6)
    (blocks : fs.blockSize = 1024 <<< k) (below : image < 2 ^ 32)
    (file : FileNode disk node fs image) (holds : HoldsIno s.heap.mem node inBuf)
    (owned : ∀ i < fs.blockSize, s.Owns (buf + i)) (notNull : buf ≠ 0)
    (lt : blk < fileBlocks node fs) :
    Serves (Room s bs fs.blockSize) (ext2GetBlock disk s.heap fs inBuf buf blk)
      (GotBlock disk s fs buf (fileBlock disk node fs blk)) := by
  obtain ⟨_, _, _, pos⟩ := block_sectors small blocks
  have few := file.few pos
  obtain ⟨quarter, low, high⟩ := ptrs_range small blocks
  have counted : blk ≤ iBlocks node 0 := by
    have counted := file.sectors
    have most : fileBlocks node fs * 1 ≤ (fileBlocks node fs +
        if 12 < fileBlocks node fs then 1 else 0) * (fs.blockSize / 512) :=
      Nat.mul_le_mul (Nat.le_add_right _ _) (by omega)
    omega
  have reads := ext2GetBlock_reads disk blk inv small blocks holds owned notNull
    (show blk < 12 + fs.ptrs by omega) counted
  rw [file.readPlace_eq pos below lt] at reads
  exact reads.imp fun _ got => got.block pos below (file.blocks blk lt).2

/-! ## All blocks -/

/-- The buffer for a file's blocks and the buffer with its inode. -/
structure Buffers (s : Clients) (node : Bytes) (fs : Ext2Fs) (inBuf buf : Nat) : Prop where
  holds : HoldsIno s.heap.mem node inBuf
  inode : ∀ i < sizeofIno, s.Owns (inBuf + i)
  owned : ∀ i < fileBlocks node fs * fs.blockSize, s.Owns (buf + i)
  apart : inBuf + sizeofIno ≤ buf ∨ buf + fileBlocks node fs * fs.blockSize ≤ inBuf
  notNull : buf ≠ 0

/-- What reading a file's blocks from the `i`th on does. -/
structure GotBlocks (disk node : Bytes) (s : Clients) (fs : Ext2Fs) (buf i : Nat) (h' : Heap) :
    Prop where
  served : ∃ bs', Served ⟨h', s.live⟩ bs'
  bytes : ∀ j, i ≤ j → j < fileBlocks node fs → ∀ x < fs.blockSize,
    h'.mem (buf + j * fs.blockSize + x) = disk (fileBlock disk node fs j * fs.blockSize + x)
  kept : ∀ a, s.Owns a →
    a < buf + i * fs.blockSize ∨ buf + fileBlocks node fs * fs.blockSize ≤ a →
    h'.mem a = s.heap.mem a

/-- **ext2_get_blocks.** From one block on, every block of the file comes to its place; nothing else that
is owned changes. -/
theorem getBlocksFrom_serves (disk : Bytes) {k i n : Nat} (inv : Served s bs) (small : k ≤ 6)
    (blocks : fs.blockSize = 1024 <<< k) (below : image < 2 ^ 32)
    (file : FileNode disk node fs image) (buffers : Buffers s node fs inBuf buf)
    (word : fileBlocks node fs * fs.blockSize < 2 ^ 32) (total : i + n = fileBlocks node fs) :
    Serves (Room s bs fs.blockSize) (getBlocksFrom disk fs inBuf buf i n s.heap)
      (GotBlocks disk node s fs buf i) := by
  induction n generalizing i s bs with
  | zero =>
    apply Serves.ok
    constructor
    case served => exact ⟨bs, inv⟩
    case bytes =>
      intro j low high
      omega
    case kept => exact fun _ _ _ => rfl
  | succ n ih =>
    -- the end of block `i` is in the buffer
    have stop : (i + 1) * fs.blockSize ≤ fileBlocks node fs * fs.blockSize :=
      Nat.mul_le_mul_right _ (by omega)
    rw [Nat.add_mul, Nat.one_mul] at stop
    have place : i * fs.blockSize % 2 ^ 32 = i * fs.blockSize := Nat.mod_eq_of_lt (by omega)
    unfold getBlocksFrom
    rw [place]
    have notNull := buffers.notNull
    have owned : ∀ x < fs.blockSize, s.Owns (buf + i * fs.blockSize + x) := by
      intro x lt
      rw [Nat.add_assoc]
      exact buffers.owned _ (by omega)
    refine (ext2GetBlock_serves inv small blocks below file buffers.holds owned (by omega)
      (by omega)).bind ?_
    intro h₁ got
    obtain ⟨bs₁, inv₁, ready⟩ := got.served
    have buffers₁ : Buffers ⟨h₁, s.live⟩ node fs inBuf buf := by
      constructor
      case holds =>
        intro x lt
        refine (got.kept _ (buffers.inode x lt) ?_).trans (buffers.holds x lt)
        have := buffers.apart
        omega
      case inode => exact buffers.inode
      case owned => exact buffers.owned
      case apart => exact buffers.apart
      case notNull => exact notNull
    have rest := ih (i := i + 1) inv₁ buffers₁ (by omega)
    refine (rest.room_mono fun _ => .inl ready).imp ?_
    intro h' more
    constructor
    case served => exact more.served
    case bytes =>
      intro j low high x lt
      rcases Nat.eq_or_lt_of_le low with rfl | after
      · -- the blocks read later are behind this one
        rw [← got.bytes x lt]
        refine more.kept _ (owned x lt) (.inl ?_)
        rw [Nat.add_mul]
        omega
      · exact more.bytes j after high x lt
    case kept =>
      intro a owns out
      have first := got.kept a owns (by omega)
      rw [← first]
      refine more.kept a owns ?_
      rw [Nat.add_mul]
      omega

/-! ## The file -/

/-- The bytes that `ext2_get_inode` yields. -/
def yieldedIno (disk m : Bytes) (fs : Ext2Fs) (ino : Nat) : Bytes :=
  fun i => disk (inodeOff m fs ino + i)

/-- What `ext2_read_file` has done when it has returned `buf`: the buffer has a whole number of blocks,
the bytes of the file in order and then zeros, and it is the only new allocation; no owned byte has
changed, and the block reads changed none outside the buffer, also not of the inode's. -/
structure FileRead (disk node : Bytes) (s : Clients) (fs : Ext2Fs) (buf : Nat) (h' : Heap) : Prop where
  served : ∃ bs', Served ⟨h', (buf, fileBlocks node fs * fs.blockSize) :: s.live⟩ bs'
  bytes : ∀ j < iSize node 0, h'.mem (buf + j) =
    disk (fileBlock disk node fs (j / fs.blockSize) * fs.blockSize + j % fs.blockSize)
  zeros : ∀ j, iSize node 0 ≤ j → j < fileBlocks node fs * fs.blockSize → h'.mem (buf + j) = 0
  kept : ∀ a, s.Owns a → h'.mem a = s.heap.mem a
  reads : ∃ inBuf h₁ h₂, (∃ bs₁, Served ⟨h₁, (buf, fileBlocks node fs * fs.blockSize) ::
      (inBuf, sizeofIno) :: s.live⟩ bs₁) ∧
    ext2GetBlocks disk h₁ fs inBuf buf (fileBlocks node fs) = .ok h₂ ∧
    (∀ a, Clients.Owns ⟨h₁, (buf, fileBlocks node fs * fs.blockSize) :: (inBuf, sizeofIno) :: s.live⟩ a →
      a < buf ∨ buf + fileBlocks node fs * fs.blockSize ≤ a → h₂.mem a = h₁.mem a) ∧
    h' = Mm.free { h₂ with mem := memset h₂.mem (buf + iSize node 0) 0 (fileBlocks node fs *
      fs.blockSize - iSize node 0) } inBuf

/-- The offset of an inode depends on its group's descriptor only. -/
theorem inodeOff_congr {m m' : Bytes} {ino : Nat} (same : ∀ i < sizeofBgd,
    m' (fs.bgd (ino / sInodesPerGroup fs.sb) + i) = m (fs.bgd (ino / sInodesPerGroup fs.sb) + i)) :
    inodeOff m' fs ino = inodeOff m fs ino := by
  have table : bgInodeTable m' (fs.bgd (ino / sInodesPerGroup fs.sb)) =
      bgInodeTable m (fs.bgd (ino / sInodesPerGroup fs.sb)) := by
    apply load_shift
    intro i lt
    rw [Nat.add_assoc]
    exact same _ (by rw [sizeofBgd]; omega)
  have left := inodeOff_eq m' fs ino
  have right := inodeOff_eq m fs ino
  rw [Ext2Fs.tablePlace, table] at left
  rw [Ext2Fs.tablePlace] at right
  exact Int.ofNat.inj (left.trans right.symm)

/-- The blocks of a file hold its bytes, and end less than a block behind them. -/
theorem fileBlocks_bounds (node : Bytes) (pos : 0 < fs.blockSize) :
    iSize node 0 ≤ fileBlocks node fs * fs.blockSize ∧
      fileBlocks node fs * fs.blockSize < iSize node 0 + fs.blockSize := by
  unfold fileBlocks
  have split := Nat.div_add_mod' (iSize node 0 + fs.blockSize - 1) fs.blockSize
  have rest := Nat.mod_lt (iSize node 0 + fs.blockSize - 1) pos
  omega

/-- What `ext2_read_file` asks of the heap at most, with the headers. -/
def readFileNeeds (node : Bytes) (fs : Ext2Fs) : Nat :=
  (32 + sizeofIno) + (32 + 512) + (32 + fileBlocks node fs * fs.blockSize) + (32 + fs.blockSize)

theorem ext2ReadFile_serves {k ino : Nat} (inv : Served s bs) (small : k ≤ 6)
    (blocks : fs.blockSize = 1024 <<< k) (below : image < 2 ^ 32)
    (perGroup : 0 < sInodesPerGroup fs.sb)
    (descriptor : ∀ i < sizeofBgd, s.Owns (fs.bgd (ino / sInodesPerGroup fs.sb) + i))
    (yields : yieldedIno disk s.heap.mem fs ino = node) (file : FileNode disk node fs image) :
    Serves (s.heap.kernelBrk + readFileNeeds node fs < kernelBrkStart + heapBytes)
      (ext2ReadFile disk s.heap fs ino) fun r => FileRead disk node s fs r.1 r.2 := by
  obtain ⟨_, _, _, pos⟩ := block_sectors small blocks
  obtain ⟨quarter, low, high⟩ := ptrs_range small blocks
  obtain ⟨enough, tight⟩ := fileBlocks_bounds node pos
  have nonempty := file.nonempty
  have word : fileBlocks node fs * fs.blockSize < 2 ^ 31 := by
    have := Nat.mul_le_mul (file.few pos) (show fs.blockSize ≤ 65536 by omega)
    omega
  unfold ext2ReadFile
  -- the buffer for the inode
  refine ((inv.serves_kcalloc (by decide) (by decide)).room_mono ?_).bind ?_
  · intro room
    unfold readFileNeeds at room
    exact .inr (by omega)
  intro r allotted₁
  obtain ⟨inBuf, h₁⟩ := r
  obtain ⟨bs₁, inv₁⟩ := allotted₁.served
  have brk₁ := allotted₁.brk
  have low₁ := allotted₁.low
  dsimp only at inv₁ brk₁ low₁ ⊢
  have off : inodeOff h₁.mem fs ino = inodeOff s.heap.mem fs ino :=
    inodeOff_congr fun i lt => allotted₁.kept _ (descriptor i lt)
  have multiple := blockSize_dvd blocks
  -- the inode
  refine ((ext2GetInode_serves disk ino inv₁ multiple perGroup
    (Clients.owns_head _ _) (by omega)).room_mono ?_).bind ?_
  · intro room
    unfold readFileNeeds at room
    exact .inr (by dsimp only; omega)
  intro h₂ read
  obtain ⟨bs₂, inv₂, _⟩ := read.served
  have brk₂ := read.brk
  have one : 512 * nsectors sizeofIno = 512 := by decide
  rw [one] at brk₂
  dsimp only at inv₂ brk₂ ⊢
  have holds₂ : HoldsIno h₂.mem node inBuf := by
    intro i lt
    rw [readIno_bytes read (inodeOff_aligned _ _ multiple) i lt, ← yields]
    exact congrArg (fun a => disk (a + i)) off
  have count : (iSize node 0 + fs.blockSize - 1) % 2 ^ 32 / fs.blockSize = fileBlocks node fs := by
    rw [Nat.mod_eq_of_lt (by omega), fileBlocks]
  have whole : fileBlocks node fs * fs.blockSize % 2 ^ 32 = fileBlocks node fs * fs.blockSize :=
    Nat.mod_eq_of_lt (by omega)
  rw [holds₂.size, count, whole]
  -- the buffer for the blocks
  refine ((inv₂.serves_kmalloc (by omega) (by omega)).room_mono ?_).bind ?_
  · intro room
    unfold readFileNeeds at room
    exact .inr (by dsimp only; omega)
  intro r allotted₃
  obtain ⟨buf, h₃⟩ := r
  obtain ⟨bs₃, inv₃⟩ := allotted₃.served
  have brk₃ := allotted₃.brk
  have low₃ := allotted₃.low
  dsimp only at inv₃ brk₃ low₃ ⊢
  have buffers : Buffers ⟨h₃, (buf, fileBlocks node fs * fs.blockSize) :: (inBuf, sizeofIno) ::
      s.live⟩ node fs inBuf buf := by
    constructor
    case holds =>
      intro i lt
      exact (allotted₃.kept _ (Clients.owns_head _ _ i lt)).trans (holds₂ i lt)
    case inode => exact fun i lt => (Clients.owns_head h₂ s.live i lt).cons h₃ _
    case owned => exact Clients.owns_head _ _
    case apart =>
      have := List.rel_of_pairwise_cons inv₃.disjoint List.mem_cons_self
      dsimp only at this
      omega
    case notNull => omega
  -- the blocks
  refine ((getBlocksFrom_serves disk inv₃ small blocks below file buffers (by omega)
    (Nat.zero_add _)).room_mono ?_).bind_eq ?_
  · intro room
    unfold readFileNeeds at room
    exact .inr (by dsimp only; omega)
  intro h₄ ran got
  obtain ⟨bs₄, inv₄⟩ := got.served
  dsimp only at inv₄
  have holds₄ : HoldsIno h₄.mem node inBuf := by
    intro i lt
    refine (got.kept _ (buffers.inode i lt) ?_).trans (buffers.holds i lt)
    have := buffers.apart
    omega
  have rest : (uint32 (uint32 ((fileBlocks node fs : Int) * fs.blockSize) -
      (iSize node 0 : Nat))).toNat = fileBlocks node fs * fs.blockSize - iSize node 0 := by
    rw [← Int.natCast_mul, uint32_of_lt (by omega), uint32_sub enough (by omega), Int.toNat_natCast]
  rw [holds₄.size, rest]
  -- the rest of the last block is cleared
  have cleared : ∀ a, memset h₄.mem (buf + iSize node 0) 0 (fileBlocks node fs * fs.blockSize -
      iSize node 0) a = if buf + iSize node 0 ≤ a ∧ a < buf + fileBlocks node fs * fs.blockSize then 0
      else h₄.mem a := by
    intro a
    rw [memset_apply]
    congr 1
    exact propext (by omega)
  generalize made : memset h₄.mem (buf + iSize node 0) 0 (fileBlocks node fs * fs.blockSize -
    iSize node 0) = m₅ at cleared ⊢
  have inv₅ : Served ⟨{ h₄ with mem := m₅ }, (inBuf, sizeofIno) ::
      (buf, fileBlocks node fs * fs.blockSize) :: s.live⟩ bs₄ := by
    refine Served.perm (inv₄.rewrite ?_) (List.Perm.swap _ _ _)
    intro a not
    rw [cleared, if_neg]
    intro inside
    exact not (.inl ⟨_, List.mem_cons_self, by dsimp only; omega⟩)
  obtain ⟨bs₆, inv₆, _, kept, _⟩ := inv₅.frees
  have mine : ∀ j < fileBlocks node fs * fs.blockSize,
      Clients.Owns ⟨{ h₄ with mem := m₅ }, (inBuf, sizeofIno) ::
        (buf, fileBlocks node fs * fs.blockSize) :: s.live⟩ (buf + j) :=
    fun j lt => (Clients.owns_head h₄ s.live j lt).cons _ _
  apply Serves.ok
  dsimp only
  constructor
  case served => exact ⟨bs₆, inv₆⟩
  case bytes =>
    intro j lt
    have split : buf + j = buf + j / fs.blockSize * fs.blockSize + j % fs.blockSize := by
      rw [Nat.add_assoc, Nat.div_add_mod']
    have less : j / fs.blockSize < fileBlocks node fs := by
      rw [Nat.div_lt_iff_lt_mul pos]
      omega
    rw [kept _ (mine j (by omega))]
    dsimp only
    rw [cleared, if_neg (by omega), split]
    exact got.bytes _ (Nat.zero_le _) less _ (Nat.mod_lt _ pos)
  case zeros =>
    intro j low high
    rw [kept _ (mine j high)]
    dsimp only
    rw [cleared, if_pos (by omega)]
  case kept =>
    intro a owns
    have out : a < buf ∨ buf + fileBlocks node fs * fs.blockSize ≤ a := by
      by_contra inside
      exact allotted₃.fresh (by omega) (by omega) (owns.cons h₂ (inBuf, sizeofIno))
    have out₁ : a < inBuf ∨ inBuf + sizeofIno ≤ a := by
      by_contra inside
      exact allotted₁.fresh (by omega) (by omega) owns
    have owns₂ := owns.cons h₁ (inBuf, sizeofIno)
    rw [kept _ ((owns.cons h₄ _).cons _ _)]
    dsimp only
    rw [cleared, if_neg (by omega), got.kept a (owns₂.cons h₃ _) (by omega),
      allotted₃.kept a owns₂, read.kept a owns₂ out₁, allotted₁.kept a owns]
  case reads =>
    refine ⟨inBuf, h₃, h₄, ⟨bs₃, inv₃⟩, ran, ?_, by rw [made]⟩
    intro a owns out
    exact got.kept a owns (by omega)

/-- **Files.** For every image below 4 GiB, every block size and every number for which `ext2_get_inode`
yields an inode without holes whose file its direct and single indirect pointers reach,
`ext2_read_file` returns a buffer of whole blocks with the file's bytes in order and zeros behind them,
which is all it has allocated or changed; or the kernel heap is exhausted, and then it had no room for
the file. -/
theorem ext2ReadFile_faithful (disk : Bytes) (s : Clients) (bs : List Block) (fs : Ext2Fs)
    (k ino image : Nat) (inv : Served s bs) (small : k ≤ 6) (blocks : fs.blockSize = 1024 <<< k)
    (below : image < 2 ^ 32) (perGroup : 0 < sInodesPerGroup fs.sb)
    (descriptor : ∀ i < sizeofBgd, s.Owns (fs.bgd (ino / sInodesPerGroup fs.sb) + i))
    (file : FileNode disk (yieldedIno disk s.heap.mem fs ino) fs image) :
    (∃ buf h', ext2ReadFile disk s.heap fs ino = .ok (buf, h') ∧
      FileRead disk (yieldedIno disk s.heap.mem fs ino) s fs buf h') ∨
    (ext2ReadFile disk s.heap fs ino = .error (.panic "kernel heap exhausted") ∧
      kernelBrkStart + heapBytes ≤
        s.heap.kernelBrk + readFileNeeds (yieldedIno disk s.heap.mem fs ino) fs) := by
  rcases ext2ReadFile_serves inv small blocks below perGroup descriptor rfl file with
    ⟨ran, full⟩ | ⟨r, ran, post⟩
  · exact .inr ⟨ran, Nat.le_of_not_lt full⟩
  · exact .inl ⟨r.1, r.2, ran, post⟩

/-- What a file of thirteen blocks has in place of the small image's bytes: its size, its sectors, twelve
pointers to one block, and a block of pointers with the last one. -/
def thirteenBlocksBytes : List (Nat × BitVec 8) :=
  [(5380, 3), (5381, 48), (5404, 28), (5416, 45), (5420, 45), (5424, 45), (5428, 45), (5432, 45), (5436, 45),
    (5440, 45), (5444, 45), (5448, 45), (5452, 45), (5456, 45), (5460, 45), (5464, 60), (61440, 61),
    (62464, 120), (62465, 121), (62466, 122)]

/-- The small image with such a file at inode 3. -/
def thirteenBlocks : Bytes := fun a => (thirteenBlocksBytes.lookup a).getD (twoGroups a)

/-- Its blocks, the last of them found by the block of pointers. -/
theorem thirteenBlocks_blocks (p : Nat) :
    fileBlocks (fun i => thirteenBlocks (5376 + i)) (twoGroupsFs p) = 13 ∧
      (∀ blk < 12, fileBlock thirteenBlocks (fun i => thirteenBlocks (5376 + i)) (twoGroupsFs p) blk = 45) ∧
      fileBlock thirteenBlocks (fun i => thirteenBlocks (5376 + i)) (twoGroupsFs p) 12 = 61 := by
  have block : (twoGroupsFs p).blockSize = 1024 := rfl
  have size : iSize (fun i => thirteenBlocks (5376 + i)) 0 = 12291 := by decide
  have pointers : iBlock (fun i => thirteenBlocks (5376 + i)) 0 12 = 60 := by decide
  refine ⟨?_, fun blk lt => ?_, ?_⟩
  · unfold fileBlocks
    rw [size, block]
  · rw [fileBlock, if_pos lt]
    revert blk
    decide
  · rw [fileBlock, if_neg (by decide), pointers, block]
    decide

/-- The last block of the file, found by the block of pointers, has its last three bytes. -/
theorem ext2ReadFile_faithful_indirect : ∃ (s : Clients) (p buf : Nat) (h' : Heap),
    ext2ReadFile thirteenBlocks s.heap (twoGroupsFs p) 3 = .ok (buf, h') ∧
    h'.mem buf = 104 ∧ h'.mem (buf + 11265) = 105 ∧
    h'.mem (buf + 12288) = 120 ∧ h'.mem (buf + 12290) = 122 ∧ h'.mem (buf + 12291) = 0 := by
  obtain ⟨s, bs, p, inv, room, live, mounted, first, _⟩ := twoGroups_mounted
  have perGroup := twoGroups_perGroup p
  have off : inodeOff s.heap.mem (twoGroupsFs p) 3 = 5376 := by
    have eq := inodeOff_eq s.heap.mem (twoGroupsFs p) 3
    have table : (twoGroupsFs p).tablePlace s.heap.mem 0 = 5120 := congrArg (· * 1024) first
    rw [perGroup, table] at eq
    omega
  have yields : yieldedIno thirteenBlocks s.heap.mem (twoGroupsFs p) 3 =
      fun i => thirteenBlocks (5376 + i) := by
    unfold yieldedIno
    rw [off]
  have block : (twoGroupsFs p).blockSize = 1024 := rfl
  have size : iSize (fun i => thirteenBlocks (5376 + i)) 0 = 12291 := by decide
  obtain ⟨count, direct, last⟩ := thirteenBlocks_blocks p
  have file : FileNode thirteenBlocks (fun i => thirteenBlocks (5376 + i)) (twoGroupsFs p) 65536 := by
    constructor
    case nonempty => rw [size]; decide
    case reach =>
      rw [size, block]
      decide
    case blocks =>
      intro blk lt
      rw [count] at lt
      rcases Nat.lt_succ_iff_lt_or_eq.mp lt with early | rfl
      · rw [direct blk early, block]
        exact ⟨by decide, by decide⟩
      · rw [last, block]
        exact ⟨by decide, by decide⟩
    case indirect => exact fun _ => ⟨by decide, by rw [block]; decide⟩
    case sectors =>
      rw [count, block]
      decide
  have descriptor : ∀ i < sizeofBgd,
      s.Owns ((twoGroupsFs p).bgd (3 / sInodesPerGroup (twoGroupsFs p).sb) + i) := by
    intro i lt
    rw [perGroup]
    refine .inl ⟨(p, 64), by rw [live]; exact List.mem_cons_self, ?_⟩
    have here : (twoGroupsFs p).bgd (3 / 8) = p := rfl
    rw [sizeofBgd] at lt
    rw [here]
    dsimp only
    omega
  rw [← yields] at file size direct last count
  rcases ext2ReadFile_faithful thirteenBlocks s bs (twoGroupsFs p) 0 3 65536 inv (by decide) rfl (by decide)
    mounted.perGroup descriptor file with ⟨buf, h', ran, post⟩ | ⟨_, full⟩
  · have byte : ∀ j < 12291, h'.mem (buf + j) = thirteenBlocks
        (fileBlock thirteenBlocks (yieldedIno thirteenBlocks s.heap.mem (twoGroupsFs p) 3) (twoGroupsFs p)
          (j / 1024) * 1024 + j % 1024) := fun j lt => post.bytes j (by omega)
    refine ⟨s, p, buf, h', ran, ?_, ?_, ?_, ?_, ?_⟩
    · have read := byte 0 (by decide)
      rw [direct (0 / 1024) (by decide)] at read
      exact read
    · have read := byte 11265 (by decide)
      rw [direct (11265 / 1024) (by decide)] at read
      exact read
    · have read := byte 12288 (by decide)
      rw [show 12288 / 1024 = 12 from rfl, last] at read
      exact read
    · have read := byte 12290 (by decide)
      rw [show 12290 / 1024 = 12 from rfl, last] at read
      exact read
    · exact post.zeros 12291 (by omega) (by rw [count, block]; decide)
  · unfold readFileNeeds at full
    rw [count, block, sizeofIno] at full
    omega

end Blackcomb.Fs
