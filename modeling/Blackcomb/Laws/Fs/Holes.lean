import Blackcomb.Laws.Fs.ReadFile

/-!
# Holes and ends of files

A file has as many blocks as its size takes, and a pointer that is 0 stands for a block of zeros.
`ext2_get_block` compares the block's index with the number of 512-byte sectors that the file occupies, and
follows a pointer that is 0 to block 0 of the disk.

**What it does not establish.** That the blocks named by pointers belong to the file is what the
disk says; no pointer is checked, here or in the code.
-/

namespace Blackcomb.Fs

open Memory Mm Drivers

variable {disk node : Bytes} {s : Clients} {bs : List Block} {fs : Ext2Fs} {inBuf buf blk image k : Nat}

/-- The block of the disk that a direct or single indirect block of a file stands in, if it is no hole. -/
def mappedBlock (disk node : Bytes) (fs : Ext2Fs) (blk : Nat) : Option Nat :=
  if 12 ≤ blk ∧ iBlock node 0 12 = 0 then none
  else if fileBlock disk node fs blk = 0 then none
  else some (fileBlock disk node fs blk)

/-- The bytes of a block of a file. -/
def logicalBlock (disk node : Bytes) (fs : Ext2Fs) (blk : Nat) : Bytes := fun i =>
  match mappedBlock disk node fs blk with
  | none => 0
  | some b => disk (b * fs.blockSize + i)

/-- The pointers of a file that are not 0 point into the image. -/
structure ValidNode (disk node : Bytes) (fs : Ext2Fs) (image : Nat) : Prop where
  indirect : iBlock node 0 12 ≠ 0 → (iBlock node 0 12 + 1) * fs.blockSize ≤ image
  blocks : ∀ blk b, blk < fileBlocks node fs → mappedBlock disk node fs blk = some b →
    (b + 1) * fs.blockSize ≤ image

/-- What is promised of `ext2_get_block`: it panics for the blocks behind the end of the file, and for
another it returns with the block's bytes in the buffer. -/
def BlockFaithful (disk : Bytes) (s : Clients) (fs : Ext2Fs) (node : Bytes) (inBuf buf blk : Nat) :
    Prop :=
  (ext2GetBlock disk s.heap fs inBuf buf blk =
      .error (.panic "get block at index greater than file size") ↔ fileBlocks node fs ≤ blk) ∧
    (blk < fileBlocks node fs → ∃ h', ext2GetBlock disk s.heap fs inBuf buf blk = .ok h' ∧
      ∀ i < fs.blockSize, h'.mem (buf + i) = logicalBlock disk node fs blk i)

/-- Where no pointer is 0, the block that is read in the end is the file's. -/
theorem ValidNode.readPlace_eq {b : Nat} (valid : ValidNode disk node fs image)
    (below : image < 2 ^ 32) (pos : 0 < fs.blockSize) (lt : blk < fileBlocks node fs)
    (mapped : mappedBlock disk node fs blk = some b) :
    readPlace disk node fs blk * fs.blockSize % 2 ^ 32 = b * fs.blockSize := by
  have inside := valid.blocks blk b lt mapped
  unfold mappedBlock at mapped
  split at mapped
  · cases mapped
  rename_i pointed
  split at mapped
  · cases mapped
  obtain rfl := Option.some.inj mapped
  have same : readPlace disk node fs blk = fileBlock disk node fs blk := by
    unfold readPlace fileBlock
    split
    · rfl
    · have indirect := valid.indirect (by omega)
      rw [Nat.add_mul, Nat.one_mul] at indirect
      rw [Nat.mod_eq_of_lt (by omega)]
  rw [Nat.add_mul, Nat.one_mul] at inside
  rw [same, Nat.mod_eq_of_lt (by omega)]

/-- **Sizes and holes.** For every inode whose pointers are 0 or in the image, every direct or single
indirect block and every state of the heap with room for a block: the read is right exactly when the block
is behind the end of the file and behind `i_blocks`, or before both and either mapped or a hole in whose
place zeros are read. -/
theorem ext2GetBlock_faithful_iff (disk : Bytes) (s : Clients) (bs : List Block) (fs : Ext2Fs)
    (node : Bytes) (inBuf buf blk image k : Nat) (inv : Served s bs) (small : k ≤ 6)
    (blocks : fs.blockSize = 1024 <<< k) (below : image < 2 ^ 32)
    (valid : ValidNode disk node fs image) (holds : HoldsIno s.heap.mem node inBuf)
    (owned : ∀ i < fs.blockSize, s.Owns (buf + i)) (notNull : buf ≠ 0) (lt : blk < 12 + fs.ptrs)
    (room : Room s bs fs.blockSize) : BlockFaithful disk s fs node inBuf buf blk ↔
      (fileBlocks node fs ≤ blk ∧ iBlocks node 0 < blk) ∨
        (blk < fileBlocks node fs ∧ blk ≤ iBlocks node 0 ∧
          (mappedBlock disk node fs blk ≠ none ∨ ∀ i < fs.blockSize,
            disk (readPlace disk node fs blk * fs.blockSize % 2 ^ 32 + i) = 0)) := by
  have pos := (block_sectors small blocks).2.2.2
  unfold BlockFaithful
  by_cases counted : blk ≤ iBlocks node 0
  · rcases ext2GetBlock_reads disk blk inv small blocks holds owned notNull lt counted with
      ⟨_, full⟩ | ⟨h', ran, got⟩
    · exact absurd room full
    rw [ran]
    have returned : ¬ (Except.ok h' : Except Fault Heap) =
        .error (.panic "get block at index greater than file size") := by
      intro failed
      cases failed
    by_cases inside : blk < fileBlocks node fs
    · have bytes : (∃ h'', (Except.ok h' : Except Fault Heap) = .ok h'' ∧
          ∀ i < fs.blockSize, h''.mem (buf + i) = logicalBlock disk node fs blk i) ↔
          (mappedBlock disk node fs blk ≠ none ∨ ∀ i < fs.blockSize,
            disk (readPlace disk node fs blk * fs.blockSize % 2 ^ 32 + i) = 0) := by
        unfold logicalBlock
        cases mapped : mappedBlock disk node fs blk with
        | none =>
          simp only [ne_eq, not_true, false_or]
          constructor
          · rintro ⟨h'', same, right⟩ i less
            obtain rfl := Except.ok.inj same
            exact (got.bytes i less).symm.trans (right i less)
          · intro zeros
            exact ⟨h', rfl, fun i less => (got.bytes i less).trans (zeros i less)⟩
        | some b =>
          rw [valid.readPlace_eq below pos inside mapped] at got
          simp only [ne_eq, reduceCtorEq, not_false_eq_true, true_or, iff_true]
          exact ⟨h', rfl, got.bytes⟩
      simp only [returned, Nat.not_le.mpr inside, inside, counted, bytes, true_and, false_and, false_or,
        iff_self, forall_true_left]
    · have end_le := Nat.le_of_not_lt inside
      simp only [returned, end_le, inside, Nat.not_lt.mpr counted, false_iff, not_true, false_and,
        and_false, or_self]
  · have panics : ext2GetBlock disk s.heap fs inBuf buf blk =
        .error (.panic "get block at index greater than file size") := by
      unfold ext2GetBlock
      rw [if_pos (by rw [holds.sectors]; omega)]
    rw [panics]
    have behind : iBlocks node 0 < blk := Nat.lt_of_not_le counted
    by_cases inside : blk < fileBlocks node fs
    · simp [Nat.not_le.mpr inside, counted, inside]
    · simp [Nat.le_of_not_lt inside, behind, inside]

/-- A heap in which nothing is live yet, with an inode on the stack. -/
theorem heap_with_inode (node : Bytes) : ∃ (s : Clients) (bs : List Block), Served s bs ∧
    s.heap.kernelBrk + 65536 < kernelBrkStart + heapBytes ∧ HoldsIno s.heap.mem node 8192 := by
  obtain ⟨s, bs, inv, room⟩ := fresh_heap
  refine ⟨⟨{ s.heap with mem := memcpyFrom s.heap.mem 8192 node sizeofIno }, s.live⟩, bs,
    inv.rewrite ?_, room, ?_⟩
  · intro a not
    apply memcpyFrom_outside
    by_contra inside
    rw [sizeofIno] at inside
    exact not (owns_below s (by omega))
  · intro i lt
    dsimp only
    rw [memcpyFrom_apply, if_pos (by omega), Nat.add_sub_cancel_left]

/-- The inode of a file of the small image that is all hole. -/
def allHole : Bytes := store (fun _ => 0) 4 4 1024

/-- Before the superblock of the small image are zeros, so the hole is read as one; and the last block of the
file of thirteen, mapped by its block of pointers, is read. -/
theorem ext2GetBlock_faithful_iff_blocks :
    (∃ s : Clients, BlockFaithful twoGroups s (twoGroupsFs 0) allHole 8192 4096 0) ∧
      ∃ s : Clients, BlockFaithful thirteenBlocks s (twoGroupsFs 0) (fun i => thirteenBlocks (5376 + i))
        8192 4096 12 := by
  have size : (twoGroupsFs 0).blockSize = 1024 := rfl
  refine ⟨?hole, ?mapped⟩
  case mapped =>
    obtain ⟨s, bs, inv, room, holds⟩ := heap_with_inode fun i => thirteenBlocks (5376 + i)
    obtain ⟨count, direct, last⟩ := thirteenBlocks_blocks 0
    have pointers : iBlock (fun i => thirteenBlocks (5376 + i)) 0 12 = 60 := by decide
    have valid : ValidNode thirteenBlocks (fun i => thirteenBlocks (5376 + i)) (twoGroupsFs 0) 65536 := by
      refine ⟨fun _ => by rw [pointers, size]; decide, fun blk b lt mapped => ?_⟩
      rw [count] at lt
      unfold mappedBlock at mapped
      rw [if_neg (by rw [pointers]; omega)] at mapped
      rcases Nat.lt_succ_iff_lt_or_eq.mp lt with early | rfl
      · rw [direct blk early] at mapped
        obtain rfl := Option.some.inj mapped
        rw [size]
        decide
      · rw [last] at mapped
        obtain rfl := Option.some.inj mapped
        rw [size]
        decide
    have here : mappedBlock thirteenBlocks (fun i => thirteenBlocks (5376 + i)) (twoGroupsFs 0) 12 ≠ none := by
      unfold mappedBlock
      rw [if_neg (by rw [pointers]; decide), last]
      decide
    exact ⟨s, (ext2GetBlock_faithful_iff thirteenBlocks s bs (twoGroupsFs 0)
      (fun i => thirteenBlocks (5376 + i)) 8192 4096 12 65536 0 inv (by decide) rfl (by decide) valid holds
      (fun i lt => owns_below s (by omega)) (by decide) (by decide) (.inr (by omega))).mpr
      (.inr ⟨by rw [count]; decide, by decide, .inl here⟩)⟩
  obtain ⟨s, bs, inv, room, holds⟩ := heap_with_inode allHole
  have count : fileBlocks allHole (twoGroupsFs 0) = 1 := by decide
  have hole : mappedBlock twoGroups allHole (twoGroupsFs 0) 0 = none := by decide
  have valid : ValidNode twoGroups allHole (twoGroupsFs 0) 65536 := by
    constructor
    case indirect => exact fun pointed => absurd (by decide) pointed
    case blocks =>
      intro blk b lt mapped
      obtain rfl : blk = 0 := by omega
      rw [hole] at mapped
      cases mapped
  refine ⟨s, (ext2GetBlock_faithful_iff twoGroups s bs (twoGroupsFs 0) allHole 8192 4096 0 65536 0 inv
    (by decide) rfl (by decide) valid holds (fun i lt => owns_below s (by omega)) (by decide)
    (by decide) (.inr (by omega))).mpr (.inr ⟨by decide, by decide, .inr ?_⟩)⟩
  have place : readPlace twoGroups allHole (twoGroupsFs 0) 0 = 0 := by decide
  intro i lt
  rw [place, size, Nat.zero_mul, Nat.zero_mod, Nat.zero_add]
  -- no byte of the image before its superblock is in the list
  have later : ∀ p ∈ twoGroupsBytes, 1024 ≤ p.1 := by decide
  have missing : twoGroupsBytes.lookup i = none := by
    rw [List.lookup_eq_none_iff]
    intro p mem
    have := later p mem
    rw [size] at lt
    simp only [bne_iff_ne, ne_eq]
    omega
  rw [twoGroups, missing]
  rfl

/-- The file of the small image has one block and two sectors, and its second block is read. -/
theorem ext2GetBlock_behind_end : ∃ (s : Clients) (bs : List Block) (h' : Heap), Served s bs ∧
    HoldsIno s.heap.mem (fun i => twoGroups (5376 + i)) 8192 ∧
    fileBlocks (fun i => twoGroups (5376 + i)) (twoGroupsFs 0) = 1 ∧
    iBlocks (fun i => twoGroups (5376 + i)) 0 = 2 ∧
    ext2GetBlock twoGroups s.heap (twoGroupsFs 0) 8192 4096 1 = .ok h' ∧
    ¬ BlockFaithful twoGroups s (twoGroupsFs 0) (fun i => twoGroups (5376 + i)) 8192 4096 1 := by
  obtain ⟨s, bs, inv, room, holds⟩ := heap_with_inode fun i => twoGroups (5376 + i)
  have size : (twoGroupsFs 0).blockSize = 1024 := rfl
  have count : fileBlocks (fun i => twoGroups (5376 + i)) (twoGroupsFs 0) = 1 := by decide
  have sectors : iBlocks (fun i => twoGroups (5376 + i)) 0 = 2 := by decide
  rcases ext2GetBlock_reads twoGroups 1 inv (show 0 ≤ 6 by decide)
    (show (twoGroupsFs 0).blockSize = 1024 <<< 0 by rfl) holds
    (fun i lt => owns_below s (show 4096 + i < _ by omega)) (by decide) (by decide)
    (by rw [sectors]; decide) with ⟨_, full⟩ | ⟨h', ran, _⟩
  · exact absurd (.inr (by omega)) full
  · refine ⟨s, bs, h', inv, holds, count, sectors, ran, fun faithful => ?_⟩
    have panics := faithful.1.mpr (by rw [count])
    rw [ran] at panics
    cases panics

end Blackcomb.Fs
