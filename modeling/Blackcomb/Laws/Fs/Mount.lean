import Blackcomb.Laws.Fs.ReadFile

/-!
# Mounting

`ext2_mount_rootfs` reads the superblock, as many group descriptors as whole groups fit in the blocks,
from block 2, and the root's inode. The table's place is right for blocks of 1 KiB, the count when no
part of a group is left over, and the read when the table has at most 255 sectors. What the code loads
where it is not right does not depend on the bytes of the disk that it should have loaded
(`mountTable_congr`).
-/

namespace Blackcomb.Fs

open Memory Mm Drivers

variable {disk disk' : Bytes} {s : Clients} {bs : List Block} {sbBuf inoBuf image : Nat}

/-! ## Images -/

/-- The superblock of a disk. -/
def superblock (disk : Bytes) : Bytes := fun i => disk (sbStartBytes + i)

/-- `1024 << s_log_block_size`. -/
def sbBlockSize (sb : Bytes) : Nat := 1024 <<< sLogBlockSize sb

/-- How many block groups there are: the last one may be short. -/
def sbGroups (sb : Bytes) : Nat :=
  (sBlocksCount sb - sFirstDataBlock sb + (sBlocksPerGroup sb - 1)) / sBlocksPerGroup sb

/-- `bgdt_elems`: the whole groups in all blocks. -/
def bgdtElems (sb : Bytes) : Nat := sBlocksCount sb / sBlocksPerGroup sb

/-- Where the group descriptors begin on the disk. -/
def sbTable (sb : Bytes) : Nat := (sFirstDataBlock sb + 1) * sbBlockSize sb

/-- Where the first group's inode table begins. -/
def rootTable (disk : Bytes) : Nat :=
  bgInodeTable disk (sbTable (superblock disk)) * sbBlockSize (superblock disk)

/-- An image with a valid superblock of revision 0: all its blocks and its root's inode are in it. -/
structure ValidImage (disk : Bytes) (image : Nat) : Prop where
  below : image < 2 ^ 32
  log : sLogBlockSize (superblock disk) ≤ 6
  first : sFirstDataBlock (superblock disk) = if sLogBlockSize (superblock disk) = 0 then 1 else 0
  blocksPerGroup : 0 < sBlocksPerGroup (superblock disk)
  inodesPerGroup : 0 < sInodesPerGroup (superblock disk)
  blocks : sBlocksCount (superblock disk) * sbBlockSize (superblock disk) ≤ image
  root : rootTable disk + 2 * sizeofIno ≤ image

/-! ## The table -/

/-- The length of the read of the table. -/
def tableLen (sb : Bytes) : Nat :=
  (int32 (sBlocksCount sb / sBlocksPerGroup sb : Nat) * sizeofBgd % 2 ^ 64).toNat % 2 ^ 32

/-- What is loaded depends on the superblock's sector and on those sectors of the table that the drive is
asked for. -/
theorem mountTable_congr {h h₁ : Heap} {p : Nat} {fs : Ext2Fs}
    (ran : mountTable disk h sbBuf = .ok (p, fs, h₁))
    (first : ∀ i < 512, disk (1024 + i) = disk' (1024 + i))
    (second : ∀ i < 512 * (nsectors (tableLen fs.sb) % 256),
      disk (512 * (2 * fs.blockSize % 2 ^ 32 / 512) + i) =
        disk' (512 * (2 * fs.blockSize % 2 ^ 32 / 512) + i)) :
    mountTable disk' h sbBuf = .ok (p, fs, h₁) := by
  have same : mountSuper disk h sbBuf = mountSuper disk' h sbBuf := by
    unfold mountSuper
    have read : ∀ m, ataReadBytes disk m sbBuf sbStartBytes sizeofSb =
        ataReadBytes disk' m sbBuf sbStartBytes sizeofSb := fun m => ataReadBytes_congr first
    simp only [read]
  unfold mountTable at ran ⊢
  obtain ⟨⟨p₀, h₀⟩, super, ran⟩ := bind_eq_ok.mp ran
  rw [← same, super, ok_bind]
  dsimp only at ran ⊢
  split at ran
  · cases ran
  rename_i valid
  rw [if_neg valid]
  obtain ⟨⟨t, h₂⟩, allocated, ran⟩ := bind_eq_ok.mp ran
  rw [allocated, ok_bind]
  dsimp only at ran ⊢
  obtain ⟨h₃, read, ran⟩ := bind_eq_ok.mp ran
  cases ran
  refine bind_eq_ok.mpr ⟨h₁, ?_, rfl⟩
  rw [← read]
  exact (ataReadBytes_congr second).symm

/-- A field of four bytes in a copy of a superblock. -/
theorem load_sb {sb sb' : Bytes} {a : Nat} (same : ∀ i < sizeofSb, sb i = sb' i)
    (inside : a + 4 ≤ sizeofSb) : load sb a 4 = load sb' a 4 :=
  load_congr fun i _ high => same i (by omega)

/-- The size of a table in `size_t`, when the blocks are in an image. -/
theorem table_size {q : Nat} (small : q < 2 ^ 22) :
    (int32 (q : Nat) * sizeofBgd % 2 ^ 64).toNat = q * sizeofBgd := by
  rw [int32_of_lt (by omega), sizeofBgd]
  omega

/-- A block is at least 1 KiB and, in a valid image, at most 64 KiB. -/
theorem ValidImage.blockSize (valid : ValidImage disk image) :
    1024 ≤ sbBlockSize (superblock disk) ∧ sbBlockSize (superblock disk) ≤ 65536 ∧
      1024 ∣ sbBlockSize (superblock disk) := by
  have most : 2 ^ sLogBlockSize (superblock disk) ≤ 2 ^ 6 :=
    Nat.pow_le_pow_right (by decide) valid.log
  have least := Nat.two_pow_pos (sLogBlockSize (superblock disk))
  rw [sbBlockSize, Nat.shiftLeft_eq]
  exact ⟨by omega, by omega, Nat.dvd_mul_right _ _⟩

/-- An image below 4 GiB has fewer than `2 ^ 22` blocks. -/
theorem ValidImage.few (valid : ValidImage disk image) :
    sBlocksCount (superblock disk) < 2 ^ 22 ∧ bgdtElems (superblock disk) < 2 ^ 22 := by
  have size := valid.blockSize.1
  have blocks := valid.blocks
  have below := valid.below
  have least := Nat.mul_le_mul_left (sBlocksCount (superblock disk)) size
  have fewer := Nat.div_le_self (sBlocksCount (superblock disk)) (sBlocksPerGroup (superblock disk))
  unfold bgdtElems
  omega

/-- The bytes of the table that is loaded. -/
def bgdtSize (sb : Bytes) : Nat := bgdtElems sb * sizeofBgd

/-- What it takes of the heap to load the table, with the headers. -/
def tableNeeds (sb : Bytes) : Nat :=
  (32 + sizeofFs) + (32 + 512) + (32 + bgdtSize sb) + (32 + 512 * nsectors (bgdtSize sb))

/-- What `ext2_mount_rootfs` has done when it has read the table. -/
structure TableLoaded (disk : Bytes) (s : Clients) (p : Nat) (fs : Ext2Fs) (h' : Heap) : Prop where
  served : ∃ bs', Served ⟨h', (fs.bgdt, bgdtSize (superblock disk)) :: (p, sizeofFs) :: s.live⟩ bs'
  blockSize : fs.blockSize = sbBlockSize (superblock disk)
  sb : ∀ i < sizeofSb, fs.sb i = superblock disk i
  bytes : ∀ i < bgdtSize (superblock disk),
    i < 512 * (nsectors (bgdtSize (superblock disk)) % 256) →
    h'.mem (fs.bgdt + i) = disk (2 * sbBlockSize (superblock disk) + i)
  fresh : ∀ i < bgdtSize (superblock disk), ¬ s.Owns (fs.bgdt + i)
  brk : h'.kernelBrk ≤ s.heap.kernelBrk + tableNeeds (superblock disk)

/-- What `ext2_mount_rootfs` has done when it has read the superblock. -/
structure SuperRead (disk : Bytes) (s : Clients) (sbBuf p : Nat) (h' : Heap) : Prop where
  served : ∃ bs', Served ⟨h', (p, sizeofFs) :: s.live⟩ bs'
  sb : ∀ i < sizeofSb, h'.mem (sbBuf + i) = superblock disk i
  brk : h'.kernelBrk ≤ s.heap.kernelBrk + (32 + sizeofFs) + (32 + 512)

theorem mountSuper_serves (disk : Bytes) (inv : Served s bs) (owned : ∀ i < sizeofSb, s.Owns (sbBuf + i))
    (notNull : sbBuf ≠ 0) :
    Serves (s.heap.kernelBrk + (32 + sizeofFs) + (32 + 512) < kernelBrkStart + heapBytes)
      (mountSuper disk s.heap sbBuf) fun r => SuperRead disk s sbBuf r.1 r.2 := by
  unfold mountSuper
  refine ((inv.serves_kmalloc (by decide) (by decide)).room_mono ?_).bind ?_
  · intro room
    exact .inr (by omega)
  intro r allotted₁
  obtain ⟨p, h₁⟩ := r
  obtain ⟨bs₁, inv₁⟩ := allotted₁.served
  have brk₁ := allotted₁.brk
  have low₁ := allotted₁.low
  dsimp only at inv₁ brk₁ low₁ ⊢
  rw [if_neg (by omega)]
  -- the local is cleared before it is read into
  have inv₂ : Served ⟨{ h₁ with mem := memset h₁.mem sbBuf 0 sizeofSb }, (p, sizeofFs) :: s.live⟩
      bs₁ := by
    apply inv₁.rewrite
    intro a not
    rw [memset_apply, if_neg]
    intro inside
    have owns := owned (a - sbBuf) (by omega)
    rw [Nat.add_sub_of_le inside.1] at owns
    exact not (owns.cons _ _)
  generalize cleared : ({ h₁ with mem := memset h₁.mem sbBuf 0 sizeofSb } : Heap) = h₂ at inv₂ ⊢
  have brk₂ : h₂.kernelBrk = h₁.kernelBrk := by rw [← cleared]
  have one : 512 * nsectors sizeofSb = 512 := by decide
  refine ((ataReadBytes_serves disk sbStartBytes inv₂
    (fun i lt => (owned i lt).cons h₂ _) notNull (by decide) (by decide) (by decide)).room_mono
      ?_).bind ?_
  · intro room
    rw [one]
    exact .inr (by dsimp only; omega)
  intro h₃ read
  obtain ⟨bs₃, inv₃, _⟩ := read.served
  have brk₃ := read.brk
  rw [one] at brk₃
  dsimp only at inv₃ brk₃ ⊢
  apply Serves.ok
  constructor
  case served => exact ⟨bs₃, inv₃⟩
  case sb =>
    intro i lt
    apply read.bytes i lt
    have one : nsectors sizeofSb % 256 = 1 := by decide
    rw [one]
    rw [sizeofSb] at lt
    simp only [sbStartBytes]
    omega
  case brk =>
    dsimp only
    omega

/-- No table of no descriptors is allocated. -/
theorem mountTable_none {r : Nat × Ext2Fs × Heap} (inv : Served s bs)
    (none : bgdtElems (superblock disk) = 0) (owned : ∀ i < sizeofSb, s.Owns (sbBuf + i))
    (notNull : sbBuf ≠ 0) : mountTable disk s.heap sbBuf ≠ .ok r := by
  intro ran
  unfold mountTable at ran
  obtain ⟨⟨p, h₃⟩, super, ran⟩ := bind_eq_ok.mp ran
  have served := mountSuper_serves disk inv owned notNull
  rw [super] at served
  obtain ⟨_, same, read⟩ := served.run (by simp [heapExhausted])
  obtain rfl := Except.ok.inj same
  dsimp only at ran
  split at ran
  · cases ran
  have count : sBlocksCount (fun i => h₃.mem (sbBuf + i)) = sBlocksCount (superblock disk) :=
    load_sb read.sb (by decide)
  have perGroup : sBlocksPerGroup (fun i => h₃.mem (sbBuf + i)) =
      sBlocksPerGroup (superblock disk) := load_sb read.sb (by decide)
  rw [count, perGroup, ← bgdtElems, none] at ran
  obtain ⟨_, allocated, _⟩ := bind_eq_ok.mp ran
  cases allocated

/-- **Mounting, the table.** -/
theorem mountTable_serves (inv : Served s bs) (valid : ValidImage disk image)
    (some : 0 < bgdtElems (superblock disk)) (owned : ∀ i < sizeofSb, s.Owns (sbBuf + i))
    (notNull : sbBuf ≠ 0) :
    Serves (s.heap.kernelBrk + tableNeeds (superblock disk) < kernelBrkStart + heapBytes)
      (mountTable disk s.heap sbBuf) fun r => TableLoaded disk s r.1 r.2.1 r.2.2 := by
  obtain ⟨least, most, multiple⟩ := valid.blockSize
  obtain ⟨_, few⟩ := valid.few
  unfold mountTable
  refine ((mountSuper_serves disk inv owned notNull).room_mono ?_).bind ?_
  · intro room
    unfold tableNeeds at room
    omega
  intro r read
  obtain ⟨p, h₃⟩ := r
  obtain ⟨bs₃, inv₃⟩ := read.served
  have brk₃ := read.brk
  have sb := read.sb
  dsimp only at inv₃ brk₃ sb ⊢
  have log : sLogBlockSize (fun i => h₃.mem (sbBuf + i)) = sLogBlockSize (superblock disk) :=
    load_sb sb (by decide)
  have count : sBlocksCount (fun i => h₃.mem (sbBuf + i)) = sBlocksCount (superblock disk) :=
    load_sb sb (by decide)
  have perGroup : sBlocksPerGroup (fun i => h₃.mem (sbBuf + i)) =
      sBlocksPerGroup (superblock disk) := load_sb sb (by decide)
  have size := table_size few
  have pos : 0 < bgdtSize (superblock disk) := Nat.mul_pos some (by decide)
  have fits : bgdtSize (superblock disk) < 2 ^ 27 := by
    unfold bgdtSize sizeofBgd
    omega
  rw [log, count, perGroup, ← bgdtElems, size, ← bgdtSize, Nat.mod_eq_of_lt (by omega), if_neg]
  swap
  · have := valid.log
    have := valid.blocksPerGroup
    omega
  -- the table
  refine ((inv₃.serves_kmalloc pos (by omega)).room_mono ?_).bind ?_
  · intro room
    unfold tableNeeds at room
    exact .inr (by dsimp only; omega)
  intro r allotted₄
  obtain ⟨bgdt, h₄⟩ := r
  obtain ⟨bs₄, inv₄⟩ := allotted₄.served
  have brk₄ := allotted₄.brk
  have low₄ := allotted₄.low
  have fresh : ∀ i < bgdtSize (superblock disk), ¬ s.Owns (bgdt + i) := by
    intro i lt owns
    exact allotted₄.fresh (Nat.le_add_right _ _) (Nat.add_lt_add_left lt bgdt) (owns.cons h₃ _)
  dsimp only at inv₄ brk₄ low₄ ⊢
  have place : 2 * (1024 <<< sLogBlockSize (superblock disk)) % 2 ^ 32 =
      2 * sbBlockSize (superblock disk) := by
    rw [← sbBlockSize]
    omega
  have aligned : 2 * sbBlockSize (superblock disk) % 512 = 0 := by omega
  have sectors := nsectors_eq (bgdtSize (superblock disk)) (by omega)
  unfold readBlk
  rw [place]
  refine ((ataReadBytes_serves disk (2 * sbBlockSize (superblock disk)) inv₄
    (Clients.owns_head _ _) (by omega) pos (by omega) (by omega)).room_mono ?_).bind ?_
  · intro room
    unfold tableNeeds at room
    exact .inr (by dsimp only; omega)
  intro h₅ read₅
  obtain ⟨bs₅, inv₅, _⟩ := read₅.served
  have brk₅ := read₅.brk
  dsimp only at inv₅ brk₅
  apply Serves.ok
  constructor
  case served => exact ⟨bs₅, inv₅⟩
  case blockSize => exact rfl
  case sb => exact sb
  case bytes =>
    intro i lt few
    exact read₅.bytes i lt (by omega)
  case fresh => exact fresh
  case brk =>
    unfold tableNeeds
    dsimp only
    omega

/-! ## The root -/

/-- What reading the first eleven inodes has done, after the table was read. -/
structure RootRead (disk : Bytes) (s : Clients) (p : Nat) (fs : Ext2Fs) (h₁ : Heap) (inoBuf : Nat)
    (h' : Heap) : Prop where
  served : ∃ bs', Served ⟨h', (fs.bgdt, bgdtSize (superblock disk)) :: (p, sizeofFs) :: s.live⟩ bs'
  bytes : ∀ i < 11 * sizeofIno, h'.mem (inoBuf + i) =
    disk (bgInodeTable h₁.mem fs.bgdt * fs.blockSize % 2 ^ 32 + i)
  kept : ∀ i < bgdtSize (superblock disk), h'.mem (fs.bgdt + i) = h₁.mem (fs.bgdt + i)

theorem rootRead_serves {p : Nat} {fs : Ext2Fs} {h₁ : Heap} (valid : ValidImage disk image)
    (table : TableLoaded disk s p fs h₁) (owned : ∀ i < 11 * sizeofIno, s.Owns (inoBuf + i))
    (notNull : inoBuf ≠ 0) :
    Serves (h₁.kernelBrk + (32 + 1536) < kernelBrkStart + heapBytes)
      (readBlk disk h₁ fs inoBuf (bgInodeTable h₁.mem fs.bgdt) (11 * sizeofIno))
      (RootRead disk s p fs h₁ inoBuf) := by
  obtain ⟨bs₁, inv₁⟩ := table.served
  obtain ⟨_, _, c, multiple⟩ := valid.blockSize
  have three : 512 * nsectors (11 * sizeofIno) = 1536 := by decide
  have aligned : bgInodeTable h₁.mem fs.bgdt * fs.blockSize % 2 ^ 32 % 512 = 0 := by
    rw [table.blockSize, multiple, Nat.mul_left_comm]
    omega
  have served := ataReadBytes_serves disk
    (bgInodeTable h₁.mem fs.bgdt * fs.blockSize % 2 ^ 32) inv₁
    (fun i lt => ((owned i lt).cons h₁ (p, sizeofFs)).cons h₁ _) notNull (by decide) (by decide)
    (by rw [three, aligned]; decide)
  rw [three] at served
  unfold readBlk
  refine (served.room_mono fun room => .inr ?_).imp ?_
  · dsimp only
    omega
  intro h' read
  obtain ⟨bs', inv', _⟩ := read.served
  constructor
  case served => exact ⟨bs', inv'⟩
  case bytes =>
    intro i lt
    apply read.bytes i lt
    have few : nsectors (11 * sizeofIno) % 256 = 3 := by decide
    rw [few]
    rw [sizeofIno] at lt
    omega
  case kept =>
    intro i lt
    refine read.kept _ (Clients.owns_head h₁ _ i lt) ?_
    -- the table is new, and the local was there before
    by_contra inside
    have owns := owned (fs.bgdt + i - inoBuf) (by omega)
    rw [Nat.add_sub_of_le (by omega)] at owns
    exact table.fresh i lt owns

/-- A mount that does not exhaust the heap returns, if there is a table at all. -/
theorem ext2MountRootfs_runs (inv : Served s bs) (valid : ValidImage disk image)
    (some : 0 < bgdtElems (superblock disk)) (ownedSb : ∀ i < sizeofSb, s.Owns (sbBuf + i))
    (ownedIno : ∀ i < 11 * sizeofIno, s.Owns (inoBuf + i)) (sbNotNull : sbBuf ≠ 0)
    (inoNotNull : inoBuf ≠ 0) :
    Serves (s.heap.kernelBrk + tableNeeds (superblock disk) + (32 + 1536) <
        kernelBrkStart + heapBytes) (ext2MountRootfs disk s.heap sbBuf inoBuf) fun r =>
      ∃ fs h₁, mountTable disk s.heap sbBuf = .ok (r.1, fs, h₁) ∧ TableLoaded disk s r.1 fs h₁ ∧
        r.2.1 = { fs with rooti := fun i => r.2.2.mem (inoBuf + sizeofIno + i) } ∧
        RootRead disk s r.1 fs h₁ inoBuf r.2.2 := by
  unfold ext2MountRootfs
  refine ((mountTable_serves inv valid some ownedSb sbNotNull).room_mono fun room => by omega).bind_eq
    ?_
  intro r ran table
  obtain ⟨p, fs, h₁⟩ := r
  have brk := table.brk
  dsimp only at ran table brk ⊢
  refine ((rootRead_serves valid table ownedIno inoNotNull).room_mono fun room => by omega).bind ?_
  intro h' root
  exact .ok ⟨fs, h₁, ran, table, rfl, root⟩

/-! ## Where the code is right -/

/-- What is promised of a mount that returned: for every group the table has room for its descriptor and
holds it, every group that `ext2_get_inode` computes has one, and the root is inode 2. -/
structure MountLoaded (disk : Bytes) (s : Clients) (p : Nat) (fs : Ext2Fs) (h' : Heap) : Prop where
  served : ∃ bs', Served ⟨h', (fs.bgdt, bgdtSize (superblock disk)) :: (p, sizeofFs) :: s.live⟩ bs'
  room : ∀ g < sbGroups (superblock disk), (g + 1) * sizeofBgd ≤ bgdtSize (superblock disk)
  loaded : ∀ g < sbGroups (superblock disk), ∀ i < sizeofBgd,
    h'.mem (fs.bgd g + i) = disk (sbTable (superblock disk) + g * sizeofBgd + i)
  inside : ∀ ino, 1 ≤ ino → ino ≤ sInodesCount (superblock disk) →
    (ino / sInodesPerGroup (superblock disk) + 1) * sizeofBgd ≤ bgdtSize (superblock disk)
  root : ∀ i < sizeofIno, fs.rooti i = disk (rootTable disk + sizeofIno + i)

/-- The mount returns and has done what is promised. -/
def MountRight (disk : Bytes) (s : Clients) (sbBuf inoBuf : Nat) : Prop :=
  ∃ p fs h', ext2MountRootfs disk s.heap sbBuf inoBuf = .ok (p, fs, h') ∧ MountLoaded disk s p fs h'

/-- Two superblocks with the same bytes. -/
def SameSb (sb sb' : Bytes) : Prop := ∀ i < sizeofSb, sb i = sb' i

/-- They have the same sizes, counts and places. -/
theorem SameSb.sizes {sb sb' : Bytes} (same : SameSb sb sb') :
    sbBlockSize sb = sbBlockSize sb' ∧ sbTable sb = sbTable sb' ∧ sbGroups sb = sbGroups sb' ∧
      bgdtElems sb = bgdtElems sb' ∧ bgdtSize sb = bgdtSize sb' := by
  have log : sLogBlockSize sb = sLogBlockSize sb' := load_sb same (by decide)
  have first : sFirstDataBlock sb = sFirstDataBlock sb' := load_sb same (by decide)
  have blocks : sBlocksCount sb = sBlocksCount sb' := load_sb same (by decide)
  have perGroup : sBlocksPerGroup sb = sBlocksPerGroup sb' := load_sb same (by decide)
  unfold bgdtSize sbTable sbBlockSize sbGroups bgdtElems
  rw [log, first, blocks, perGroup]
  exact ⟨rfl, rfl, rfl, rfl, rfl⟩

/-- When the code is right: blocks of 1 KiB, no group left out of the count, at most 255 sectors of
descriptors, and a descriptor for the group that is computed for the last inode. -/
structure MountGood (sb : Bytes) : Prop where
  log : sLogBlockSize sb = 0
  groups : sbGroups sb ≤ bgdtElems sb
  sectors : bgdtElems sb ≤ 4080
  inodes : sInodesCount sb / sInodesPerGroup sb < bgdtElems sb

/-- In a valid image there are at least as many groups as the code counts, or one less, when a group is a
single block. -/
theorem ValidImage.groups (valid : ValidImage disk image) :
    bgdtElems (superblock disk) ≤ sbGroups (superblock disk) + sFirstDataBlock (superblock disk) := by
  have pos := valid.blocksPerGroup
  unfold bgdtElems sbGroups
  generalize sBlocksCount (superblock disk) = blocks
  generalize sFirstDataBlock (superblock disk) = first
  generalize sBlocksPerGroup (superblock disk) = n at pos ⊢
  apply Nat.div_le_of_le_mul
  have whole := Nat.div_add_mod (blocks - first + (n - 1)) n
  have rest := Nat.mod_lt (blocks - first + (n - 1)) pos
  have most : first ≤ n * first := Nat.le_mul_of_pos_left first pos
  rw [Nat.mul_add]
  omega

/-- **Enough.** -/
theorem MountGood.right (good : MountGood (superblock disk)) (inv : Served s bs)
    (valid : ValidImage disk image) (ownedSb : ∀ i < sizeofSb, s.Owns (sbBuf + i))
    (ownedIno : ∀ i < 11 * sizeofIno, s.Owns (inoBuf + i)) (sbNotNull : sbBuf ≠ 0)
    (inoNotNull : inoBuf ≠ 0) (held : ext2MountRootfs disk s.heap sbBuf inoBuf ≠ .error heapExhausted) :
    MountRight disk s sbBuf inoBuf := by
  have some : 0 < bgdtElems (superblock disk) := Nat.zero_lt_of_lt good.inodes
  have groups := good.groups
  have sectors := good.sectors
  have first : sFirstDataBlock (superblock disk) = 1 := valid.first.trans (if_pos good.log)
  have block : sbBlockSize (superblock disk) = 1024 := by
    rw [sbBlockSize, good.log]
    rfl
  have place : sbTable (superblock disk) = 2048 := by
    rw [sbTable, first, block]
  have size : bgdtSize (superblock disk) = bgdtElems (superblock disk) * 32 := rfl
  have count := nsectors_eq (bgdtSize (superblock disk)) (by omega)
  obtain ⟨⟨p, fs', h'⟩, ran, fs, h₁, _, table, same, root⟩ :=
    (ext2MountRootfs_runs inv valid some ownedSb ownedIno sbNotNull inoNotNull).run held
  dsimp only at same root
  subst same
  have loaded : ∀ x < bgdtSize (superblock disk), h₁.mem (fs.bgdt + x) = disk (2048 + x) := by
    intro x lt
    have read := table.bytes x lt (by omega)
    rwa [block] at read
  refine ⟨p, _, h', ran, ?_⟩
  constructor
  case served => exact root.served
  case room =>
    intro g lt
    rw [size, sizeofBgd]
    omega
  case loaded =>
    intro g lt i small
    rw [sizeofBgd] at small
    have inside : g * 32 + i < bgdtSize (superblock disk) := by omega
    rw [place, Ext2Fs.bgd, sizeofBgd, Nat.add_assoc, Nat.add_assoc]
    exact (root.kept _ inside).trans (loaded _ inside)
  case inside =>
    intro ino _ last
    have less := Nat.div_le_div_right (c := sInodesPerGroup (superblock disk)) last
    have inodes := good.inodes
    rw [size, sizeofBgd]
    omega
  case root =>
    intro i lt
    have rootInside := valid.root
    have below := valid.below
    have pointer : bgInodeTable h₁.mem fs.bgdt = bgInodeTable disk (sbTable (superblock disk)) := by
      rw [place]
      apply load_shift
      intro j less
      rw [Nat.add_assoc, Nat.add_assoc]
      exact loaded _ (by omega)
    have read := root.bytes (sizeofIno + i) (by rw [sizeofIno] at lt ⊢; omega)
    rw [pointer, table.blockSize, ← rootTable, Nat.mod_eq_of_lt (by omega)] at read
    rw [← Nat.add_assoc, ← Nat.add_assoc] at read
    exact read

/-- A mount that returns has a table. -/
theorem MountRight.some (inv : Served s bs) (ownedSb : ∀ i < sizeofSb, s.Owns (sbBuf + i))
    (sbNotNull : sbBuf ≠ 0) (right : MountRight disk s sbBuf inoBuf) :
    0 < bgdtElems (superblock disk) := by
  obtain ⟨p, fs, h', ran, _⟩ := right
  apply Nat.pos_of_ne_zero
  intro none
  unfold ext2MountRootfs at ran
  obtain ⟨r, table, _⟩ := bind_eq_ok.mp ran
  exact mountTable_none inv none ownedSb sbNotNull table

/-- The descriptors were right when the table was read. -/
theorem MountRight.table (inv : Served s bs) (valid : ValidImage disk image)
    (ownedSb : ∀ i < sizeofSb, s.Owns (sbBuf + i))
    (ownedIno : ∀ i < 11 * sizeofIno, s.Owns (inoBuf + i)) (sbNotNull : sbBuf ≠ 0)
    (inoNotNull : inoBuf ≠ 0) (right : MountRight disk s sbBuf inoBuf) :
    ∃ p fs h₁, mountTable disk s.heap sbBuf = .ok (p, fs, h₁) ∧ TableLoaded disk s p fs h₁ ∧
      ∀ x < sbGroups (superblock disk) * sizeofBgd,
        h₁.mem (fs.bgdt + x) = disk (sbTable (superblock disk) + x) := by
  have some := right.some inv ownedSb sbNotNull
  obtain ⟨p, fs', h', ran, loaded⟩ := right
  have served := ext2MountRootfs_runs inv valid some ownedSb ownedIno sbNotNull inoNotNull
  rw [ran] at served
  obtain ⟨r, same, fs, h₁, table, read, mounted, root⟩ := served.run (by simp [heapExhausted])
  obtain rfl := Except.ok.inj same
  dsimp only at table read mounted root
  subst mounted
  refine ⟨p, fs, h₁, table, read, ?_⟩
  intro x lt
  rw [sizeofBgd] at lt
  have group : x / 32 < sbGroups (superblock disk) := by omega
  have here := loaded.loaded _ group (x % 32) (Nat.mod_lt x (by decide))
  have room := loaded.room _ group
  simp only [Ext2Fs.bgd, sizeofBgd, Nat.add_assoc, Nat.div_add_mod'] at here room
  rw [← here]
  refine (root.kept x ?_).symm
  omega

/-- Bytes of the table that the load does not depend on cannot be right on every image. -/
theorem MountRight.agree (inv : Served s bs) (valid : ValidImage disk image)
    (valid' : ValidImage disk' image) (ownedSb : ∀ i < sizeofSb, s.Owns (sbBuf + i))
    (ownedIno : ∀ i < 11 * sizeofIno, s.Owns (inoBuf + i)) (sbNotNull : sbBuf ≠ 0)
    (inoNotNull : inoBuf ≠ 0) (right : MountRight disk s sbBuf inoBuf)
    (right' : MountRight disk' s sbBuf inoBuf)
    (sameSb : SameSb (superblock disk) (superblock disk'))
    (sector : ∀ i < 512, disk (1024 + i) = disk' (1024 + i))
    (read : ∀ i < 512 * (nsectors (bgdtSize (superblock disk)) % 256),
      disk (2 * sbBlockSize (superblock disk) + i) = disk' (2 * sbBlockSize (superblock disk) + i)) :
    ∀ x < sbGroups (superblock disk) * sizeofBgd,
      disk (sbTable (superblock disk) + x) = disk' (sbTable (superblock disk) + x) := by
  obtain ⟨_, place, groups, _⟩ := sameSb.sizes
  obtain ⟨least, most, c, multiple⟩ := valid.blockSize
  obtain ⟨p, fs, h₁, ran, table, loaded⟩ :=
    right.table inv valid ownedSb ownedIno sbNotNull inoNotNull
  obtain ⟨p', fs', h₁', ran', _, loaded'⟩ :=
    right'.table inv valid' ownedSb ownedIno sbNotNull inoNotNull
  have len : tableLen fs.sb = bgdtSize (superblock disk) := by
    have blocks : sBlocksCount fs.sb = sBlocksCount (superblock disk) := load_sb table.sb (by decide)
    have perGroup : sBlocksPerGroup fs.sb = sBlocksPerGroup (superblock disk) :=
      load_sb table.sb (by decide)
    have few := valid.few.2
    unfold tableLen
    rw [blocks, perGroup, ← bgdtElems, table_size few, ← bgdtSize, Nat.mod_eq_of_lt]
    unfold bgdtSize sizeofBgd
    omega
  have off : 512 * (2 * fs.blockSize % 2 ^ 32 / 512) = 2 * sbBlockSize (superblock disk) := by
    rw [table.blockSize]
    omega
  have same := mountTable_congr ran sector (by rw [len, off]; exact read)
  rw [same] at ran'
  cases ran'
  intro x lt
  rw [← loaded x lt, loaded' x (groups ▸ lt), place]

/-- Another byte of the table, but of the first inode table's place, makes another valid image with the
same superblock. -/
theorem ValidImage.change (valid : ValidImage disk image) {a : Nat} (byte : BitVec 8)
    (behind : 1536 ≤ a) (other : a < sbTable (superblock disk) + 8 ∨
      sbTable (superblock disk) + 12 ≤ a) :
    ValidImage (Function.update disk a byte) image ∧
      SameSb (superblock (Function.update disk a byte)) (superblock disk) := by
  have same : SameSb (superblock (Function.update disk a byte)) (superblock disk) := by
    intro i lt
    rw [sizeofSb] at lt
    apply Function.update_of_ne
    simp only [sbStartBytes]
    omega
  obtain ⟨size, place, _⟩ := same.sizes
  have log : sLogBlockSize (superblock (Function.update disk a byte)) =
      sLogBlockSize (superblock disk) := load_sb same (by decide)
  refine ⟨?_, same⟩
  constructor
  case below => exact valid.below
  case log => exact log ▸ valid.log
  case first =>
    rw [log, ← valid.first]
    exact load_sb same (by decide)
  case blocksPerGroup =>
    have count : sBlocksPerGroup (superblock (Function.update disk a byte)) =
        sBlocksPerGroup (superblock disk) := load_sb same (by decide)
    exact count ▸ valid.blocksPerGroup
  case inodesPerGroup =>
    have count : sInodesPerGroup (superblock (Function.update disk a byte)) =
        sInodesPerGroup (superblock disk) := load_sb same (by decide)
    exact count ▸ valid.inodesPerGroup
  case blocks =>
    have count : sBlocksCount (superblock (Function.update disk a byte)) =
        sBlocksCount (superblock disk) := load_sb same (by decide)
    rw [size, count]
    exact valid.blocks
  case root =>
    have pointer : bgInodeTable (Function.update disk a byte) (sbTable (superblock disk)) =
        bgInodeTable disk (sbTable (superblock disk)) := by
      apply load_congr
      intro b low high
      apply Function.update_of_ne
      omega
    rw [rootTable, size, place, pointer]
    exact valid.root

/-- A mount that is right on every image with a superblock leaves no byte of the table unread. -/
theorem MountRight.reads (inv : Served s bs) (valid : ValidImage disk image)
    (ownedSb : ∀ i < sizeofSb, s.Owns (sbBuf + i))
    (ownedIno : ∀ i < 11 * sizeofIno, s.Owns (inoBuf + i)) (sbNotNull : sbBuf ≠ 0)
    (inoNotNull : inoBuf ≠ 0)
    (right : ∀ disk', ValidImage disk' image → SameSb (superblock disk') (superblock disk) →
      MountRight disk' s sbBuf inoBuf)
    {x : Nat} (behind : 1536 ≤ sbTable (superblock disk) + x) (other : x < 8 ∨ 12 ≤ x)
    (inside : x < sbGroups (superblock disk) * sizeofBgd) :
    2 * sbBlockSize (superblock disk) ≤ sbTable (superblock disk) + x ∧
      sbTable (superblock disk) + x < 2 * sbBlockSize (superblock disk) +
        512 * (nsectors (bgdtSize (superblock disk)) % 256) := by
  by_contra out
  obtain ⟨valid', same⟩ := valid.change (a := sbTable (superblock disk) + x)
    (disk (sbTable (superblock disk) + x) + 1) behind (by omega)
  have agree := (right disk valid fun _ _ => rfl).agree inv valid valid' ownedSb ownedIno sbNotNull
    inoNotNull (right _ valid' same) (fun i lt => (same i lt).symm) ?_ ?_ x inside
  · rw [Function.update_self] at agree
    exact byte_ne_succ _ agree.symm
  · intro i lt
    rw [Function.update_of_ne (by omega)]
  · intro i lt
    rw [Function.update_of_ne (by omega)]

/-- **Mounting.** On every image with a valid superblock, as long as the heap's pages are not used up, the
mount loads every group's descriptor and the root, and every group computed for an inode has a descriptor,
exactly when the blocks are of 1 KiB, the whole groups are all groups, they are at most 4080, and there is
one more of them than `s_inodes_count / s_inodes_per_group`. -/
theorem ext2MountRootfs_right_iff (disk : Bytes) (s : Clients) (bs : List Block)
    (sbBuf inoBuf image : Nat) (inv : Served s bs) (valid : ValidImage disk image)
    (ownedSb : ∀ i < sizeofSb, s.Owns (sbBuf + i))
    (ownedIno : ∀ i < 11 * sizeofIno, s.Owns (inoBuf + i)) (sbNotNull : sbBuf ≠ 0)
    (inoNotNull : inoBuf ≠ 0)
    (held : ∀ disk', ValidImage disk' image → SameSb (superblock disk') (superblock disk) →
      ext2MountRootfs disk' s.heap sbBuf inoBuf ≠ .error (.panic "kernel heap exhausted")) :
    (∀ disk', ValidImage disk' image → SameSb (superblock disk') (superblock disk) →
      MountRight disk' s sbBuf inoBuf) ↔ MountGood (superblock disk) := by
  constructor
  · intro right
    have here := right disk valid fun _ _ => rfl
    have some := here.some inv ownedSb sbNotNull
    have reads := @MountRight.reads _ _ _ _ _ _ inv valid ownedSb ownedIno sbNotNull inoNotNull right
    have size : bgdtSize (superblock disk) = bgdtElems (superblock disk) * 32 := rfl
    obtain ⟨least, _, _⟩ := valid.blockSize
    have groups := valid.groups
    have few := valid.few.2
    have count := nsectors_eq (bgdtSize (superblock disk)) (by omega)
    obtain ⟨p, fs, h', _, loaded⟩ := here
    have log : sLogBlockSize (superblock disk) = 0 := by
      by_contra log
      -- the table begins at block 1, and what is read at block 2
      have first : sFirstDataBlock (superblock disk) = 0 := valid.first.trans (if_neg log)
      have place : sbTable (superblock disk) = sbBlockSize (superblock disk) := by
        rw [sbTable, first, Nat.zero_add, Nat.one_mul]
      have large : 2048 ≤ sbBlockSize (superblock disk) := by
        have least : 2 ^ 1 ≤ 2 ^ sLogBlockSize (superblock disk) :=
          Nat.pow_le_pow_right (by decide) (by omega)
        rw [sbBlockSize, Nat.shiftLeft_eq]
        omega
      have := (@reads 0 (by omega) (by omega) (by rw [sizeofBgd]; omega)).1
      omega
    have first : sFirstDataBlock (superblock disk) = 1 := valid.first.trans (if_pos log)
    have place : sbTable (superblock disk) = 2 * sbBlockSize (superblock disk) := by
      rw [sbTable, first]
    constructor
    case log => exact log
    case groups =>
      by_contra more
      have := loaded.room (bgdtElems (superblock disk)) (by omega)
      rw [size, sizeofBgd] at this
      omega
    case sectors =>
      by_contra many
      -- the first byte behind the sectors that the drive is asked for
      have := (@reads (512 * (nsectors (bgdtSize (superblock disk)) % 256)) (by omega) (by omega)
        (by rw [sizeofBgd]; omega)).2
      omega
    case inodes =>
      rcases Nat.eq_zero_or_pos (sInodesCount (superblock disk)) with none | positive
      · rw [none, Nat.zero_div]
        exact some
      · have := loaded.inside _ positive (Nat.le_refl _)
        rw [size, sizeofBgd] at this
        omega
  · intro good disk' valid' same
    have good' : MountGood (superblock disk') := by
      obtain ⟨_, _, groups, elems, _⟩ := same.sizes
      have log : sLogBlockSize (superblock disk') = sLogBlockSize (superblock disk) :=
        load_sb same (by decide)
      have inodes : sInodesCount (superblock disk') = sInodesCount (superblock disk) :=
        load_sb same (by decide)
      have perGroup : sInodesPerGroup (superblock disk') = sInodesPerGroup (superblock disk) :=
        load_sb same (by decide)
      constructor
      case log => exact log.trans good.log
      case groups => rw [groups, elems]; exact good.groups
      case sectors => rw [elems]; exact good.sectors
      case inodes => rw [inodes, perGroup, elems]; exact good.inodes
    exact good'.right inv valid' ownedSb ownedIno sbNotNull inoNotNull (held disk' valid' same)

/-! ## Two small images -/

/-- The small image with one inode less. -/
def oneLess : Bytes := Function.update twoGroups 1024 15

/-- The small image, with a second group that is short. -/
def shortGroup : Bytes := Function.update twoGroups 1028 40

/-- An image of blocks of 1 KiB with a small image's sizes. -/
theorem ValidImage.small {disk : Bytes} (log : sLogBlockSize (superblock disk) = 0)
    (first : sFirstDataBlock (superblock disk) = 1) (perGroup : sBlocksPerGroup (superblock disk) = 32)
    (inodes : sInodesPerGroup (superblock disk) = 8) (blocks : sBlocksCount (superblock disk) ≤ 64)
    (table : bgInodeTable disk 2048 = 5) : ValidImage disk 65536 := by
  have size : sbBlockSize (superblock disk) = 1024 := by
    rw [sbBlockSize, log]
    rfl
  have place : sbTable (superblock disk) = 2048 := by
    rw [sbTable, first, size]
  constructor
  case below => decide
  case log => omega
  case first => rw [first, if_pos log]
  case blocksPerGroup => omega
  case inodesPerGroup => omega
  case blocks => rw [size]; omega
  case root =>
    rw [rootTable, place, table, size]
    decide

theorem oneLess_valid : ValidImage oneLess 65536 := by
  apply ValidImage.small <;> decide

theorem shortGroup_valid : ValidImage shortGroup 65536 := by
  apply ValidImage.small <;> decide

/-- Locals at two places of the first pages. -/
theorem owns_locals (s : Clients) : (∀ i < sizeofSb, s.Owns (4096 + i)) ∧
    ∀ i < 11 * sizeofIno, s.Owns (8192 + i) := by
  constructor
  · intro i lt
    rw [sizeofSb] at lt
    exact owns_below s (by omega)
  · intro i lt
    rw [sizeofIno] at lt
    exact owns_below s (by omega)

/-- With one inode less the mount is right. -/
theorem ext2MountRootfs_right_iff_oneLess : ∃ s : Clients, MountRight oneLess s 4096 8192 := by
  obtain ⟨s, bs, inv, room⟩ := fresh_heap
  have good : MountGood (superblock oneLess) := by
    constructor <;> decide
  obtain ⟨ownedSb, ownedIno⟩ := owns_locals s
  have right := (ext2MountRootfs_right_iff oneLess s bs 4096 8192 65536 inv oneLess_valid ownedSb
    ownedIno (by decide) (by decide) ?_).mpr good
  · exact ⟨s, right oneLess oneLess_valid fun _ _ => rfl⟩
  · intro disk' valid' same exhausted
    obtain ⟨_, _, _, elems, size⟩ := same.sizes
    have two : bgdtElems (superblock oneLess) = 2 := by decide
    have runs := ext2MountRootfs_runs inv valid' (by omega) ownedSb ownedIno (by decide) (by decide)
    have needs : tableNeeds (superblock disk') = 1624 := by
      rw [tableNeeds, size]
      decide
    rw [exhausted, needs] at runs
    rcases runs with ⟨_, full⟩ | ⟨_, done, _⟩
    · exact full (by omega)
    · cases done

/-- With a short group the table has no room for the last descriptor. -/
theorem ext2MountRootfs_shortGroup : ∃ (s : Clients) (bs : List Block) (r : Nat × Ext2Fs × Heap),
    Served s bs ∧ (∀ i < sizeofSb, s.Owns (4096 + i)) ∧ (∀ i < 11 * sizeofIno, s.Owns (8192 + i)) ∧
      ValidImage shortGroup 65536 ∧ ext2MountRootfs shortGroup s.heap 4096 8192 = .ok r ∧
      ¬ MountRight shortGroup s 4096 8192 := by
  obtain ⟨s, bs, inv, room⟩ := fresh_heap
  obtain ⟨ownedSb, ownedIno⟩ := owns_locals s
  have one : bgdtElems (superblock shortGroup) = 1 := by decide
  have two : sbGroups (superblock shortGroup) = 2 := by decide
  have needs : tableNeeds (superblock shortGroup) = 1592 := by decide
  rcases ext2MountRootfs_runs inv shortGroup_valid (by omega) ownedSb ownedIno (by decide) (by decide)
    with ⟨_, full⟩ | ⟨r, done, _⟩
  · exact absurd (by omega) full
  · refine ⟨s, bs, r, inv, ownedSb, ownedIno, shortGroup_valid, done, ?_⟩
    rintro ⟨_, _, _, _, loaded⟩
    have := loaded.room 1 (by omega)
    rw [bgdtSize, one, sizeofBgd] at this
    omega

end Blackcomb.Fs
