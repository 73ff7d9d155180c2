import Blackcomb.Fs.Ext2
import Blackcomb.Laws.Drivers.Ata

/-!
# Where an inode is read

Inode numbers begin at one, and the groups and the places in a group's table at zero.
`ext2_get_inode` takes the group of the number itself and one off the place. For the last inode of a
group that is the next group and the place before its table: another inode's bytes, unless the next
group's table happens to follow directly.

**What it does not establish.** The group descriptors are those in memory. Whether they are the
disk's is `Mount`.
-/

namespace Blackcomb.Fs

open Memory Mm Drivers

variable {disk disk' m : Bytes} {s : Clients} {bs : List Block} {fs : Ext2Fs} {size buf ino g : Nat}

/-- `&fs->bgdt[g]`. -/
def Ext2Fs.bgd (fs : Ext2Fs) (g : Nat) : Nat := fs.bgdt + g * sizeofBgd

/-- Where the descriptors of the groups begin on the disk. -/
def Ext2Fs.bgdtPlace (fs : Ext2Fs) : Nat := (sFirstDataBlock fs.sb + 1) * fs.blockSize

/-- Where the inode table of a group begins on the disk. -/
def Ext2Fs.tablePlace (m : Bytes) (fs : Ext2Fs) (g : Nat) : Nat :=
  bgInodeTable m (fs.bgd g) * fs.blockSize

/-- Where an inode stands on the disk. -/
def inodePlace (m : Bytes) (fs : Ext2Fs) (ino : Nat) : Nat :=
  fs.tablePlace m ((ino - 1) / sInodesPerGroup fs.sb) +
    (ino - 1) % sInodesPerGroup fs.sb * sizeofIno

/-- A group that has inodes. -/
def Ext2Fs.HasInodes (fs : Ext2Fs) (g : Nat) : Prop :=
  g * sInodesPerGroup fs.sb < sInodesCount fs.sb

/-- A mounted file system: the superblock and the group descriptors in memory are those of the disk, and
every inode table lies in the image, behind the superblock and the descriptors. -/
structure Mounted (disk : Bytes) (s : Clients) (fs : Ext2Fs) (size : Nat) : Prop where
  blocks : ∃ k ≤ 6, fs.blockSize = 1024 <<< k
  below : size < 2 ^ 32
  perGroup : 0 < sInodesPerGroup fs.sb
  sb : ∀ i < sizeofSb, fs.sb i = disk (sbStartBytes + i)
  room : ∃ n, (fs.bgdt, n) ∈ s.live ∧ ∀ g, fs.HasInodes g → (g + 1) * sizeofBgd ≤ n
  loaded : ∀ g, fs.HasInodes g → ∀ i < sizeofBgd,
    s.heap.mem (fs.bgd g + i) = disk (fs.bgdtPlace + g * sizeofBgd + i)
  tables : ∀ g, fs.HasInodes g → sbStartBytes + sizeofSb ≤ fs.tablePlace s.heap.mem g ∧
    (∀ g', fs.HasInodes g' → fs.bgdtPlace + (g' + 1) * sizeofBgd ≤ fs.tablePlace s.heap.mem g) ∧
    fs.tablePlace s.heap.mem g + sInodesPerGroup fs.sb * sizeofIno ≤ size

/-- The group of an inode number in range has inodes. -/
theorem hasInodes_group (first : 1 ≤ ino) (last : ino ≤ sInodesCount fs.sb) :
    fs.HasInodes ((ino - 1) / sInodesPerGroup fs.sb) := by
  have := Nat.div_mul_le_self (ino - 1) (sInodesPerGroup fs.sb)
  unfold Ext2Fs.HasInodes
  omega

/-- A block is a whole number of inodes. -/
theorem blockSize_dvd {k : Nat} (size : fs.blockSize = 1024 <<< k) : 1024 ∣ fs.blockSize :=
  ⟨2 ^ k, by rw [size, Nat.shiftLeft_eq]⟩

/-! ## The offset -/

/-- The group of an inode that is not the last of its group, and its place. -/
theorem group_of_not_last {k : Nat} (pos : 0 < k) (first : 1 ≤ ino) (not : ¬ k ∣ ino) :
    ino / k = (ino - 1) / k ∧ ino % k = (ino - 1) % k + 1 := by
  have split := Nat.div_add_mod ino k
  have rest : ino % k ≠ 0 := fun zero => not (Nat.dvd_of_mod_eq_zero zero)
  have lt := Nat.mod_lt ino pos
  have before : ino - 1 = k * (ino / k) + (ino % k - 1) := by omega
  have less : ino % k - 1 < k := by omega
  have quot : (ino - 1) / k = ino / k := by
    rw [before, Nat.mul_add_div pos, Nat.div_eq_of_lt less, Nat.add_zero]
  have rem : (ino - 1) % k = ino % k - 1 := by
    rw [before, Nat.mul_add_mod, Nat.mod_eq_of_lt less]
  omega

/-- The group of the last inode of a group, and its place. -/
theorem group_of_last {k : Nat} (pos : 0 < k) (first : 1 ≤ ino) (last : k ∣ ino) :
    (ino - 1) / k + 1 = ino / k ∧ ino % k = 0 ∧ (ino - 1) % k = k - 1 := by
  obtain ⟨q, rfl⟩ := last
  obtain ⟨q, rfl⟩ : ∃ r, q = r + 1 := ⟨q - 1, by
    have : q ≠ 0 := by
      rintro rfl
      omega
    omega⟩
  have before : k * (q + 1) - 1 = k * q + (k - 1) := by
    rw [Nat.mul_succ]
    omega
  have less : k - 1 < k := by omega
  refine ⟨?_, Nat.mul_mod_right k (q + 1), ?_⟩
  · rw [before, Nat.mul_add_div pos, Nat.div_eq_of_lt less, Nat.mul_div_cancel_left _ pos]
  · rw [before, Nat.mul_add_mod, Nat.mod_eq_of_lt less]

/-- The offset as the table's place, less or more. -/
theorem inodeOff_eq (m : Bytes) (fs : Ext2Fs) (ino : Nat) : (inodeOff m fs ino : Int) =
    ((fs.tablePlace m (ino / sInodesPerGroup fs.sb) : Int) +
      (((ino % sInodesPerGroup fs.sb : Nat) : Int) - 1) * 128) % 2 ^ 32 := by
  unfold inodeOff uint32 Ext2Fs.tablePlace Ext2Fs.bgd
  rw [Int.natCast_mul]
  simp only [sizeofIno]
  omega

/-- The offset of an inode is where an inode may begin. -/
theorem inodeOff_aligned (m : Bytes) (ino : Nat) (blocks : 1024 ∣ fs.blockSize) :
    inodeOff m fs ino % 128 = 0 := by
  obtain ⟨c, size⟩ := blocks
  have off := inodeOff_eq m fs ino
  have table : fs.tablePlace m (ino / sInodesPerGroup fs.sb) =
      1024 * (bgInodeTable m (fs.bgd (ino / sInodesPerGroup fs.sb)) * c) := by
    rw [Ext2Fs.tablePlace, size, Nat.mul_left_comm]
  omega

/-- The code reads an inode where it stands when it is not the last of its group, or when the next
group's table follows directly. -/
theorem inodeOff_eq_iff (mounted : Mounted disk s fs size) (first : 1 ≤ ino)
    (last : ino ≤ sInodesCount fs.sb) : inodeOff s.heap.mem fs ino = inodePlace s.heap.mem fs ino ↔
      (¬ sInodesPerGroup fs.sb ∣ ino ∨
        fs.tablePlace s.heap.mem (ino / sInodesPerGroup fs.sb) % 2 ^ 32 =
          fs.tablePlace s.heap.mem ((ino - 1) / sInodesPerGroup fs.sb) +
            sInodesPerGroup fs.sb * sizeofIno) := by
  have pos := mounted.perGroup
  have has := hasInodes_group first last
  have high := (mounted.tables _ has).2.2
  have below := mounted.below
  have place := Nat.mod_lt (ino - 1) pos
  have off := inodeOff_eq s.heap.mem fs ino
  unfold inodePlace
  simp only [sizeofIno] at high ⊢
  by_cases divides : sInodesPerGroup fs.sb ∣ ino
  · obtain ⟨_, rest, before⟩ := group_of_last pos first divides
    rw [rest] at off
    rw [before]
    simp only [divides, not_true, false_or]
    omega
  · obtain ⟨same, rest⟩ := group_of_not_last pos first divides
    rw [rest, same] at off
    simp only [divides, not_false_eq_true, true_or, iff_true]
    omega

/-! ## The read -/

/-- `ext2_get_inode` reads 128 bytes at the offset it computes. -/
theorem ext2GetInode_serves (disk : Bytes) (ino : Nat) (inv : Served s bs) (blocks : 1024 ∣ fs.blockSize)
    (perGroup : 0 < sInodesPerGroup fs.sb) (owned : ∀ i < sizeofIno, s.Owns (buf + i))
    (notNull : buf ≠ 0) : Serves (Room s bs 512) (ext2GetInode disk s.heap fs buf ino)
      (ReadBytes disk s bs buf (inodeOff s.heap.mem fs ino) sizeofIno) := by
  have aligned := inodeOff_aligned s.heap.mem ino blocks
  have one : 512 * nsectors sizeofIno = 512 := by decide
  have served := ataReadBytes_serves disk (inodeOff s.heap.mem fs ino) inv owned
    notNull (by decide) (by decide) (by rw [one, sizeofIno]; omega)
  rw [one] at served
  unfold ext2GetInode
  rw [if_neg (by omega)]
  exact served

/-- The bytes of an inode lie in one sector, so all of them are the disk's. -/
theorem readIno_bytes {off : Nat} {h' : Heap}
    (read : ReadBytes disk s bs buf off sizeofIno h') (aligned : off % 128 = 0) :
    ∀ i < sizeofIno, h'.mem (buf + i) = disk (off + i) := by
  intro i lt
  have one : nsectors sizeofIno % 256 = 1 := by decide
  apply read.bytes i lt
  rw [one]
  rw [sizeofIno] at lt
  omega

/-- What is promised of `ext2_get_inode`: it returns, and the buffer holds the 128 bytes of the
inode. -/
def InodeRight (disk : Bytes) (s : Clients) (fs : Ext2Fs) (buf ino : Nat) : Prop :=
  ∃ h', ext2GetInode disk s.heap fs buf ino = .ok h' ∧
    ∀ i < sizeofIno, h'.mem (buf + i) = disk (inodePlace s.heap.mem fs ino + i)

/-- Another byte in an inode makes another image of the same file system. -/
theorem Mounted.change (mounted : Mounted disk s fs size) (has : fs.HasInodes g) {a : Nat}
    (inside : fs.tablePlace s.heap.mem g ≤ a) (byte : BitVec 8) :
    Mounted (Function.update disk a byte) s fs size where
  blocks := mounted.blocks
  below := mounted.below
  perGroup := mounted.perGroup
  room := mounted.room
  tables := mounted.tables
  sb := by
    intro i lt
    have := (mounted.tables g has).1
    rw [Function.update_of_ne (by omega)]
    exact mounted.sb i lt
  loaded := by
    intro g' has' i lt
    have := (mounted.tables g has).2.1 g' has'
    rw [Function.update_of_ne (by rw [Nat.add_mul] at this; omega)]
    exact mounted.loaded g' has' i lt

/-- **Inodes.** On every image of a mounted file system, `ext2_get_inode` fills the buffer with the bytes
of the inode exactly when the heap has room for a sector, and the number is not a multiple of
`s_inodes_per_group` or the next group's inode table begins where this group's ends. -/
theorem ext2GetInode_right_iff (disk : Bytes) (s : Clients) (bs : List Block) (fs : Ext2Fs)
    (size buf ino : Nat) (inv : Served s bs) (mounted : Mounted disk s fs size)
    (owned : ∀ i < sizeofIno, s.Owns (buf + i)) (notNull : buf ≠ 0) (first : 1 ≤ ino)
    (last : ino ≤ sInodesCount fs.sb) :
    (∀ disk', Mounted disk' s fs size → InodeRight disk' s fs buf ino) ↔
      Room s bs 512 ∧ (¬ sInodesPerGroup fs.sb ∣ ino ∨
        fs.tablePlace s.heap.mem (ino / sInodesPerGroup fs.sb) % 2 ^ 32 =
          fs.tablePlace s.heap.mem ((ino - 1) / sInodesPerGroup fs.sb) +
            sInodesPerGroup fs.sb * sizeofIno) := by
  obtain ⟨k, _, blocks⟩ := mounted.blocks
  have multiple := blockSize_dvd blocks
  have aligned := inodeOff_aligned s.heap.mem ino multiple
  rw [← inodeOff_eq_iff mounted first last]
  constructor
  · intro right
    constructor
    · obtain ⟨h', done, _⟩ := right disk mounted
      unfold ext2GetInode at done
      rw [if_neg (Nat.ne_of_gt mounted.perGroup)] at done
      exact ataReadBytes_room inv (by decide) (by decide) done
    · by_contra other
      -- the image with another first byte in the inode is read no differently
      have has := hasInodes_group first last
      have byte : ∀ d, Mounted d s fs size →
          d (inodeOff s.heap.mem fs ino) = d (inodePlace s.heap.mem fs ino) := by
        intro d mountedD
        obtain ⟨h', done, filled⟩ := right d mountedD
        have served := ext2GetInode_serves d ino inv multiple mounted.perGroup
          owned notNull
        rw [done] at served
        obtain ⟨h'', same, read⟩ := served.run (by simp [heapExhausted])
        obtain rfl := Except.ok.inj same
        exact (readIno_bytes read aligned 0 (by decide)).symm.trans (filled 0 (by decide))
      have inside : fs.tablePlace s.heap.mem ((ino - 1) / sInodesPerGroup fs.sb) ≤
          inodePlace s.heap.mem fs ino := Nat.le_add_right _ _
      have there := byte _ (mounted.change has inside (disk (inodePlace s.heap.mem fs ino) + 1))
      rw [Function.update_of_ne other, Function.update_self, byte disk mounted] at there
      revert there
      generalize disk (inodePlace s.heap.mem fs ino) = x
      revert x
      decide
  · rintro ⟨room, place⟩ disk' mounted'
    have served := ext2GetInode_serves disk' ino inv multiple mounted.perGroup
      owned notNull
    rcases served with ⟨_, full⟩ | ⟨h', done, read⟩
    · exact absurd room full
    · refine ⟨h', done, ?_⟩
      rw [← place]
      exact readIno_bytes read aligned

/-! ## A small file system -/

/-- The bytes of a small image that are not zero: the superblock, two group descriptors, the inodes 2, 3
and 8, the file's block and the root directory's. -/
def twoGroupsBytes : List (Nat × BitVec 8) :=
  [(1024, 16), (1028, 64), (1044, 1), (1056, 32), (1064, 8),
    (2056, 5), (2088, 40),
    (5252, 0), (5253, 4), (5276, 2), (5288, 46),
    (5380, 2), (5404, 2), (5416, 45),
    (6016, 1),
    (46080, 104), (46081, 105),
    (47104, 2), (47108, 12), (47110, 1), (47111, 2), (47112, 46),
    (47116, 2), (47120, 12), (47122, 2), (47123, 2), (47124, 46), (47125, 46),
    (47128, 3), (47132, 12), (47134, 1), (47135, 1), (47136, 97),
    (47140, 4), (47144, 220), (47145, 3), (47146, 2), (47147, 1), (47148, 97), (47149, 98)]

/-- An image of 64 KiB with blocks of 1 KiB and two groups of eight inodes, whose tables begin at blocks 5
and 40. -/
def twoGroups : Bytes := fun a => (twoGroupsBytes.lookup a).getD 0

/-- It is mounted, with its descriptors at `p`. -/
def twoGroupsFs (p : Nat) : Ext2Fs where
  blockSize := 1024
  sb := fun i => twoGroups (1024 + i)
  rooti := fun i => twoGroups (5248 + i)
  bgdt := p

theorem twoGroups_perGroup (p : Nat) : sInodesPerGroup (twoGroupsFs p).sb = 8 := by
  show load (fun i => twoGroups (1024 + i)) 40 4 = 8
  decide

theorem twoGroups_count (p : Nat) : sInodesCount (twoGroupsFs p).sb = 16 := by
  show load (fun i => twoGroups (1024 + i)) 0 4 = 16
  decide

theorem twoGroups_bgdtPlace (p : Nat) : (twoGroupsFs p).bgdtPlace = 2048 := by
  show (load (fun i => twoGroups (1024 + i)) 20 4 + 1) * 1024 = 2048
  decide

/-- The addresses of a page low in memory are no heap's. -/
theorem owns_low (s : Clients) : ∀ i < sizeofIno, s.Owns (4096 + i) := by
  intro i lt
  refine .inr (.inl ?_)
  rw [sizeofIno] at lt
  rw [kernelBrkStart]
  omega

/-- The small file system in the heap, where nothing else is live. -/
theorem twoGroups_mounted : ∃ (s : Clients) (bs : List Block) (p : Nat), Served s bs ∧
    s.heap.kernelBrk + 65536 < kernelBrkStart + heapBytes ∧ s.live = [(p, 64)] ∧
    Mounted twoGroups s (twoGroupsFs p) 65536 ∧
    bgInodeTable s.heap.mem p = 5 ∧ bgInodeTable s.heap.mem (p + 32) = 40 := by
  obtain ⟨h₀, init, _⟩ := kmallocInit_spec fun _ => 0
  have started := Served.start init
  have brk : h₀.kernelBrk = kernelBrkStart + initHeapSize := started.rep.tiles.2.2.symm
  have room : Room ⟨h₀, []⟩ [⟨kernelBrkStart, initHeapSize - sizeofBlock, false⟩] 64 :=
    .inl ⟨_, List.mem_singleton_self _, rfl, .inr (by decide)⟩
  rcases started.serves_kmalloc (n := 64) (by decide) (by decide) with
    ⟨_, full⟩ | ⟨⟨p, h₁⟩, _, allotted⟩
  · exact absurd room full
  obtain ⟨bs, inv⟩ := allotted.served
  dsimp only at inv
  have grown := allotted.brk
  dsimp only at grown
  let m := memcpyFrom h₁.mem p (fun i => twoGroups (2048 + i)) 64
  have copied : ∀ i < 64, m (p + i) = twoGroups (2048 + i) := by
    intro i lt
    show memcpyFrom _ _ _ _ _ = _
    rw [memcpyFrom_apply, if_pos (by omega), Nat.add_sub_cancel_left]
  have inv' : Served ⟨{ h₁ with mem := m }, [(p, 64)]⟩ bs := by
    apply inv.rewrite
    intro a not
    show memcpyFrom _ _ _ _ _ = _
    apply memcpyFrom_outside
    by_contra inside
    exact not (.inl ⟨_, List.mem_cons_self, by simp only; omega, by simp only; omega⟩)
  have table : ∀ g < 2, bgInodeTable m (p + g * 32) = load twoGroups (2048 + g * 32 + 8) 4 := by
    intro g lt
    apply load_shift
    intro i small
    have := copied (g * 32 + 8 + i) (by omega)
    simpa only [Nat.add_assoc] using this
  have first : bgInodeTable m p = 5 := table 0 (by decide)
  have second : bgInodeTable m (p + 32) = 40 := table 1 (by decide)
  have perGroup := twoGroups_perGroup p
  have count := twoGroups_count p
  have groups : ∀ g, (twoGroupsFs p).HasInodes g → g < 2 := by
    intro g has
    rw [Ext2Fs.HasInodes, perGroup, count] at has
    omega
  have place : ∀ g < 2, (twoGroupsFs p).tablePlace m g = 5120 + g * 35840 := by
    intro g lt
    have read : (twoGroupsFs p).tablePlace m g = load twoGroups (2048 + g * 32 + 8) 4 * 1024 :=
      congrArg (· * 1024) (table g lt)
    rw [read]
    obtain rfl | rfl : g = 0 ∨ g = 1 := by omega
    · decide
    · decide
  refine ⟨⟨{ h₁ with mem := m }, [(p, 64)]⟩, bs, p, inv', ?_, rfl, ?_, first, second⟩
  · show h₁.kernelBrk + 65536 < _
    simp only [kernelBrkStart, initHeapSize, heapBytes, kernelBrkPages, pageSize] at brk grown ⊢
    omega
  constructor
  case blocks => exact ⟨0, by decide, rfl⟩
  case below => decide
  case perGroup => exact perGroup ▸ (by decide)
  case sb => exact fun _ _ => rfl
  case room =>
    refine ⟨64, List.mem_singleton_self _, ?_⟩
    intro g has
    have := groups g has
    simp only [sizeofBgd]
    omega
  case loaded =>
    intro g has i lt
    have := groups g has
    rw [sizeofBgd] at lt
    have same := copied (g * 32 + i) (by omega)
    rw [twoGroups_bgdtPlace, Ext2Fs.bgd, sizeofBgd, Nat.add_assoc, Nat.add_assoc]
    exact same
  case tables =>
    have start := twoGroups_bgdtPlace p
    intro g has
    have here := place g (groups g has)
    simp only [here, perGroup, start, sbStartBytes, sizeofSb, sizeofBgd, sizeofIno]
    have := groups g has
    refine ⟨by omega, ?_, by omega⟩
    intro g' has'
    have := groups g' has'
    omega

/-- The first inode of the second group is read from where it stands. -/
theorem ext2GetInode_right_iff_first_of_group : ∃ (s : Clients) (p : Nat),
    Mounted twoGroups s (twoGroupsFs p) 65536 ∧ InodeRight twoGroups s (twoGroupsFs p) 4096 9 := by
  obtain ⟨s, bs, p, inv, room, _, mounted, _, _⟩ := twoGroups_mounted
  have perGroup := twoGroups_perGroup p
  have count := twoGroups_count p
  have right := (ext2GetInode_right_iff twoGroups s bs (twoGroupsFs p) 65536 4096 9 inv mounted
    (owns_low s) (by decide) (by decide) (by rw [count]; decide)).mpr
      ⟨.inr (by omega), .inl (by rw [perGroup]; decide)⟩
  exact ⟨s, p, mounted, right twoGroups mounted⟩

/-- The last inode of the first group is not: the bytes before the second group's table are. -/
theorem ext2GetInode_last_of_group : ∃ (s : Clients) (bs : List Block) (p : Nat), Served s bs ∧
    Room s bs 512 ∧ Mounted twoGroups s (twoGroupsFs p) 65536 ∧
    8 ≤ sInodesCount (twoGroupsFs p).sb ∧ (∀ i < sizeofIno, s.Owns (4096 + i)) ∧
    ¬ InodeRight twoGroups s (twoGroupsFs p) 4096 8 := by
  obtain ⟨s, bs, p, inv, room, _, mounted, first, second⟩ := twoGroups_mounted
  have perGroup := twoGroups_perGroup p
  have count := twoGroups_count p
  refine ⟨s, bs, p, inv, .inr (by omega), mounted, by rw [count]; decide, owns_low s, ?_⟩
  rintro ⟨h', done, filled⟩
  have multiple : 1024 ∣ (twoGroupsFs p).blockSize := ⟨1, rfl⟩
  have off : inodeOff s.heap.mem (twoGroupsFs p) 8 = 40832 := by
    have eq := inodeOff_eq s.heap.mem (twoGroupsFs p) 8
    have table : (twoGroupsFs p).tablePlace s.heap.mem 1 = 40960 := congrArg (· * 1024) second
    rw [perGroup, table] at eq
    omega
  have place : inodePlace s.heap.mem (twoGroupsFs p) 8 = 6016 := by
    have table : (twoGroupsFs p).tablePlace s.heap.mem 0 = 5120 := congrArg (· * 1024) first
    rw [inodePlace, perGroup, table]
    rfl
  have served := ext2GetInode_serves twoGroups 8 inv multiple mounted.perGroup
    (owns_low s) (by decide)
  rw [done] at served
  obtain ⟨h'', same, read⟩ := served.run (by simp [heapExhausted])
  obtain rfl := Except.ok.inj same
  have byte := (readIno_bytes read (inodeOff_aligned _ _ multiple) 0 (by decide)).symm.trans
    (filled 0 (by decide))
  rw [off, place] at byte
  exact absurd byte (by decide)

end Blackcomb.Fs
