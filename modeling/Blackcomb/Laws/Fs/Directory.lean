import Blackcomb.Laws.Fs.Listing
import Blackcomb.Laws.Fs.Accesses

/-!
# All blocks of a directory

A directory is as many blocks as its inode's size says, and the pointers of the inode lead to them. A lookup
and a listing both read the first of them only. So an entry behind it is not found, unless a record of the
first block is mistaken for it, and not listed (`BlockDir.lookup`, `ListedAll.appears_iff`).

**What it does not establish.** A directory is well formed here: its records tile each of its
blocks. On any other, `Accesses` says what a lookup may touch and `Rounds` what a listing does.
-/

namespace Blackcomb.Fs

open Memory Mm Drivers Walk

variable {disk node b buf path : Bytes} {fs : Ext2Fs} {s : Clients} {bs : List Block} {h : Heap}
  {dirbuf inBuf image start us n stop x : Nat} {os : List Nat}

/-! ## The blocks -/

/-- The block of the disk at the end of a path through blocks of pointers. -/
def followed (disk : Bytes) (fs : Ext2Fs) : Nat → List Nat → Nat
  | place, [] => place
  | place, i :: path => followed disk fs (load disk (place * fs.blockSize + 4 * i) 4) path

/-- The block of the disk that is a logical block of an inode. -/
def blockPlace (disk : Bytes) (fs : Ext2Fs) (node : Bytes) (blk : Nat) : Nat :=
  followed disk fs (iBlock node 0 ((ext2Path fs.ptrs blk).headD 0)) (ext2Path fs.ptrs blk).tail

/-- Where a file's pointers are direct and single indirect, it is the file's. -/
theorem blockPlace_eq {blk : Nat} (lt : blk < 12 + fs.ptrs) :
    blockPlace disk fs node blk = fileBlock disk node fs blk := by
  unfold blockPlace ext2Path fileBlock
  by_cases direct : blk < 12
  · rw [if_pos direct, if_pos direct]
    rfl
  · rw [if_neg direct, if_pos lt, if_neg direct]
    rfl

/-- A logical block of a directory. -/
def dirBlockAt (disk : Bytes) (fs : Ext2Fs) (node : Bytes) (blk : Nat) : Bytes :=
  fun i => disk (blockPlace disk fs node blk * fs.blockSize + i)

/-- Where a record of a directory stands: its logical block, and its offset there. -/
structure RecordPlace where
  blk : Nat
  off : Nat

/-- A record of a directory stands there. -/
def IsRecord (disk : Bytes) (fs : Ext2Fs) (node : Bytes) (e : RecordPlace) : Prop :=
  e.blk < fileBlocks node fs ∧ e.off ∈ records (dirBlockAt disk fs node e.blk) fs.blockSize

/-- A live entry of a directory stands there. -/
def IsEntry (disk : Bytes) (fs : Ext2Fs) (node : Bytes) (e : RecordPlace) : Prop :=
  IsRecord disk fs node e ∧ Live (dirBlockAt disk fs node e.blk) e.off

/-- The inode of an entry. -/
def entryIno (disk : Bytes) (fs : Ext2Fs) (node : Bytes) (e : RecordPlace) : Nat :=
  (ext2DirentAt (dirBlockAt disk fs node e.blk) e.off).inode

/-- The name of an entry. -/
def entryName (disk : Bytes) (fs : Ext2Fs) (node : Bytes) (e : RecordPlace) : List (BitVec 8) :=
  recName (dirBlockAt disk fs node e.blk) e.off

/-- A directory of any number of blocks in the image, whose entries have distinct names. -/
structure BlockDir (disk : Bytes) (fs : Ext2Fs) (image : Nat) (node : Bytes) : Prop where
  inside : ∀ blk < fileBlocks node fs, (blockPlace disk fs node blk + 1) * fs.blockSize ≤ image
  block : ∀ blk < fileBlocks node fs, DirBlock (dirBlockAt disk fs node blk) fs.blockSize
  named : ∀ e, IsEntry disk fs node e → Component (entryName disk fs node e)
  distinct : ∀ e e', IsEntry disk fs node e → IsEntry disk fs node e' →
    entryName disk fs node e = entryName disk fs node e' → e = e'

/-- Another entry's name is a proper prefix of the entry's. -/
def HasPrefix (disk : Bytes) (fs : Ext2Fs) (node : Bytes) (e : RecordPlace) : Prop :=
  ∃ e', IsEntry disk fs node e' ∧ entryName disk fs node e' <+: entryName disk fs node e ∧
    entryName disk fs node e' ≠ entryName disk fs node e

/-- No record of the directory is unused. -/
def AllUsed (disk : Bytes) (fs : Ext2Fs) (node : Bytes) : Prop :=
  ∀ e, IsRecord disk fs node e → Live (dirBlockAt disk fs node e.blk) e.off

/-! ## Looking up -/

/-- In the first block are the entries of the first block. -/
theorem BlockDir.lookup {e : RecordPlace} (dir : BlockDir disk fs image node)
    (entry : IsEntry disk fs node e) :
    lookupIn disk fs node (entryName disk fs node e) =
      if e.blk = 0 then some (entryIno disk fs node e) else none := by
  obtain ⟨⟨lt, mem⟩, live⟩ := entry
  cases found : (records (dirBlock disk fs node) fs.blockSize).find? fun o =>
      decide (Live (dirBlock disk fs node) o ∧
        recName (dirBlock disk fs node) o = entryName disk fs node e) with
  | none =>
    have other : e.blk ≠ 0 := by
      intro first
      rw [first] at mem live
      have here : recName (dirBlock disk fs node) e.off = entryName disk fs node e := by
        rw [entryName, first]
        rfl
      exact List.find?_eq_none.mp found e.off mem (decide_eq_true ⟨live, here⟩)
    rw [if_neg other, lookupIn, dirLookup, found, Option.map_none]
  | some o =>
    have taken := List.find?_some found
    have same : Live (dirBlock disk fs node) o ∧
        recName (dirBlock disk fs node) o = entryName disk fs node e := of_decide_eq_true taken
    have here : IsEntry disk fs node ⟨0, o⟩ :=
      ⟨⟨Nat.zero_lt_of_lt lt, List.mem_of_find?_eq_some found⟩, same.1⟩
    obtain rfl := dir.distinct _ e here ⟨⟨lt, mem⟩, live⟩ same.2
    rw [if_pos rfl, lookupIn, dirLookup, found]
    rfl

/-- Without another entry's name as a prefix, no record is mistaken for an entry. -/
theorem BlockDir.noMistake {e : RecordPlace} (entry : IsEntry disk fs node e)
    (alone : ¬ HasPrefix disk fs node e) :
    NoMistake (dirBlock disk fs node) fs.blockSize (entryName disk fs node e) := by
  intro xs o ys split live doubt _
  have lt : 0 < fileBlocks node fs := Nat.zero_lt_of_lt entry.1.1
  have here : IsEntry disk fs node ⟨0, o⟩ := ⟨⟨lt, mem_records_of_split split (.inr rfl)⟩, live⟩
  refine absurd ⟨⟨0, o⟩, here, ?_⟩ alone
  rcases doubt with mistaken | cut
  · exact ⟨mistaken.1, mistaken.2.1⟩
  · exact ⟨cut.1, cut.2.1⟩

/-- The call with a name behind the path so far is a round at the offset that the walk has come to. -/
theorem NameiAt.lookup {comp : List (BitVec 8)} {h₀ : Heap}
    (at' : NameiAt disk h₀ fs path dirbuf inBuf start h) (opened : start = 1 ∨ path (start - 1) = slash)
    (valid : Component comp) : ext2Namei disk h₀ fs (bytesAt path 0 start ++ comp) =
      nameiRound disk fs dirbuf inBuf comp h >>= fun r =>
        .ok (r.1, Mm.free (Mm.free r.2 dirbuf) inBuf) := by
  obtain ⟨ino, rounds⟩ := at'.namei_eq
  have filled := List.ne_nil_of_length_pos valid.pos
  rw [rounds comp (opened.imp_right .inl),
    nameiComps_next valid.noSlash valid.short (.inl ⟨rfl, rfl, filled⟩)]
  cases nameiRound disk fs dirbuf inBuf comp h with
  | error e => rfl
  | ok r => rfl

/-- **Looking up an entry.** With room for the directory's block, an entry whose name has no other's as a
prefix is found exactly when it stands in the first block. -/
theorem BlockDir.found_iff {e : RecordPlace} (dir : BlockDir disk fs image node) (inv : Served s bs)
    (mounted : Mounted disk s fs image) (at' : NameiAt disk s.heap fs path dirbuf inBuf start h)
    (opened : start = 1 ∨ path (start - 1) = slash) (holds : HoldsIno h.mem node inBuf)
    (room : h.kernelBrk + 32 + fs.blockSize < kernelBrkStart + heapBytes)
    (entry : IsEntry disk fs node e) (alone : ¬ HasPrefix disk fs node e) :
    (∃ h', ext2Namei disk s.heap fs (bytesAt path 0 start ++ entryName disk fs node e) =
      .ok (entryIno disk fs node e, h')) ↔ e.blk = 0 := by
  obtain ⟨k, small, blocks⟩ := mounted.blocks
  obtain ⟨buffers, _, walking⟩ := at'.walking inv small blocks mounted.perGroup
  have here : Walking s fs dirbuf inBuf node h := ⟨walking.served, holds, walking.kept⟩
  have valid := dir.named e entry
  have filled : 0 < fileBlocks node fs := Nat.zero_lt_of_lt entry.1.1
  rw [at'.lookup opened valid]
  rcases nameiRound_cases here buffers mounted (dir.inside 0 filled) (dir.block 0 filled) valid with
    ⟨_, full⟩ | ⟨found, taken, result⟩
  · exact absurd room full
  have right := (taken.eq (BlockDir.noMistake entry alone)).trans (dir.lookup entry)
  by_cases first : e.blk = 0
  · rw [if_pos first] at right
    rcases result with ⟨missing, _⟩ | ⟨ino, h', _, got, ran, _⟩
    · cases missing.symm.trans right
    · obtain rfl := Option.some.inj (got.symm.trans right)
      rw [ran]
      exact ⟨fun _ => first, fun _ => ⟨_, rfl⟩⟩
  · rw [if_neg first] at right
    rcases result with ⟨_, ran⟩ | ⟨_, _, _, got, _⟩
    · rw [ran]
      refine ⟨?_, fun zero => absurd zero first⟩
      rintro ⟨_, failed⟩
      cases failed
    · cases got.symm.trans right

/-! ## Listing -/

/-- A listing of `n` bytes tells of an entry: following the lengths of its records one comes to the entry's,
with its inode and its name. -/
def Appears (buf : Bytes) (n : Nat) (entry : Entry) : Prop :=
  ∃ us, Visits (fun us => us + load buf (us + 4) 4) (· < n) 0 us ∧ us < n ∧ load buf us 4 = entry.1 ∧
    load buf (us + 4) 4 = sizeofDirent + entry.2.length + 1 ∧
    bytesAt buf (us + sizeofDirent) entry.2.length = entry.2

/-- Following the lengths in a listing, one is always at a record of the block. -/
theorem ListedAll.visited (listed : ListedAll b buf us os stop)
    (visits : Visits (fun us => us + load buf (us + 4) 4) (· < stop) us x) (lt : x < stop) :
    ∃ o ∈ os, ListedAt b buf x o := by
  induction os generalizing us with
  | nil =>
    obtain rfl : us = stop := listed
    rcases visits_iff.mp visits with rfl | ⟨more, _⟩
    · omega
    · exact absurd more (Nat.lt_irrefl us)
  | cons o os ih =>
    obtain ⟨here, listed⟩ := listed
    rcases visits_iff.mp visits with rfl | ⟨_, later⟩
    · exact ⟨o, List.mem_cons_self, here⟩
    · rw [here.recLen] at later
      obtain ⟨o', mem, there⟩ := ih listed later
      exact ⟨o', List.mem_cons_of_mem o mem, there⟩

/-- And one comes to every one of them. -/
theorem ListedAll.visits (listed : ListedAll b buf us os stop) {o : Nat} (mem : o ∈ os) :
    ∃ x, Visits (fun us => us + load buf (us + 4) 4) (· < stop) us x ∧ x < stop ∧ ListedAt b buf x o := by
  induction os generalizing us with
  | nil => cases mem
  | cons o' os ih =>
    obtain ⟨here, listed⟩ := listed
    have le := listed.le
    have len := listLen_eq b o'
    have lt : us < stop := by omega
    rcases List.mem_cons.mp mem with rfl | mem
    · exact ⟨us, .start, lt, here⟩
    · obtain ⟨x, visits, less, there⟩ := ih listed mem
      rw [← here.recLen] at visits
      exact ⟨x, visits.head lt, less, there⟩

/-- A name without a NUL is copied whole. -/
theorem ListedAt.name_eq {o : Nat} (listed : ListedAt b buf us o) (noNul : (0 : BitVec 8) ∉ recName b o) :
    bytesAt buf (us + sizeofDirent) (ext2DirentAt b o).nameLen = recName b o := by
  have whole := mt nul_mem_iff.mpr noNul
  apply List.map_congr_left
  intro i mem
  have lt := List.mem_range.mp mem
  exact listed.name i (by unfold copied; omega)

/-- **The listing of a block.** An entry with a name that is no other's appears in it exactly when it is one
of the block's. -/
theorem ListedAll.appears_iff (entry : Entry) (listed : ListedAll b buf 0 (records b stop) n)
    (noNul : ∀ o ∈ records b stop, (0 : BitVec 8) ∉ recName b o) :
    Appears buf n entry ↔ ∃ o ∈ records b stop, entry = ((ext2DirentAt b o).inode, recName b o) := by
  constructor
  · rintro ⟨us, visits, lt, ino, len, name⟩
    obtain ⟨o, mem, here⟩ := listed.visited visits lt
    have same : entry.2.length = (ext2DirentAt b o).nameLen := by
      have len := len.symm.trans here.recLen
      rw [listLen] at len
      omega
    refine ⟨o, mem, Prod.ext (ino.symm.trans here.ino) ?_⟩
    rw [← here.name_eq (noNul o mem), ← same]
    exact name.symm
  · rintro ⟨o, mem, rfl⟩
    obtain ⟨us, visits, lt, here⟩ := listed.visits mem
    refine ⟨us, visits, lt, here.ino, ?_, ?_⟩
    · rw [here.recLen, listLen, recName_length]
    · rw [recName_length]
      exact here.name_eq (noNul o mem)

/-- A record of a copy of the block is the block's. -/
theorem ListedAt.copy {b' : Bytes} {o : Nat} (listed : ListedAt b' buf us o) (same : ∀ i < stop, b' i = b i)
    (header : ext2DirentAt b' o = ext2DirentAt b o) (inside : o + 8 + (ext2DirentAt b o).nameLen ≤ stop) :
    ListedAt b buf us o := by
  have count : copied b' o = copied b o := copied_copy same header inside
  have few : copied b o ≤ (ext2DirentAt b o).nameLen := Nat.min_le_right _ _
  refine ⟨?_, ?_, fun i lt => ?_⟩
  · rw [listed.ino, header]
  · rw [listed.recLen, listLen, listLen, header]
  · rw [listed.name i (count.symm ▸ lt)]
    exact same _ (by omega)

theorem ListedAll.copy {b' : Bytes} (listed : ListedAll b' buf us os n) (same : ∀ i < stop, b' i = b i)
    (header : ∀ o ∈ os, ext2DirentAt b' o = ext2DirentAt b o)
    (inside : ∀ o ∈ os, o + 8 + (ext2DirentAt b o).nameLen ≤ stop) : ListedAll b buf us os n := by
  induction os generalizing us with
  | nil => exact listed
  | cons o os ih =>
    obtain ⟨here, listed⟩ := listed
    have first := header o List.mem_cons_self
    have len : listLen b' o = listLen b o := by rw [listLen, listLen, first]
    exact ⟨here.copy same first (inside o List.mem_cons_self),
      ih (len ▸ listed) (fun o mem => header o (List.mem_cons_of_mem _ mem))
        fun o mem => inside o (List.mem_cons_of_mem _ mem)⟩

/-- A block of records in use is listed, from where it has been read to. -/
theorem DirBlock.listed {m : Bytes} {data : Nat} (block : DirBlock b stop)
    (bytes : ∀ i < stop, viewAt m data i = b i) (used : ∀ o ∈ records b stop, Live b o)
    (word : stop ≤ 2 ^ 20) (buf : Bytes) : ∃ n buf',
    getdentsLoop m data stop stop 0 0 buf = .ok (n, buf') ∧ ListedAll b buf' 0 (records b stop) n := by
  obtain ⟨list, header⟩ := block.copy bytes
  obtain ⟨n, buf', looped⟩ : ∃ n buf', getdentsLoop m data stop stop 0 0 buf = .ok (n, buf') := by
    apply getdentsLoop_returns word
    · intro o mem
      rw [list] at mem
      rw [header o mem]
      have := block.fits o mem
      omega
    · intro o mem
      rw [list] at mem
      rw [Live, header o mem]
      exact used o mem
  have listed := (getdentsLoop_listed word looped).2.1
  rw [list] at listed
  refine ⟨n, buf', looped, listed.copy bytes header fun o mem => ?_⟩
  have fits := (block.fits o mem).2
  have room := (block.named o mem (used o mem)).1
  omega

/-- The first block of a directory is read. -/
theorem getdentsRead_first {d usr : Nat} (inv : Served s bs) (mounted : Mounted disk s fs image)
    (has : fs.HasInodes (d / sInodesPerGroup fs.sb))
    (inside : (iBlock (yieldedIno disk s.heap.mem fs d) 0 0 + 1) * fs.blockSize ≤ image)
    (owned : ∀ i < sizeofIno, s.Owns (usr + i)) (notNull : usr ≠ 0) :
    Serves (s.heap.kernelBrk + (32 + fs.blockSize) + (32 + 512) + (32 + fs.blockSize) <
        kernelBrkStart + heapBytes) (getdentsRead disk s.heap fs usr d) fun r =>
      ∀ i < fs.blockSize, viewAt r.2.mem r.1 i = dirBlock disk fs (yieldedIno disk s.heap.mem fs d) i := by
  obtain ⟨k, small, blocks⟩ := mounted.blocks
  have pos := (block_sectors small blocks).2.2.2
  have below := mounted.below
  have read := getdentsRead_serves disk inv small blocks mounted.perGroup (mounted.owns_bgd has) owned
    notNull
  rw [Nat.add_mul, Nat.one_mul] at inside
  rwa [Nat.mod_eq_of_lt (by omega)] at read

/-- What the user sees of a listing, without the heap that the kernel keeps. -/
def seen (r : Except Fault (Nat × Bytes × Heap)) : Except Fault (Nat × Bytes) := r.map fun r => (r.1, r.2.1)

/-- **Listing an entry.** Of a directory without unused records, an entry appears in the listing exactly when
it stands in the first block. -/
theorem BlockDir.listed_iff {e : RecordPlace} {d usr : Nat} (inv : Served s bs)
    (mounted : Mounted disk s fs image) (has : fs.HasInodes (d / sInodesPerGroup fs.sb))
    (dir : BlockDir disk fs image (yieldedIno disk s.heap.mem fs d))
    (owned : ∀ i < sizeofIno, s.Owns (usr + i)) (notNull : usr ≠ 0)
    (room : s.heap.kernelBrk + (32 + fs.blockSize) + (32 + 512) + (32 + fs.blockSize) <
      kernelBrkStart + heapBytes)
    (used : AllUsed disk fs (yieldedIno disk s.heap.mem fs d))
    (entry : IsEntry disk fs (yieldedIno disk s.heap.mem fs d) e) (buf : Bytes) (count : Nat) :
    (∃ n buf' h', ext2GetdentsFile disk s.heap fs usr d buf count = .ok (n, buf', h') ∧
      Appears buf' n (entryIno disk fs (yieldedIno disk s.heap.mem fs d) e,
        entryName disk fs (yieldedIno disk s.heap.mem fs d) e)) ↔ e.blk = 0 := by
  obtain ⟨k, small, blocks⟩ := mounted.blocks
  obtain ⟨quarter, _, high⟩ := ptrs_range small blocks
  have word : fs.blockSize ≤ 2 ^ 20 := by omega
  have filled : 0 < fileBlocks (yieldedIno disk s.heap.mem fs d) fs := Nat.zero_lt_of_lt entry.1.1
  rcases getdentsRead_first inv mounted has (dir.inside 0 filled) owned notNull with
    ⟨_, full⟩ | ⟨⟨data, h₁⟩, read, bytes⟩
  · exact absurd room full
  dsimp only at read bytes
  generalize yieldedIno disk s.heap.mem fs d = node at *
  have live : ∀ o ∈ records (dirBlock disk fs node) fs.blockSize, IsEntry disk fs node ⟨0, o⟩ :=
    fun o mem => ⟨⟨filled, mem⟩, used ⟨0, o⟩ ⟨filled, mem⟩⟩
  have block : DirBlock (dirBlock disk fs node) fs.blockSize := dir.block 0 filled
  obtain ⟨n, buf', looped, listed⟩ := block.listed bytes (fun o mem => (live o mem).2) word buf
  have ran : ext2GetdentsFile disk s.heap fs usr d buf count = .ok (n, buf', Mm.free h₁ data) :=
    bind_eq_ok.mpr ⟨_, read, bind_eq_ok.mpr ⟨_, looped, rfl⟩⟩
  have tells := listed.appears_iff (entryIno disk fs node e, entryName disk fs node e)
    fun o mem => (dir.named ⟨0, o⟩ (live o mem)).noNul
  constructor
  · rintro ⟨n', out, h', ran', appears⟩
    cases ran.symm.trans ran'
    obtain ⟨o, mem, same⟩ := tells.mp appears
    exact congrArg RecordPlace.blk (dir.distinct e ⟨0, o⟩ entry (live o mem) (congrArg Prod.snd same))
  · intro zero
    obtain ⟨blk, off⟩ := e
    obtain rfl : blk = 0 := zero
    exact ⟨n, buf', _, ran, tells.mpr ⟨off, entry.1.2, rfl⟩⟩

/-! ## All blocks -/

/-- What is promised of a directory, of every entry: a lookup behind the path `front` finds it, unless another
entry's name is a proper prefix of its own, and if no record is unused the listing tells of it. -/
structure DirVisible (disk : Bytes) (h : Heap) (fs : Ext2Fs) (node : Bytes) (front : List (BitVec 8))
    (usr d : Nat) (buf : Bytes) (count : Nat) : Prop where
  found : ∀ e, IsEntry disk fs node e → ¬ HasPrefix disk fs node e →
    ∃ h', ext2Namei disk h fs (front ++ entryName disk fs node e) = .ok (entryIno disk fs node e, h')
  listed : AllUsed disk fs node → ∀ e, IsEntry disk fs node e → ∃ n buf' h',
    ext2GetdentsFile disk h fs usr d buf count = .ok (n, buf', h') ∧
      Appears buf' n (entryIno disk fs node e, entryName disk fs node e)

/-- **All blocks.** For every directory of any number of blocks, every path that leads to it, and every
buffer: lookup and listing show what is promised exactly when nothing is promised of the entries behind the
first block, because each has another entry's name as a prefix and the directory has an unused record. -/
theorem ext2Dir_visible_iff (disk path buf : Bytes) (s : Clients) (bs : List Block) (fs : Ext2Fs) (h : Heap)
    (image dirbuf inBuf start usr d count : Nat) (inv : Served s bs) (mounted : Mounted disk s fs image)
    (has : fs.HasInodes (d / sInodesPerGroup fs.sb))
    (dir : BlockDir disk fs image (yieldedIno disk s.heap.mem fs d))
    (at' : NameiAt disk s.heap fs path dirbuf inBuf start h) (opened : start = 1 ∨ path (start - 1) = slash)
    (holds : HoldsIno h.mem (yieldedIno disk s.heap.mem fs d) inBuf)
    (room : h.kernelBrk + 32 + fs.blockSize < kernelBrkStart + heapBytes)
    (owned : ∀ i < sizeofIno, s.Owns (usr + i)) (notNull : usr ≠ 0)
    (room' : s.heap.kernelBrk + (32 + fs.blockSize) + (32 + 512) + (32 + fs.blockSize) <
      kernelBrkStart + heapBytes) :
    DirVisible disk s.heap fs (yieldedIno disk s.heap.mem fs d) (bytesAt path 0 start) usr d buf count ↔
      ∀ e, IsEntry disk fs (yieldedIno disk s.heap.mem fs d) e → e.blk ≠ 0 →
        HasPrefix disk fs (yieldedIno disk s.heap.mem fs d) e ∧
          ¬ AllUsed disk fs (yieldedIno disk s.heap.mem fs d) := by
  have found := fun e => dir.found_iff (e := e) inv mounted at' opened holds room
  have listed := fun used e entry =>
    dir.listed_iff (e := e) inv mounted has owned notNull room' used entry buf count
  constructor
  · intro visible e entry later
    constructor
    · by_contra alone
      exact later ((found e entry alone).mp (visible.found e entry alone))
    · intro used
      exact later ((listed used e entry).mp (visible.listed used e entry))
  · intro hidden
    constructor
    case found =>
      intro e entry alone
      refine (found e entry alone).mpr ?_
      by_contra later
      exact alone (hidden e entry later).1
    case listed =>
      intro used e entry
      refine (listed used e entry).mpr ?_
      by_contra later
      exact (hidden e entry later).2 used

/-! ## The root directory -/

/-- The path `/`. -/
def rootPath : Bytes := fun i => [slash].getD i 0

/-- The blocks of a root directory, one behind the other. -/
def rootDirBlock (disk : Bytes) (blk : Nat) : Bytes := fun i => disk ((46 + blk) * 1024 + i)

/-- Where the pointers say so, they are the directory's. -/
theorem root_place {p blk : Nat} (few : blk < 12)
    (pointer : iBlock (fun i => disk (5248 + i)) 0 blk = 46 + blk) :
    blockPlace disk (likeTwoGroups disk p) (fun i => disk (5248 + i)) blk = 46 + blk ∧
      dirBlockAt disk (likeTwoGroups disk p) (fun i => disk (5248 + i)) blk = rootDirBlock disk blk := by
  have place : blockPlace disk (likeTwoGroups disk p) (fun i => disk (5248 + i)) blk = 46 + blk := by
    rw [blockPlace_eq (by omega), fileBlock, if_pos few]
    exact pointer
  refine ⟨place, ?_⟩
  unfold dirBlockAt
  rw [place]
  rfl

/-- A disk like the small one, whose root directory has some of its twelve direct blocks, with records at
`offs`. -/
theorem root_blockDir {p : Nat} (count : Nat) (offs : Nat → List Nat) (few : count ≤ 12)
    (size : (load (fun i => disk (5248 + i)) 4 4 + 1024 - 1) / 1024 = count)
    (pointers : ∀ blk < count, iBlock (fun i => disk (5248 + i)) 0 blk = 46 + blk)
    (those : ∀ blk < count, records (rootDirBlock disk blk) 1024 = offs blk)
    (fits : ∀ blk < count, ∀ o ∈ offs blk, 8 ≤ (ext2DirentAt (rootDirBlock disk blk) o).recLen ∧
      o + (ext2DirentAt (rootDirBlock disk blk) o).recLen ≤ 1024 ∧
      8 + (ext2DirentAt (rootDirBlock disk blk) o).nameLen ≤ (ext2DirentAt (rootDirBlock disk blk) o).recLen)
    (named : ∀ blk < count, ∀ o ∈ offs blk, 1 ≤ (recName (rootDirBlock disk blk) o).length ∧
      (0 : BitVec 8) ∉ recName (rootDirBlock disk blk) o ∧ slash ∉ recName (rootDirBlock disk blk) o)
    (distinct : ∀ blk < count, ∀ blk' < count, ∀ o ∈ offs blk, ∀ o' ∈ offs blk',
      recName (rootDirBlock disk blk) o = recName (rootDirBlock disk blk') o' → blk = blk' ∧ o = o') :
    BlockDir disk (likeTwoGroups disk p) 65536 (fun i => disk (5248 + i)) := by
  have blocks : fileBlocks (fun i => disk (5248 + i)) (likeTwoGroups disk p) = count := size
  have place := fun blk (lt : blk < count) =>
    (root_place (p := p) (show blk < 12 by omega) (pointers blk lt)).1
  have same := fun blk (lt : blk < count) =>
    (root_place (p := p) (show blk < 12 by omega) (pointers blk lt)).2
  constructor
  case inside =>
    intro blk lt
    rw [blocks] at lt
    rw [place blk lt]
    show (46 + blk + 1) * 1024 ≤ 65536
    omega
  case block =>
    intro blk lt
    rw [blocks] at lt
    rw [same blk lt]
    constructor
    case fits =>
      intro o (mem : o ∈ records (rootDirBlock disk blk) 1024)
      rw [those blk lt] at mem
      exact ⟨(fits blk lt o mem).1, (fits blk lt o mem).2.1⟩
    case named =>
      intro o (mem : o ∈ records (rootDirBlock disk blk) 1024) _
      rw [those blk lt] at mem
      exact ⟨(fits blk lt o mem).2.2, (named blk lt o mem).2.1⟩
  case named =>
    rintro ⟨blk, off⟩ ⟨⟨lt, mem⟩, _⟩
    rw [blocks] at lt
    dsimp only at lt mem
    rw [same blk lt] at mem
    obtain ⟨pos, noNul, noSlash⟩ := named blk lt off (those blk lt ▸ mem)
    rw [entryName, same blk lt]
    exact ⟨pos, recName_length.le.trans (Nat.le_of_lt_succ (nameLen_lt _ off)), noNul, noSlash⟩
  case distinct =>
    rintro ⟨blk, off⟩ ⟨blk', off'⟩ ⟨⟨lt, mem⟩, _⟩ ⟨⟨lt', mem'⟩, _⟩ equal
    rw [blocks] at lt lt'
    dsimp only at lt lt' mem mem'
    rw [same blk lt] at mem
    rw [same blk' lt'] at mem'
    rw [entryName, entryName, same blk lt, same blk' lt'] at equal
    obtain ⟨rfl, rfl⟩ :=
      distinct blk lt blk' lt' off (those blk lt ▸ mem) off' (those blk' lt' ▸ mem') equal
    rfl

/-- The root's descriptor is in memory. -/
theorem hasInodes_root (p : Nat) :
    (likeTwoGroups disk p).HasInodes (2 / sInodesPerGroup (likeTwoGroups disk p).sb) := by
  show 2 / sInodesPerGroup (twoGroupsFs p).sb * sInodesPerGroup (twoGroupsFs p).sb <
    sInodesCount (twoGroupsFs p).sb
  rw [twoGroups_perGroup, twoGroups_count]
  decide

/-- What is written over the small image behind the root's inode leaves what is before it. -/
theorem overlay_before {bytes : List (Nat × BitVec 8)} (behind : ∀ p ∈ bytes, 5248 ≤ p.1) :
    ∀ a < 5248, (bytes.lookup a).getD (twoGroups a) = twoGroups a := by
  intro a lt
  have unchanged : bytes.lookup a = none := List.lookup_eq_none_iff.mpr fun p mem =>
    bne_iff_ne.mpr (Nat.ne_of_lt (lt.trans_le (behind p mem)))
  rw [unchanged]
  rfl

/-- A second block with the entry `abc`, behind which is a record that is not used. -/
def hiddenBlockBytes : List (Nat × BitVec 8) :=
  [(5253, 8), (5276, 4), (5292, 47), (48128, 4), (48132, 12), (48134, 3), (48135, 1), (48136, 97),
    (48137, 98), (48138, 99), (48144, 244), (48145, 3), (48146, 1), (48147, 1), (48148, 98)]

/-- The small image, whose root directory has it. -/
def hiddenBlock : Bytes := fun a => (hiddenBlockBytes.lookup a).getD (twoGroups a)

/-- A root directory of two blocks of which nothing is promised that is not so: the one entry of the second
has the first one's `a` as a prefix, and a record is unused. -/
theorem ext2Dir_visible_iff_hidden : ∃ (s : Clients) (p : Nat),
    Mounted hiddenBlock s (likeTwoGroups hiddenBlock p) 65536 ∧
    fileBlocks (yieldedIno hiddenBlock s.heap.mem (likeTwoGroups hiddenBlock p) 2)
      (likeTwoGroups hiddenBlock p) = 2 ∧
    ∀ buf count, DirVisible hiddenBlock s.heap (likeTwoGroups hiddenBlock p)
      (yieldedIno hiddenBlock s.heap.mem (likeTwoGroups hiddenBlock p) 2) (bytesAt rootPath 0 1) 4096 2 buf
      count := by
  obtain ⟨s, bs, p, dirbuf, inBuf, h, inv, mounted, table, ran, _, walking, room', room⟩ :=
    root_start hiddenBlock (overlay_before (by decide))
  have yields : yieldedIno hiddenBlock s.heap.mem (likeTwoGroups hiddenBlock p) 2 =
      fun i => hiddenBlock (5248 + i) := yieldedIno_root hiddenBlock table
  have dir : BlockDir hiddenBlock (likeTwoGroups hiddenBlock p) 65536 fun i => hiddenBlock (5248 + i) :=
    root_blockDir 2 (fun blk => if blk = 0 then [0, 12, 24, 36] else [0, 12]) (by decide) (by decide)
      (by decide) (by decide) (by decide) (by decide) (by decide)
  have size : (likeTwoGroups hiddenBlock p).blockSize = 1024 := rfl
  have pointers : ∀ blk < 2, iBlock (fun i => hiddenBlock (5248 + i)) 0 blk = 46 + blk := by decide
  have here := fun blk (lt : blk < 2) =>
    (root_place (p := p) (show blk < 12 by omega) (pointers blk lt)).2
  have two : fileBlocks (fun i => hiddenBlock (5248 + i)) (likeTwoGroups hiddenBlock p) = 2 := by
    show (load (fun i => hiddenBlock (5248 + i)) 4 4 + 1024 - 1) / 1024 = 2
    decide
  have record : ∀ blk < 2, ∀ o ∈ records (rootDirBlock hiddenBlock blk) 1024,
      IsRecord hiddenBlock (likeTwoGroups hiddenBlock p) (fun i => hiddenBlock (5248 + i)) ⟨blk, o⟩ := by
    intro blk lt o mem
    refine ⟨by rw [two]; exact lt, ?_⟩
    dsimp only
    rw [here blk lt]
    exact mem
  have unused : ¬ AllUsed hiddenBlock (likeTwoGroups hiddenBlock p) fun i => hiddenBlock (5248 + i) := by
    intro all
    have live := all ⟨1, 12⟩ (record 1 (by decide) 12 (by decide))
    dsimp only at live
    rw [here 1 (by decide)] at live
    exact absurd live (by decide)
  have first : IsEntry hiddenBlock (likeTwoGroups hiddenBlock p) (fun i => hiddenBlock (5248 + i))
      ⟨0, 24⟩ := by
    refine ⟨record 0 (by decide) 24 (by decide), ?_⟩
    rw [here 0 (by decide)]
    decide
  have only : ∀ o ∈ records (rootDirBlock hiddenBlock 1) 1024, Live (rootDirBlock hiddenBlock 1) o →
      o = 0 := by decide
  refine ⟨s, p, mounted, yields ▸ two, fun buf count => ?_⟩
  refine (ext2Dir_visible_iff hiddenBlock rootPath buf s bs (likeTwoGroups hiddenBlock p) h 65536 dirbuf
    inBuf 1 4096 2 count inv mounted (hasInodes_root p) (yields ▸ dir) (.start ran) (.inl rfl)
    (yields ▸ walking.holds) (by rw [size]; omega) (owns_low s) (by decide) (by rw [size]; omega)).mpr ?_
  rw [yields]
  rintro ⟨blk, off⟩ ⟨⟨lt, mem⟩, live⟩ later
  rw [two] at lt
  obtain rfl : blk = 1 := by
    dsimp only at lt later
    omega
  dsimp only at mem live
  rw [here 1 (by decide)] at mem live
  obtain rfl := only off mem live
  refine ⟨⟨⟨0, 24⟩, first, ?_⟩, unused⟩
  rw [entryName, entryName, here 0 (by decide), here 1 (by decide)]
  decide

/-- A second block with the entry `b`. -/
def secondBlockBytes : List (Nat × BitVec 8) :=
  [(5253, 8), (5276, 4), (5292, 47), (48128, 4), (48133, 4), (48134, 1), (48135, 1), (48136, 98)]

/-- The small image, whose root directory has it. -/
def twoBlocks : Bytes := fun a => (secondBlockBytes.lookup a).getD (twoGroups a)

/-- Its second block is not visible: every record is used, and the entry `b` is not listed. -/
theorem ext2Dir_second_block : ∃ (s : Clients) (bs : List Block) (p : Nat), Served s bs ∧
    Mounted twoBlocks s (likeTwoGroups twoBlocks p) 65536 ∧
    BlockDir twoBlocks (likeTwoGroups twoBlocks p) 65536
      (yieldedIno twoBlocks s.heap.mem (likeTwoGroups twoBlocks p) 2) ∧
    ∀ buf count, ¬ DirVisible twoBlocks s.heap (likeTwoGroups twoBlocks p)
      (yieldedIno twoBlocks s.heap.mem (likeTwoGroups twoBlocks p) 2) (bytesAt rootPath 0 1) 4096 2 buf
      count := by
  obtain ⟨s, bs, p, dirbuf, inBuf, h, inv, mounted, table, ran, _, walking, room', room⟩ :=
    root_start twoBlocks (overlay_before (by decide))
  have yields : yieldedIno twoBlocks s.heap.mem (likeTwoGroups twoBlocks p) 2 =
      fun i => twoBlocks (5248 + i) := yieldedIno_root twoBlocks table
  have dir : BlockDir twoBlocks (likeTwoGroups twoBlocks p) 65536 fun i => twoBlocks (5248 + i) :=
    root_blockDir 2 (fun blk => if blk = 0 then [0, 12, 24, 36] else [0]) (by decide) (by decide)
      (by decide) (by decide) (by decide) (by decide) (by decide)
  have size : (likeTwoGroups twoBlocks p).blockSize = 1024 := rfl
  have pointers : ∀ blk < 2, iBlock (fun i => twoBlocks (5248 + i)) 0 blk = 46 + blk := by decide
  have count' : fileBlocks (fun i => twoBlocks (5248 + i)) (likeTwoGroups twoBlocks p) = 2 := by
    show (load (fun i => twoBlocks (5248 + i)) 4 4 + 1024 - 1) / 1024 = 2
    decide
  have live : ∀ blk < 2, ∀ o ∈ records (rootDirBlock twoBlocks blk) 1024,
      Live (rootDirBlock twoBlocks blk) o := by decide
  have used : AllUsed twoBlocks (likeTwoGroups twoBlocks p) fun i => twoBlocks (5248 + i) := by
    rintro ⟨blk, off⟩ ⟨lt, mem⟩
    rw [count'] at lt
    dsimp only at lt mem ⊢
    have here := (root_place (p := p) (show blk < 12 by omega) (pointers blk lt)).2
    rw [here] at mem ⊢
    exact live blk lt off mem
  have entry : IsEntry twoBlocks (likeTwoGroups twoBlocks p) (fun i => twoBlocks (5248 + i)) ⟨1, 0⟩ := by
    have record : IsRecord twoBlocks (likeTwoGroups twoBlocks p) (fun i => twoBlocks (5248 + i)) ⟨1, 0⟩ := by
      refine ⟨by rw [count']; decide, ?_⟩
      dsimp only
      rw [(root_place (p := p) (by decide) (pointers 1 (by decide))).2]
      show 0 ∈ records (rootDirBlock twoBlocks 1) 1024
      decide
    exact ⟨record, used _ record⟩
  rw [← yields] at dir used entry
  refine ⟨s, bs, p, inv, mounted, dir, fun buf count visible => ?_⟩
  have first := (dir.listed_iff inv mounted (hasInodes_root p) (owns_low s) (by decide)
    (by rw [size]; omega) used entry buf count).mp (visible.listed used ⟨1, 0⟩ entry)
  exact absurd first (by decide)

end Blackcomb.Fs
