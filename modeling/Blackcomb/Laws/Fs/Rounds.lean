import Blackcomb.Lib.Walk
import Blackcomb.Laws.Fs.Lookup

/-!
# The rounds of a listing

The `while` of `ext2_getdents` as a walk: what a round makes of the two offsets and the user's buffer,
for any bytes of the directory's block. `getdentsLoop` is that walk (`getdentsLoop_eq`). A round writes a
header and a name up to its first NUL, whatever was in the buffer, and moves on to the next record; at an
unused record it moves nowhere.
-/

namespace Blackcomb.Fs

open Memory Mm Drivers Walk

variable {m b buf buf' : Bytes} {data stop o us a : Nat}

/-! ## Records -/

/-- The bytes from an address on. -/
def viewAt (m : Bytes) (data : Nat) : Bytes := fun i => m (data + i)

theorem direntAt_view : ext2DirentAt (viewAt m data) o = ext2DirentAt m (data + o) := by
  have field : ∀ k w, load (viewAt m data) (o + k) w = load m (data + o + k) w := by
    intro k w
    apply load_shift
    intro i _
    exact congrArg m (by omega)
  rw [ext2DirentAt, ext2DirentAt, field 4 2, field 6 1]
  exact congrArg (Ext2Dirent.mk · _ _) (field 0 4)

theorem nameAt_view : ext2NameAt (viewAt m data) o = ext2NameAt m (data + o) := by
  funext i
  exact congrArg m (by omega)

/-- What a record takes in the listing. -/
def listLen (b : Bytes) (o : Nat) : Nat := sizeofDirent + (ext2DirentAt b o).nameLen + 1

/-- How many bytes of a record's name stand before its first NUL. -/
def letters (b : Bytes) (o : Nat) : Nat := (recName b o).findIdx (· == 0)

/-- How many bytes of a record's name `strlcpy` copies: up to the first NUL, and with it. -/
def copied (b : Bytes) (o : Nat) : Nat := min (letters b o + 1) (ext2DirentAt b o).nameLen

theorem recName_length : (recName b o).length = (ext2DirentAt b o).nameLen := bytesAt_length

theorem letters_le : letters b o ≤ (ext2DirentAt b o).nameLen :=
  recName_length (b := b) (o := o) ▸ List.findIdx_le_length

/-- The bytes before the first NUL are none, and the first NUL is one. -/
theorem letters_spec : (∀ i < letters b o, b (o + 8 + i) ≠ 0) ∧
    (letters b o < (ext2DirentAt b o).nameLen → b (o + 8 + letters b o) = 0) := by
  have byte : ∀ i (lt : i < (recName b o).length), (recName b o)[i] = b (o + 8 + i) := by
    intro i lt
    simp only [recName, bytesAt, List.getElem_map, List.getElem_range]
  constructor
  · intro i lt zero
    have inside : i < (recName b o).length := recName_length ▸ lt.trans_le letters_le
    have not := List.not_of_lt_findIdx lt
    rw [byte i inside, zero] at not
    exact absurd not (by decide)
  · intro lt
    have inside : letters b o < (recName b o).length := recName_length ▸ lt
    exact (byte _ inside).symm.trans (beq_iff_eq.mp (List.findIdx_getElem (w := inside)))

/-- A name has a NUL where its letters end before it does. -/
theorem nul_mem_iff : (0 : BitVec 8) ∈ recName b o ↔ letters b o < (ext2DirentAt b o).nameLen := by
  rw [← recName_length, letters, List.findIdx_lt_length]
  simp

/-! ## Writing one -/

/-- `strlcpy` stops behind the first NUL, or after as many bytes as it is given. -/
theorem strlcpyFrom_apply {src : Bytes} {dest i n c : Nat} (within : c ≤ n)
    (letters : ∀ j, j + 1 < c → src (i + j) ≠ 0)
    (stops : c = n ∨ (0 < c ∧ src (i + (c - 1)) = 0)) (a : Nat) :
    (strlcpyFrom m dest src i n).2 a =
      if dest + i ≤ a ∧ a < dest + i + c then src (a - dest) else m a := by
  induction n generalizing m i c with
  | zero =>
    rw [if_neg (by omega)]
    rfl
  | succ n ih =>
    have pos : 0 < c := by omega
    rw [strlcpyFrom]
    by_cases last : src i = 0
    · -- a NUL is the last byte that is copied
      have one : c = 1 := by
        by_contra more
        exact letters 0 (by omega) last
      subst one
      rw [if_pos last]
      dsimp only
      by_cases here : a = dest + i
      · subst here
        rw [if_pos (by omega), Function.update_self, Nat.add_sub_cancel_left]
      · rw [if_neg (by omega), Function.update_of_ne here]
    · rw [if_neg last, ih (c := c - 1) (by omega)]
      · by_cases here : a = dest + i
        · subst here
          rw [if_neg (by omega), if_pos (by omega), Function.update_self, Nat.add_sub_cancel_left]
        · rw [Function.update_of_ne here]
          by_cases inside : dest + (i + 1) ≤ a ∧ a < dest + (i + 1) + (c - 1)
          · rw [if_pos inside, if_pos (by omega)]
          · rw [if_neg inside, if_neg (by omega)]
      · intro j lt
        rw [Nat.add_assoc, Nat.add_comm 1]
        exact letters (j + 1) (by omega)
      · rcases stops with whole | ⟨_, nul⟩
        · exact .inl (by omega)
        · have more : c ≠ 1 := by
            rintro rfl
            exact last nul
          refine .inr ⟨by omega, ?_⟩
          rw [show i + 1 + (c - 1 - 1) = i + (c - 1) by omega]
          exact nul

/-- The bytes that the assignments to `us_de` leave. -/
theorem writeDirent_apply (buf b : Bytes) (us o a : Nat) :
    writeDirent buf us (ext2DirentAt b o) (ext2NameAt b o) a =
      if us + 8 ≤ a ∧ a < us + 8 + copied b o then b (o + 8 + (a - (us + 8)))
      else store (store buf us 4 (ext2DirentAt b o).inode) (us + 4) 4 (listLen b o) a := by
  obtain ⟨before, nul⟩ := letters_spec (b := b) (o := o)
  have most := letters_le (b := b) (o := o)
  rw [writeDirent, strlcpy, strlcpyFrom_apply (c := copied b o)]
  · rfl
  · exact Nat.min_le_right _ _
  · intro j lt
    rw [Nat.zero_add]
    exact before j (by rw [copied] at lt; omega)
  · unfold copied
    by_cases lt : letters b o < (ext2DirentAt b o).nameLen
    · rw [Nat.min_eq_left lt, Nat.zero_add]
      exact .inr ⟨by omega, nul lt⟩
    · exact .inl (Nat.min_eq_right (by omega))

/-- A record of the block stands in a listing: its number, its length there, and its name up to the first
NUL. -/
structure ListedAt (b buf : Bytes) (us o : Nat) : Prop where
  ino : load buf us 4 = (ext2DirentAt b o).inode
  recLen : load buf (us + 4) 4 = listLen b o
  name : ∀ i < copied b o, buf (us + sizeofDirent + i) = b (o + 8 + i)

/-- What the assignments to `us_de` do. -/
theorem writeDirent_listed (buf b : Bytes) (us o : Nat) :
    ListedAt b (writeDirent buf us (ext2DirentAt b o) (ext2NameAt b o)) us o ∧
      ∀ a, a < us ∨ us + sizeofDirent + copied b o ≤ a →
        writeDirent buf us (ext2DirentAt b o) (ext2NameAt b o) a = buf a := by
  have short := nameLen_lt b o
  simp only [sizeofDirent]
  refine ⟨⟨?_, ?_, fun i lt => ?_⟩, fun a out => ?_⟩
  · have header : load (writeDirent buf us (ext2DirentAt b o) (ext2NameAt b o)) us 4 =
        load (store buf us 4 (ext2DirentAt b o).inode) us 4 := by
      apply load_congr
      intro a low high
      rw [writeDirent_apply, if_neg (by omega), store_outside _ (by omega)]
    rw [header]
    exact load_store (load_lt b o 4)
  · have header : load (writeDirent buf us (ext2DirentAt b o) (ext2NameAt b o)) (us + 4) 4 =
        load (store (store buf us 4 (ext2DirentAt b o).inode) (us + 4) 4 (listLen b o)) (us + 4) 4 := by
      apply load_congr
      intro a low high
      rw [writeDirent_apply, if_neg (by omega)]
    rw [header]
    apply load_store
    simp only [listLen, sizeofDirent]
    omega
  · simp only [sizeofDirent]
    rw [writeDirent_apply, if_pos (by omega), Nat.add_sub_cancel_left]
  · rw [writeDirent_apply, if_neg (by omega), store_outside _ (by omega), store_outside _ (by omega)]

/-- What is written does not depend on what was there. -/
theorem writeDirent_overwrites (buf buf' b : Bytes) (low : us ≤ a)
    (high : a < us + sizeofDirent + copied b o) :
    writeDirent buf us (ext2DirentAt b o) (ext2NameAt b o) a =
      writeDirent buf' us (ext2DirentAt b o) (ext2NameAt b o) a := by
  simp only [sizeofDirent] at high
  rw [writeDirent_apply, writeDirent_apply]
  by_cases name : us + 8 ≤ a
  · rw [if_pos (by omega), if_pos (by omega)]
  · rw [if_neg (by omega), if_neg (by omega)]
    by_cases first : a < us + 4
    · have before : ∀ m v, store m (us + 4) 4 v a = m a := fun m v => store_outside v (.inl first)
      rw [before, before, store_inside low first, store_inside low first]
    · rw [store_inside (by omega) (by omega), store_inside (by omega) (by omega)]

/-! ## A round -/

/-- Where the `while` of `ext2_getdents` stands. -/
structure Dents where
  doff : Nat
  usDoff : Nat
  buf : Bytes

/-- A round of the `while`. The `continue` at an unused record leaves everything as it was. -/
def getdentsRound (b : Bytes) (s : Dents) : Dents :=
  let de := ext2DirentAt b s.doff
  if de.inode = 0 then s
  else
    let buf := writeDirent s.buf s.usDoff de (ext2NameAt b s.doff)
    { doff := (s.doff + de.recLen) % 2 ^ 32
      usDoff := (s.usDoff + load buf (s.usDoff + 4) 4) % 2 ^ 32
      buf := buf }

/-- The condition of the `while`. -/
def Dents.Within (stop : Nat) (s : Dents) : Prop := s.doff < stop

instance (stop : Nat) : DecidablePred (Dents.Within stop) :=
  fun s => inferInstanceAs (Decidable (s.doff < stop))

/-- The `while` of `ext2_getdents` is a walk. -/
theorem getdentsLoop_eq (m : Bytes) (data stop fuel : Nat) (s : Dents) :
    getdentsLoop m data stop fuel s.doff s.usDoff s.buf =
      (stopsAt (getdentsRound (viewAt m data)) (Dents.Within stop) fuel s).elim
        (.error .diverge) fun s => .ok (s.usDoff, s.buf) := by
  induction fuel generalizing s with
  | zero =>
    rw [getdentsLoop, stopsAt]
    by_cases more : s.doff < stop
    · rw [if_pos more, if_pos (show s.Within stop from more)]
      rfl
    · rw [if_neg more, if_neg (show ¬ s.Within stop from more)]
      rfl
  | succ fuel ih =>
    rw [getdentsLoop]
    by_cases more : s.doff < stop
    · rw [if_pos more]
      by_cases unused : (ext2DirentAt m (data + s.doff)).inode = 0
      · have fixed : getdentsRound (viewAt m data) s = s := by
          rw [getdentsRound, direntAt_view]
          exact if_pos unused
        rw [stopsAt_of_fixed (show s.Within stop from more) fixed]
        exact if_pos unused
      · have next := ih (getdentsRound (viewAt m data) s)
        rw [stopsAt, if_pos (show s.Within stop from more), ← next, getdentsRound, direntAt_view, nameAt_view]
        simp only [if_neg unused]
    · rw [if_neg more, stopsAt_of_done (show ¬ s.Within stop from more)]
      rfl

/-- A round at a record in use. -/
theorem getdentsRound_used {s : Dents} (used : Live b s.doff) : getdentsRound b s =
    { doff := (s.doff + (ext2DirentAt b s.doff).recLen) % 2 ^ 32
      usDoff := (s.usDoff + listLen b s.doff) % 2 ^ 32
      buf := writeDirent s.buf s.usDoff (ext2DirentAt b s.doff) (ext2NameAt b s.doff) } := by
  have written := (writeDirent_listed s.buf b s.usDoff s.doff).1.recLen
  rw [getdentsRound]
  simp only [if_neg used, written]

/-- A round at a record that is not in use. -/
theorem getdentsRound_unused {s : Dents} (unused : ¬ Live b s.doff) : getdentsRound b s = s :=
  if_pos (not_not.mp unused)

/-! ## The places -/

/-- A record's offset in the block and its place in the listing, a round later. -/
def nextPlace (b : Bytes) (p : Nat × Nat) : Nat × Nat :=
  if Live b p.1 then ((p.1 + (ext2DirentAt b p.1).recLen) % 2 ^ 32, (p.2 + listLen b p.1) % 2 ^ 32) else p

/-- Where a listing stands, but for the buffer. -/
def Dents.place (s : Dents) : Nat × Nat := (s.doff, s.usDoff)

/-- The places do not depend on the buffer. -/
theorem getdentsRound_place (s : Dents) : (getdentsRound b s).place = nextPlace b s.place := by
  rw [nextPlace]
  by_cases used : Live b s.doff
  · rw [getdentsRound_used used]
    exact (if_pos used).symm
  · rw [getdentsRound_unused used]
    exact (if_neg used).symm

/-- The place is in the block. -/
def PlaceWithin (stop : Nat) (p : Nat × Nat) : Prop := p.1 < stop

instance (stop : Nat) : DecidablePred (PlaceWithin stop) :=
  fun p => inferInstanceAs (Decidable (p.1 < stop))

/-- The places of a walk are those of its states. -/
theorem visits_place_iff {s : Dents} {p : Nat × Nat} :
    Visits (nextPlace b) (PlaceWithin stop) s.place p ↔
      ∃ t, Visits (getdentsRound b) (Dents.Within stop) s t ∧ t.place = p :=
  visits_map_iff Dents.place (fun _ => Iff.rfl) fun s _ => getdentsRound_place s

theorem stopsAt_place_eq {n : Nat} {s : Dents} : stopsAt (nextPlace b) (PlaceWithin stop) n s.place =
    (stopsAt (getdentsRound b) (Dents.Within stop) n s).map Dents.place :=
  stopsAt_map Dents.place (fun _ => Iff.rfl) (fun s _ => getdentsRound_place s) n s

/-! ## The block -/

/-- **The read.** `data` is the directory's first block, by the inode that `ext2_get_inode` yields. -/
theorem getdentsRead_serves (disk : Bytes) {s : Clients} {bs : List Block} {fs : Ext2Fs}
    {k inBuf ino : Nat} (inv : Served s bs) (small : k ≤ 6) (blocks : fs.blockSize = 1024 <<< k)
    (perGroup : 0 < sInodesPerGroup fs.sb)
    (descriptor : ∀ i < sizeofBgd, s.Owns (fs.bgd (ino / sInodesPerGroup fs.sb) + i))
    (owned : ∀ i < sizeofIno, s.Owns (inBuf + i)) (notNull : inBuf ≠ 0) :
    Serves (s.heap.kernelBrk + (32 + fs.blockSize) + (32 + 512) + (32 + fs.blockSize) <
        kernelBrkStart + heapBytes) (getdentsRead disk s.heap fs inBuf ino) fun r =>
      ∀ i < fs.blockSize, viewAt r.2.mem r.1 i =
        disk (iBlock (yieldedIno disk s.heap.mem fs ino) 0 0 * fs.blockSize % 2 ^ 32 + i) := by
  obtain ⟨_, _, _, pos⟩ := block_sectors small blocks
  obtain ⟨quarter, low, high⟩ := ptrs_range small blocks
  have multiple := blockSize_dvd blocks
  unfold getdentsRead
  refine ((inv.serves_kmalloc pos (by omega)).room_mono fun room => .inr (by omega)).bind ?_
  intro r allotted
  obtain ⟨data, h₁⟩ := r
  obtain ⟨bs₁, inv₁⟩ := allotted.served
  have brk₁ := allotted.brk
  have low₁ := allotted.low
  dsimp only at inv₁ brk₁ low₁ ⊢
  have off : inodeOff h₁.mem fs ino = inodeOff s.heap.mem fs ino :=
    inodeOff_congr fun i lt => allotted.kept _ (descriptor i lt)
  refine ((ext2GetInode_serves disk ino inv₁ multiple perGroup
    (fun i lt => (owned i lt).cons h₁ _) notNull).room_mono ?_).bind ?_
  · exact fun room => .inr (by dsimp only; omega)
  intro h₂ read
  obtain ⟨bs₂, inv₂, _⟩ := read.served
  have brk₂ := read.brk
  have one : 512 * nsectors sizeofIno = 512 := by decide
  rw [one] at brk₂
  dsimp only at inv₂ brk₂ ⊢
  have holds : HoldsIno h₂.mem (yieldedIno disk s.heap.mem fs ino) inBuf := by
    intro i lt
    rw [readIno_bytes read (inodeOff_aligned _ _ multiple) i lt]
    exact congrArg (fun a => disk (a + i)) off
  rw [holds.block (by decide)]
  refine ((readBlk_reads disk _ inv₂ small blocks (Clients.owns_head h₂ s.live)
    (by omega)).room_mono fun room => .inr (by dsimp only; omega)).bind ?_
  exact fun h₃ got => .ok got.bytes

/-- The root's inode of a disk like the small one. -/
theorem yieldedIno_root (disk : Bytes) {p : Nat} (table : bgInodeTable m p = 5) :
    yieldedIno disk m (twoGroupsFs p) 2 = fun i => disk (5248 + i) := by
  have eq := inodeOff_eq m (twoGroupsFs p) 2
  have first : (twoGroupsFs p).tablePlace m 0 = 5120 := congrArg (· * 1024) table
  rw [twoGroups_perGroup, first] at eq
  have off : inodeOff m (twoGroupsFs p) 2 = 5248 := by omega
  unfold yieldedIno
  rw [off]

/-- The root directory of a disk like the small one, and its first block in the kernel. -/
theorem root_read (disk : Bytes) (pointer : iBlock (fun i => disk (5248 + i)) 0 0 = 46) :
    ∃ (s : Clients) (p data : Nat) (h₁ : Heap),
      getdentsRead disk s.heap (twoGroupsFs p) 4096 2 = .ok (data, h₁) ∧
        ∀ i < 1024, viewAt h₁.mem data i = disk (47104 + i) := by
  obtain ⟨s, bs, p, inv, room, live, mounted, table, _⟩ := twoGroups_mounted
  have perGroup := twoGroups_perGroup p
  have size : (twoGroupsFs p).blockSize = 1024 := rfl
  have yields := yieldedIno_root disk table
  have descriptor : ∀ i < sizeofBgd,
      s.Owns ((twoGroupsFs p).bgd (2 / sInodesPerGroup (twoGroupsFs p).sb) + i) := by
    intro i lt
    rw [perGroup]
    refine .inl ⟨(p, 64), by rw [live]; exact List.mem_cons_self, ?_⟩
    have here : (twoGroupsFs p).bgd (2 / 8) = p := rfl
    rw [sizeofBgd] at lt
    rw [here]
    dsimp only
    omega
  have served := getdentsRead_serves disk inv (show 0 ≤ 6 by decide) size mounted.perGroup
    descriptor (owns_low s) (by decide)
  rw [yields, pointer] at served
  rcases served with ⟨_, full⟩ | ⟨⟨data, h₁⟩, read, bytes⟩
  · rw [size] at full
    omega
  · exact ⟨s, p, data, h₁, read, bytes⟩

/-! ## The caller's buffer -/

/-- The `while` of `ext2_getdents` comes to a state. -/
def GetdentsAt (disk : Bytes) (h : Heap) (rootfs : Ext2Fs) (inBuf ino : Nat) (buf : Bytes)
    (s : Dents) : Prop :=
  ∃ data h₁, getdentsRead disk h rootfs inBuf ino = .ok (data, h₁) ∧
    Visits (getdentsRound (viewAt h₁.mem data)) (Dents.Within rootfs.blockSize) ⟨0, 0, buf⟩ s

/-- What is promised of `ext2_getdents` for a buffer of `count` bytes, whatever is in it: no byte behind
them is ever written, and the result is at most `count`. -/
structure BufferKept (disk : Bytes) (h : Heap) (rootfs : Ext2Fs) (inBuf ino count : Nat) : Prop where
  writes : ∀ buf s, GetdentsAt disk h rootfs inBuf ino buf s → ∀ a, count ≤ a → s.buf a = buf a
  result : ∀ buf n buf' h',
    ext2GetdentsFile disk h rootfs inBuf ino buf count = .ok (n, buf', h') → n ≤ count

/-- The listing of a block has room in `count` bytes: what is copied of every record in use that the walk
meets, and the sum of what the records take if the walk comes to the end. -/
structure ListingFits (b : Bytes) (stop count : Nat) : Prop where
  each : ∀ o us, Visits (nextPlace b) (PlaceWithin stop) (0, 0) (o, us) → o < stop → Live b o →
    us + sizeofDirent + copied b o ≤ count
  total : ∀ o us, stopsAt (nextPlace b) (PlaceWithin stop) stop (0, 0) = some (o, us) → us ≤ count

/-- What `ext2_getdents` returns, by its walk. -/
theorem ext2GetdentsFile_eq {disk : Bytes} {h h₁ : Heap} {rootfs : Ext2Fs} {inBuf ino : Nat}
    (read : getdentsRead disk h rootfs inBuf ino = .ok (data, h₁)) (buf : Bytes) (count : Nat) :
    ext2GetdentsFile disk h rootfs inBuf ino buf count =
      (stopsAt (getdentsRound (viewAt h₁.mem data)) (Dents.Within rootfs.blockSize) rootfs.blockSize
        ⟨0, 0, buf⟩).elim (.error .diverge) fun s => .ok (s.usDoff, s.buf, Mm.free h₁ data) := by
  have looped := getdentsLoop_eq h₁.mem data rootfs.blockSize rootfs.blockSize ⟨0, 0, buf⟩
  dsimp only at looped
  unfold ext2GetdentsFile
  rw [read, ok_bind]
  dsimp only
  rw [looped]
  cases stopsAt (getdentsRound (viewAt h₁.mem data)) (Dents.Within rootfs.blockSize) rootfs.blockSize
    ⟨0, 0, buf⟩ <;> rfl

/-- Whether it returns, and how much, by the places alone. -/
theorem ext2GetdentsFile_returns_iff {disk : Bytes} {h h₁ : Heap} {rootfs : Ext2Fs} {inBuf ino n : Nat}
    (read : getdentsRead disk h rootfs inBuf ino = .ok (data, h₁)) (buf : Bytes) (count : Nat) :
    (∃ buf' h', ext2GetdentsFile disk h rootfs inBuf ino buf count = .ok (n, buf', h')) ↔
      ∃ o, stopsAt (nextPlace (viewAt h₁.mem data)) (PlaceWithin rootfs.blockSize) rootfs.blockSize (0, 0) =
        some (o, n) := by
  have places : stopsAt (nextPlace (viewAt h₁.mem data)) (PlaceWithin rootfs.blockSize) rootfs.blockSize
      (0, 0) = _ := stopsAt_place_eq (s := ⟨0, 0, buf⟩)
  rw [ext2GetdentsFile_eq read, places]
  cases stopsAt (getdentsRound (viewAt h₁.mem data)) (Dents.Within rootfs.blockSize) rootfs.blockSize
    ⟨0, 0, buf⟩ with
  | none => simp
  | some s =>
    constructor
    · rintro ⟨buf', h', ran⟩
      cases ran
      exact ⟨s.doff, rfl⟩
    · rintro ⟨o, same⟩
      cases same
      exact ⟨s.buf, _, rfl⟩

/-- **The caller's buffer.** For every disk, every file system on it, every open file and every `count`:
nothing is written outside the first `count` bytes, and no more is returned, exactly when the listing of
the block that is read has room in them. -/
theorem ext2Getdents_bufferKept_iff (disk : Bytes) (h : Heap) (rootfs : Ext2Fs) (inBuf ino count : Nat) :
    BufferKept disk h rootfs inBuf ino count ↔
      ∀ data h₁, getdentsRead disk h rootfs inBuf ino = .ok (data, h₁) →
        ListingFits (viewAt h₁.mem data) rootfs.blockSize count := by
  constructor
  · intro kept data h₁ read
    constructor
    case each =>
      intro o us visits inside used
      by_contra out
      have pos : 0 < sizeofDirent := by decide
      -- a buffer that has another byte where the last one of the record is written
      obtain ⟨a, last⟩ : ∃ a, a + 1 = us + sizeofDirent + copied (viewAt h₁.mem data) o :=
        ⟨us + sizeofDirent + copied (viewAt h₁.mem data) o - 1, by omega⟩
      generalize byte : writeDirent (fun _ => 0) us (ext2DirentAt (viewAt h₁.mem data) o)
        (ext2NameAt (viewAt h₁.mem data) o) a = w
      obtain ⟨s, visited, place⟩ := (visits_place_iff (s := ⟨0, 0, fun _ => w + 1⟩)).mp visits
      obtain ⟨rfl, rfl⟩ := Prod.mk.inj place
      have next := kept.writes _ _ ⟨data, h₁, read, visited.round inside⟩ a (by omega)
      rw [getdentsRound_used used] at next
      dsimp only at next
      rw [writeDirent_overwrites s.buf (fun _ => 0) _ (by omega) (by omega), byte] at next
      exact byte_ne_succ w next.symm
    case total =>
      intro o us stops
      obtain ⟨buf', h', ran⟩ := (ext2GetdentsFile_returns_iff read (fun _ => 0) count).mpr ⟨o, stops⟩
      exact kept.result _ _ _ _ ran
  · intro fits
    constructor
    case writes =>
      rintro buf s ⟨data, h₁, read, visits⟩ a behind
      have room := (fits data h₁ read).each
      induction visits with
      | start => rfl
      | @round s visits inside ih =>
        by_cases used : Live (viewAt h₁.mem data) s.doff
        · have here := room _ _ (visits_place_iff.mpr ⟨s, visits, rfl⟩) inside used
          rw [getdentsRound_used used]
          exact ((writeDirent_listed _ _ _ _).2 a (.inr (here.trans behind))).trans ih
        · rw [getdentsRound_unused used]
          exact ih
    case result =>
      intro buf n buf' h' ran
      obtain ⟨⟨data, h₁⟩, read, _⟩ := bind_eq_ok.mp ran
      obtain ⟨o, stops⟩ := (ext2GetdentsFile_returns_iff read buf count).mp ⟨buf', h', ran⟩
      exact (fits data h₁ read).total o n stops

/-- The name of the small root directory's first entry is written behind a buffer of 8 bytes. -/
theorem ext2Getdents_short_buffer : ∃ (s : Clients) (p data : Nat) (h₁ : Heap),
    getdentsRead twoGroups s.heap (twoGroupsFs p) 4096 2 = .ok (data, h₁) ∧
      ¬ BufferKept twoGroups s.heap (twoGroupsFs p) 4096 2 8 := by
  obtain ⟨s, p, data, h₁, read, bytes⟩ := root_read twoGroups (by decide)
  refine ⟨s, p, data, h₁, read, fun kept => ?_⟩
  have here : ext2DirentAt (viewAt h₁.mem data) 0 = ext2DirentAt (fun i => twoGroups (47104 + i)) 0 :=
    direntAt_view.trans (direntAt_copy bytes (by decide))
  have live : Live (viewAt h₁.mem data) 0 := by
    rw [Live, here]
    decide
  have inside : Dents.Within (twoGroupsFs p).blockSize ⟨0, 0, fun _ => 0⟩ := show 0 < 1024 by decide
  have kept := kept.writes (fun _ => 0) _ ⟨data, h₁, read, .round .start inside⟩ 8 (Nat.le_refl 8)
  rw [getdentsRound_used live] at kept
  have one : 0 < copied (viewAt h₁.mem data) 0 := by
    have length : (ext2DirentAt (viewAt h₁.mem data) 0).nameLen = 1 := by
      rw [here]
      decide
    rw [copied, length]
    omega
  have letter := (writeDirent_listed (fun _ => 0) (viewAt h₁.mem data) 0 0).1.name 0 one
  have dot : viewAt h₁.mem data 8 = 46 := (bytes 8 (by decide)).trans (by decide)
  exact absurd (dot.symm.trans (letter.symm.trans kept)) (by decide)

end Blackcomb.Fs
