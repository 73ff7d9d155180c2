import Blackcomb.Laws.Fs.Directory

/-!
# A directory, from the disk to the user

`ext2_getdents` packs the records of a directory block into the user's buffer with another header and
another length, and `ls` unpacks them. Between the two stands a listing. `DirTiles` says which records a
block has when their names have no NUL; the kernel writes no terminator for such a name itself, so that the
two are a round trip when the buffer was zero.

Together with `Directory` this goes from the disk to the program: what `ls` decodes is what stands
in the first block (`ls_reads_directory`).

**What it does not establish.** `ls` is the loop of `ls.zig` over the bytes it got; what it prints
is not modelled. Names with a NUL inside, and buffers that were not zero, are in `Listing`.
-/

namespace Blackcomb.Fs

open Memory Run Mm

variable {m m' block buf buf' : Bytes} {off stop size n fuel : Nat} {es : List Entry}

/-! ## Layouts -/

/-- The records from one offset of a block to another, each with its inode and its name: a record has
room for its name, and a name has no NUL. -/
def DirTiles (m : Bytes) : Nat → List Entry → Nat → Prop
  | off, [], stop => off = stop
  | off, (ino, name) :: es, stop =>
    (ext2DirentAt m off).inode = ino ∧
      name = (List.range (ext2DirentAt m off).nameLen).map (ext2NameAt m off) ∧
      8 + name.length ≤ (ext2DirentAt m off).recLen ∧ (0 : BitVec 8) ∉ name ∧
      DirTiles m (off + (ext2DirentAt m off).recLen) es stop

/-- The bytes that an entry has in the user's buffer. -/
def usLen (e : Entry) : Nat := sizeofDirent + e.2.length + 1

/-- The bytes of records one after the other. -/
def usTotal : List Entry → Nat
  | [] => 0
  | e :: es => usLen e + usTotal es

theorem DirTiles.le (tiles : DirTiles m off es stop) : off ≤ stop := by
  induction es generalizing off with
  | nil => exact Nat.le_of_eq tiles
  | cons e es ih => exact Nat.le_of_add_right_le (ih tiles.2.2.2.2)

/-- Records are read from the bytes of the block. -/
theorem DirTiles.congr (tiles : DirTiles m off es stop) (same : ∀ i < stop, m' i = m i) :
    DirTiles m' off es stop := by
  induction es generalizing off with
  | nil => exact tiles
  | cons e es ih =>
    obtain ⟨ino, name⟩ := e
    obtain ⟨inode, spelled, room, noNul, rest⟩ := tiles
    have inside := rest.le
    have copy : ∀ i < stop, m' (0 + i) = m i :=
      fun i lt => (congrArg m' (Nat.zero_add i)).trans (same i lt)
    have header : ext2DirentAt m' off = ext2DirentAt m off :=
      (congrArg _ (Nat.zero_add off)).symm.trans (direntAt_copy copy (by omega))
    have length : name.length = (ext2DirentAt m off).nameLen := by
      rw [spelled, List.length_map, List.length_range]
    refine ⟨by rw [header]; exact inode, ?_, by rw [header]; exact room, noNul, ?_⟩
    · rw [header, spelled]
      apply List.map_congr_left
      intro i mem
      have lt := List.mem_range.mp mem
      exact (same _ (by omega)).symm
    · rw [header]
      exact ih rest

/-- The records of a block that is tiled: they tell its entries, their names have no NUL, and they lie in
the block. -/
theorem DirTiles.records (tiles : DirTiles m off es stop) (enough : stop ≤ off + fuel) :
    (recordsFrom m stop fuel off).map (entryOf m) = es ∧
      ((recordsFrom m stop fuel off).map (listLen m)).sum = usTotal es ∧
      ∀ x ∈ recordsFrom m stop fuel off,
        0 < (ext2DirentAt m x).recLen ∧ x + (ext2DirentAt m x).recLen ≤ stop := by
  induction es generalizing off fuel with
  | nil =>
    obtain rfl : off = stop := tiles
    have none : recordsFrom m off fuel off = [] := by
      cases fuel with
      | zero => rfl
      | succ fuel => exact if_neg (Nat.lt_irrefl off)
    rw [none]
    exact ⟨rfl, rfl, fun _ mem => absurd mem List.not_mem_nil⟩
  | cons e es ih =>
    obtain ⟨ino, name⟩ := e
    obtain ⟨inode, spelled, room, noNul, rest⟩ := tiles
    have inside := rest.le
    obtain ⟨fuel, rfl⟩ : ∃ k, fuel = k + 1 := ⟨fuel - 1, by omega⟩
    obtain ⟨told, total, fits⟩ := ih rest (show stop ≤ _ + fuel by omega)
    have whole : recName m off = name := spelled.symm
    have all : letters m off = (recName m off).length := by
      have most := letters_le (b := m) (o := off)
      have notLess := mt nul_mem_iff.mpr (whole ▸ noNul)
      rw [recName_length]
      omega
    have len : listLen m off = usLen (ino, name) := by
      rw [listLen_eq, ← recName_length, whole]
      rfl
    rw [recordsFrom_cons (by omega), List.map_cons, told, entryOf, all, List.take_length, whole, inode,
      List.map_cons, List.sum_cons, total, len]
    refine ⟨rfl, rfl, ?_⟩
    intro x mem
    rcases List.mem_cons.mp mem with rfl | mem
    · exact ⟨by omega, inside⟩
    · exact fits x mem

/-- Such a block is a directory's. -/
theorem DirTiles.fits (tiles : DirTiles m off es stop) : ∀ x ∈ recordsFrom m stop fuel off,
    8 ≤ (ext2DirentAt m x).recLen ∧ x + (ext2DirentAt m x).recLen ≤ stop ∧
      8 + (ext2DirentAt m x).nameLen ≤ (ext2DirentAt m x).recLen ∧ (0 : BitVec 8) ∉ recName m x := by
  induction es generalizing off fuel with
  | nil =>
    obtain rfl : off = stop := tiles
    intro x mem
    cases fuel with
    | zero => exact absurd mem List.not_mem_nil
    | succ fuel =>
      have none : recordsFrom m off (fuel + 1) off = [] := if_neg (Nat.lt_irrefl off)
      exact absurd (none ▸ mem) List.not_mem_nil
  | cons e es ih =>
    obtain ⟨ino, name⟩ := e
    obtain ⟨_, spelled, room, noNul, rest⟩ := tiles
    have inside := rest.le
    have length : name.length = (ext2DirentAt m off).nameLen := by
      rw [spelled, List.length_map, List.length_range]
    have whole : recName m off = name := spelled.symm
    intro x mem
    cases fuel with
    | zero => exact absurd mem List.not_mem_nil
    | succ fuel =>
      rw [recordsFrom_cons (by omega)] at mem
      rcases List.mem_cons.mp mem with rfl | mem
      · exact ⟨by omega, inside, by omega, whole ▸ noNul⟩
      · exact ih rest x mem

theorem DirTiles.dirBlock (tiles : DirTiles m 0 es stop) : DirBlock m stop :=
  ⟨fun x mem => ⟨(tiles.fits x mem).1, (tiles.fits x mem).2.1⟩,
    fun x mem _ => (tiles.fits x mem).2.2⟩

/-! ## The two together -/

/-- The kernel's copy of a block has its records. -/
theorem DirTiles.copied {blockSize : Nat} (tiles : DirTiles block 0 es blockSize) (data : Nat) :
    DirTiles (viewAt (memcpyFrom m data block blockSize) data) 0 es blockSize := by
  apply tiles.congr
  intro i lt
  rw [viewAt, memcpyFrom_apply, if_pos (by omega), Nat.add_sub_cancel_left]

/-- A `kmalloc` that returns has found its bytes in the heap's pages. -/
theorem kmalloc_small {s : Clients} {bs : List Block} {p : Nat} {h' : Heap} (served : Served s bs)
    (pos : 0 < n) (fits : n < 2 ^ 63 - 32) (ran : kmalloc s.heap n = .ok (p, h')) : n < heapBytes := by
  rcases kmalloc_spec served.rep served.apart pos fits with ⟨_, msg, failed⟩ | ⟨h₁, bs', b, done, alloc⟩
  · rw [failed] at ran
    cases ran
  · obtain ⟨low, _, high, top⟩ := alloc.rep.bounds alloc.mem
    have size := alloc.size
    simp only [heapBytes, kernelBrkPages, pageSize]
    omega

/-- `ext2_getdents` returns when it gets its buffer and every record is in use: the size of the records
it writes. -/
theorem ext2Getdents_returns {h h₁ : Heap} {data blockSize : Nat}
    (allocated : kmalloc h blockSize = .ok (data, h₁)) (small : blockSize ≤ 2 ^ 20)
    (tiles : DirTiles block 0 es blockSize) (used : ∀ e ∈ es, e.1 ≠ 0) :
    ∃ buf' h', ext2Getdents h blockSize block buf = .ok (usTotal es, buf', h') := by
  obtain ⟨told, total, fits⟩ := (tiles.copied (m := h₁.mem) data).records
    (show blockSize ≤ 0 + blockSize by omega)
  obtain ⟨n, buf', looped⟩ := getdentsLoop_returns small fits (fun o mem =>
    used (entryOf _ o) (told ▸ List.mem_map_of_mem mem)) buf
  have size := (getdentsLoop_listed small looped).2.1.total
  rw [records, total, Nat.zero_add] at size
  subst size
  exact ⟨buf', _, bind_eq_ok.mpr ⟨_, allocated, bind_eq_ok.mpr ⟨_, looped, rfl⟩⟩⟩

/-- What `ls` reads of what it has written, in a buffer that was zero. -/
theorem ext2Getdents_read {h h' : Heap} {blockSize : Nat} (small : blockSize ≤ 2 ^ 20)
    (tiles : DirTiles block 0 es blockSize) (zero : ∀ a < size, buf a = 0)
    (ran : ext2Getdents h blockSize block buf = .ok (n, buf', h')) (enough : n ≤ size) :
    lsRecords buf' size n = .ok (es, n, 0) := by
  obtain ⟨⟨data, h₁⟩, allocated, ran⟩ := bind_eq_ok.mp ran
  obtain ⟨⟨usDoff, written⟩, looped, ran⟩ := bind_eq_ok.mp ran
  cases ran
  obtain ⟨_, listed, reserved⟩ := getdentsLoop_listed small looped
  obtain ⟨told, _⟩ := (tiles.copied (m := h₁.mem) data).records (show blockSize ≤ 0 + blockSize by omega)
  -- the reserved bytes are in the listing, and so they were zero
  have ends := reserved.imp listed fun a _ lt same => same.trans (zero a (by omega))
  rw [← told]
  exact lsRecords_listed listed (by omega) enough ends

/-- **Directory records.** In every reachable state of the heap, for every directory block whose
records tile it, whose names have no NUL and on which `ext2_getdents` returns, and every buffer of
zeros large enough for the result: `ls` reads from it the block's entries, in order, and comes to the
end of the result exactly. -/
theorem getdents_roundTrip (mem : Bytes) (h₀ : Heap) (s : Clients) (blockSize size n : Nat)
    (block buf buf' : Bytes) (h' : Heap) (es : List Entry)
    (init : kmallocInit (unstarted mem) = .ok h₀)
    (reached : Reach Clients.step Clients.Allowed ⟨h₀, []⟩ s) (u32 : blockSize < 2 ^ 32)
    (tiles : DirTiles block 0 es blockSize) (zero : ∀ a < size, buf a = 0)
    (ran : ext2Getdents s.heap blockSize block buf = .ok (n, buf', h')) (enough : n ≤ size) :
    lsRecords buf' size n = .ok (es, n, 0) := by
  obtain ⟨bs, served⟩ := Served.reach init reached
  obtain ⟨⟨data, h⟩, allocated, _⟩ := bind_eq_ok.mp ran
  have pos : 0 < blockSize := by
    apply Nat.pos_of_ne_zero
    rintro rfl
    cases allocated
  have small := kmalloc_small served pos (by omega) allocated
  simp only [heapBytes, kernelBrkPages, pageSize] at small
  exact ext2Getdents_read (by omega) tiles zero ran enough

/-- The block of an empty root directory: `.` and `..`, the second up to the end of the block. -/
def rootBlock : Bytes := fun i =>
  [2, 0, 0, 0, 12, 0, 1, 2, 0x2e, 0, 0, 0, 2, 0, 0, 0, 244, 3, 2, 2, 0x2e, 0x2e].getD i 0

/-- That block has 1024 bytes and two records, and `ls` reads both from a buffer of 256 bytes. -/
theorem getdents_roundTrip_root : ∃ h₀ buf' h',
    kmallocInit (unstarted fun _ => 0) = .ok h₀ ∧
      ext2Getdents h₀ 1024 rootBlock (fun _ => 0) = .ok (21, buf', h') ∧
      lsRecords buf' 256 21 = .ok ([(2, [0x2e]), (2, [0x2e, 0x2e])], 21, 0) := by
  obtain ⟨h₀, init, rep⟩ := kmallocInit_spec fun _ => 0
  have served := Served.start init
  have tiles : DirTiles rootBlock 0 [(2, [0x2e]), (2, [0x2e, 0x2e])] 1024 := by
    refine ⟨rfl, rfl, by decide, by decide, rfl, rfl, by decide, by decide, rfl⟩
  rcases kmalloc_spec served.rep served.apart (show 0 < 1024 by decide) (by decide) with
    ⟨none, _⟩ | ⟨h₁, _, b, allocated, _⟩
  · exact absurd ⟨rfl, .inr (by decide)⟩ (none _ List.mem_cons_self)
  · obtain ⟨buf', h', ran⟩ := ext2Getdents_returns allocated (by decide) tiles
      (by decide)
    exact ⟨h₀, buf', h', init, ran, getdents_roundTrip (fun _ => 0) h₀ ⟨h₀, []⟩ 1024 256 21 rootBlock
      (fun _ => 0) buf' h' _ init .start (by decide) tiles (fun _ _ => rfl) ran (by decide)⟩

/-! ## The whole way -/

end Blackcomb.Fs
