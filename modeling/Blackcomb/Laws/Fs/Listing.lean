import Blackcomb.Laws.Fs.Namei
import Blackcomb.Laws.Fs.Rounds

/-!
# Listings

What the `while` of `ext2_getdents` leaves in the buffer when it ends, and what `ls` reads from there. A
listing has the records of the block in order, each with its number, its length and its name up to the
first NUL. The byte that is reserved behind a name without a NUL is not written, so it is what it was
before, and the name that is read goes on there until a NUL comes.

**What it does not establish.** Whether the user's buffer has room for a listing is in `Rounds`: the
loop does not ask.
-/

namespace Blackcomb.Fs

open Memory Mm Drivers Walk

variable {b buf buf' : Bytes} {us stop size o fuel off : Nat} {os : List Nat}

/-! ## Layout -/

/-- The records of the block stand one after the other in the buffer, from one place to another. -/
def ListedAll (b buf : Bytes) : Nat → List Nat → Nat → Prop
  | us, [], stop => us = stop
  | us, o :: os, stop => ListedAt b buf us o ∧ ListedAll b buf (us + listLen b o) os stop

/-- The bytes that are reserved behind names without a NUL. -/
def Reserved (b : Bytes) (P : Nat → Prop) : Nat → List Nat → Prop
  | _, [] => True
  | us, o :: os => (letters b o = (ext2DirentAt b o).nameLen → P (us + sizeofDirent + letters b o)) ∧
    Reserved b P (us + listLen b o) os

theorem listLen_eq (b : Bytes) (o : Nat) : listLen b o = 8 + (ext2DirentAt b o).nameLen + 1 := rfl

/-- A listing's records take some bytes each, and not many. -/
theorem ListedAll.few (listed : ListedAll b buf us os stop) : stop ≤ us + 264 * os.length := by
  induction os generalizing us with
  | nil => exact Nat.le_of_eq (Eq.symm listed)
  | cons o os ih =>
    have later := ih listed.2
    have short := nameLen_lt b o
    rw [listLen_eq] at later
    rw [List.length_cons]
    omega

/-- It is as long as its records together. -/
theorem ListedAll.total (listed : ListedAll b buf us os stop) : stop = us + (os.map (listLen b)).sum := by
  induction os generalizing us with
  | nil => exact Eq.symm listed
  | cons o os ih => rw [ih listed.2, List.map_cons, List.sum_cons, Nat.add_assoc]

theorem ListedAll.le (listed : ListedAll b buf us os stop) : us ≤ stop := by
  induction os generalizing us with
  | nil => exact Nat.le_of_eq listed
  | cons o os ih => exact Nat.le_of_add_right_le (ih listed.2)

/-- A record stands in its own bytes. -/
theorem ListedAt.congr (listed : ListedAt b buf us o)
    (same : ∀ a, us ≤ a → a < us + listLen b o → buf' a = buf a) : ListedAt b buf' us o := by
  have few : copied b o ≤ (ext2DirentAt b o).nameLen := Nat.min_le_right _ _
  simp only [listLen, sizeofDirent] at same
  refine ⟨?_, ?_, fun i lt => ?_⟩
  · rw [← listed.ino]
    exact load_congr fun a low high => same a low (by omega)
  · rw [← listed.recLen]
    exact load_congr fun a low high => same a (by omega) (by omega)
  · rw [← listed.name i lt]
    simp only [sizeofDirent]
    exact same _ (by omega) (by omega)

/-- The reserved bytes are in the listing. -/
theorem Reserved.imp {P Q : Nat → Prop} (reserved : Reserved b P us os)
    (listed : ListedAll b buf us os stop) (more : ∀ a, us ≤ a → a < stop → P a → Q a) :
    Reserved b Q us os := by
  induction os generalizing us with
  | nil => trivial
  | cons o os ih =>
    obtain ⟨here, later⟩ := reserved
    have le := listed.2.le
    have most := letters_le (b := b) (o := o)
    rw [listLen_eq] at le
    refine ⟨fun whole => more _ (by omega) (by simp only [sizeofDirent]; omega) (here whole),
      ih later listed.2 ?_⟩
    exact fun a low => more a (by omega)

/-- A round for each record. -/
theorem recordsFrom_length_le (b : Bytes) (stop fuel o : Nat) :
    (recordsFrom b stop fuel o).length ≤ fuel := by
  induction fuel generalizing o with
  | zero => exact Nat.le_refl 0
  | succ fuel ih =>
    rw [recordsFrom]
    split
    · exact Nat.succ_le_succ (ih _)
    · exact Nat.zero_le _

theorem recordsFrom_cons (lt : o < stop) : recordsFrom b stop (fuel + 1) o =
    o :: recordsFrom b stop fuel (o + (ext2DirentAt b o).recLen) := if_pos lt

/-- **The listing.** Where the walk ends, every record is in use and stands in the buffer; what was before
them in the buffer is still there, and so are the reserved bytes. -/
theorem stopsAt_listed {s : Dents} (word : stop ≤ 2 ^ 20) (few : us + 264 * fuel < 2 ^ 32)
    (stops : stopsAt (getdentsRound b) (Dents.Within stop) fuel ⟨o, us, buf⟩ = some s) :
    (∀ x ∈ recordsFrom b stop fuel o, Live b x) ∧
      ListedAll b s.buf us (recordsFrom b stop fuel o) s.usDoff ∧ (∀ a < us, s.buf a = buf a) ∧
      Reserved b (fun a => s.buf a = buf a) us (recordsFrom b stop fuel o) := by
  induction fuel generalizing o us buf with
  | zero =>
    rw [stopsAt] at stops
    split at stops
    · cases stops
    · cases stops
      exact ⟨fun _ mem => absurd mem List.not_mem_nil, rfl, fun _ _ => rfl, trivial⟩
  | succ fuel ih =>
    by_cases lt : o < stop
    · have within : Dents.Within stop ⟨o, us, buf⟩ := lt
      by_cases used : Live b o
      · have step : (ext2DirentAt b o).recLen < 2 ^ 16 := load_lt b _ 2
        have short := nameLen_lt b o
        have len := listLen_eq b o
        have most : copied b o ≤ (ext2DirentAt b o).nameLen := Nat.min_le_right _ _
        obtain ⟨here, kept⟩ := writeDirent_listed buf b us o
        rw [stopsAt, if_pos within, getdentsRound_used used] at stops
        dsimp only at stops
        rw [Nat.mod_eq_of_lt (show o + (ext2DirentAt b o).recLen < 2 ^ 32 by omega),
          Nat.mod_eq_of_lt (show us + listLen b o < 2 ^ 32 by omega)] at stops
        obtain ⟨live, listed, before, reserved⟩ := ih (by omega) stops
        rw [recordsFrom_cons lt]
        refine ⟨?_, ⟨here.congr fun a low high => before a high, listed⟩, ?_, ?_, ?_⟩
        · intro x mem
          rcases List.mem_cons.mp mem with rfl | mem
          · exact used
          · exact live x mem
        · intro a less
          rw [before a (by omega), kept a (.inl less)]
        · intro whole
          -- the name goes up to the reserved byte, which is behind all that is copied
          rw [before _ (by simp only [sizeofDirent]; omega)]
          exact kept _ (.inr (by omega))
        · apply reserved.imp listed
          intro a low _ same
          rw [same]
          exact kept a (.inr (by simp only [sizeofDirent]; omega))
      · rw [stopsAt_of_fixed within (getdentsRound_unused used)] at stops
        cases stops
    · rw [stopsAt_of_done (show ¬ Dents.Within stop ⟨o, us, buf⟩ from lt)] at stops
      cases stops
      have none : recordsFrom b stop (fuel + 1) o = [] := if_neg lt
      rw [none]
      exact ⟨fun _ mem => absurd mem List.not_mem_nil, rfl, fun _ _ => rfl, trivial⟩

/-! ## Where it ends -/

/-- The lengths of a block's records are positive multiples of 4, and the records tile it. -/
def Tiled (b : Bytes) (stop : Nat) : Prop := ∀ o ∈ records b stop,
  0 < (ext2DirentAt b o).recLen ∧ 4 ∣ (ext2DirentAt b o).recLen ∧ o + (ext2DirentAt b o).recLen ≤ stop

/-- With a round for every byte, the walk ends if every record is in use and none has no length. -/
theorem stopsAt_of_used (word : stop ≤ 2 ^ 20) (enough : stop ≤ o + fuel)
    (fits : ∀ x ∈ recordsFrom b stop fuel o,
      0 < (ext2DirentAt b x).recLen ∧ x + (ext2DirentAt b x).recLen ≤ stop)
    (used : ∀ x ∈ recordsFrom b stop fuel o, Live b x) (us : Nat) (buf : Bytes) :
    ∃ s, stopsAt (getdentsRound b) (Dents.Within stop) fuel ⟨o, us, buf⟩ = some s := by
  induction fuel generalizing o us buf with
  | zero =>
    have done : ¬ Dents.Within stop ⟨o, us, buf⟩ := show ¬ o < stop by omega
    exact ⟨_, stopsAt_of_done done 0⟩
  | succ fuel ih =>
    by_cases lt : o < stop
    · have within : Dents.Within stop ⟨o, us, buf⟩ := lt
      rw [recordsFrom_cons lt] at fits used
      obtain ⟨advances, inside⟩ := fits o List.mem_cons_self
      rw [stopsAt, if_pos within, getdentsRound_used (used o List.mem_cons_self)]
      dsimp only
      rw [Nat.mod_eq_of_lt (show o + (ext2DirentAt b o).recLen < 2 ^ 32 by omega)]
      exact ih (by omega) (fun x mem => fits x (List.mem_cons_of_mem o mem))
        (fun x mem => used x (List.mem_cons_of_mem o mem)) _ _
    · exact ⟨_, stopsAt_of_done (show ¬ Dents.Within stop ⟨o, us, buf⟩ from lt) _⟩

/-- A loop that ends has met no unused record. -/
theorem getdentsLoop_listed {m : Bytes} {data n : Nat} (word : stop ≤ 2 ^ 20)
    (ran : getdentsLoop m data stop stop 0 0 buf = .ok (n, buf')) :
    (∀ o ∈ records (viewAt m data) stop, Live (viewAt m data) o) ∧
      ListedAll (viewAt m data) buf' 0 (records (viewAt m data) stop) n ∧
      Reserved (viewAt m data) (fun a => buf' a = buf a) 0 (records (viewAt m data) stop) := by
  have walk := getdentsLoop_eq m data stop stop ⟨0, 0, buf⟩
  dsimp only at walk
  rw [walk] at ran
  cases stops : stopsAt (getdentsRound (viewAt m data)) (Dents.Within stop) stop ⟨0, 0, buf⟩ with
  | none =>
    rw [stops] at ran
    cases ran
  | some s =>
    rw [stops] at ran
    cases ran
    obtain ⟨used, listed, _, reserved⟩ := stopsAt_listed word (by omega) stops
    exact ⟨used, listed, reserved⟩

/-- With every record in use, and none without a length, it ends. -/
theorem getdentsLoop_returns {m : Bytes} {data : Nat} (word : stop ≤ 2 ^ 20)
    (fits : ∀ o ∈ records (viewAt m data) stop, 0 < (ext2DirentAt (viewAt m data) o).recLen ∧
      o + (ext2DirentAt (viewAt m data) o).recLen ≤ stop)
    (used : ∀ o ∈ records (viewAt m data) stop, Live (viewAt m data) o) (buf : Bytes) :
    ∃ n buf', getdentsLoop m data stop stop 0 0 buf = .ok (n, buf') := by
  have walk := getdentsLoop_eq m data stop stop ⟨0, 0, buf⟩
  obtain ⟨s, stops⟩ := stopsAt_of_used word (show stop ≤ 0 + stop by omega) fits used 0 buf
  rw [stops] at walk
  exact ⟨_, _, walk⟩

/-- What is returned is what the loop returns. -/
theorem ext2GetdentsFile_loop {disk : Bytes} {h h₁ h' : Heap} {rootfs : Ext2Fs}
    {inBuf ino count data n : Nat} (read : getdentsRead disk h rootfs inBuf ino = .ok (data, h₁))
    (ran : ext2GetdentsFile disk h rootfs inBuf ino buf count = .ok (n, buf', h')) :
    getdentsLoop h₁.mem data rootfs.blockSize rootfs.blockSize 0 0 buf = .ok (n, buf') := by
  obtain ⟨⟨data', h''⟩, read', ran⟩ := bind_eq_ok.mp ran
  obtain ⟨⟨usDoff, written⟩, looped, ran⟩ := bind_eq_ok.mp ran
  cases read.symm.trans read'
  cases ran
  exact looped

/-- **Listing a directory.** For every directory whose first block is tiled by its records, and every
buffer: `ext2_getdents` returns with a listing of the records in use, in the block's order, exactly when
there are no others. -/
theorem ext2Getdents_listed_iff (disk : Bytes) (h h₁ : Heap) (rootfs : Ext2Fs)
    (inBuf ino count data k : Nat) (buf : Bytes) (small : k ≤ 6)
    (blocks : rootfs.blockSize = 1024 <<< k)
    (read : getdentsRead disk h rootfs inBuf ino = .ok (data, h₁))
    (tiled : Tiled (viewAt h₁.mem data) rootfs.blockSize) :
    (∃ n buf' h', ext2GetdentsFile disk h rootfs inBuf ino buf count = .ok (n, buf', h') ∧
      ListedAll (viewAt h₁.mem data) buf' 0
        ((records (viewAt h₁.mem data) rootfs.blockSize).filter fun o => Live (viewAt h₁.mem data) o)
        n) ↔
    ∀ o ∈ records (viewAt h₁.mem data) rootfs.blockSize, Live (viewAt h₁.mem data) o := by
  obtain ⟨quarter, _, high⟩ := ptrs_range small blocks
  have word : rootfs.blockSize ≤ 2 ^ 20 := by omega
  constructor
  · rintro ⟨n, buf', h', ran, _⟩
    exact (getdentsLoop_listed word (ext2GetdentsFile_loop read ran)).1
  · intro used
    obtain ⟨n, buf', looped⟩ := getdentsLoop_returns word
      (fun o mem => ⟨(tiled o mem).1, (tiled o mem).2.2⟩) used buf
    have all : (records (viewAt h₁.mem data) rootfs.blockSize).filter
        (fun o => Live (viewAt h₁.mem data) o) = records (viewAt h₁.mem data) rootfs.blockSize :=
      List.filter_eq_self.mpr fun o mem => decide_eq_true (used o mem)
    rw [all]
    exact ⟨n, buf', _, bind_eq_ok.mpr ⟨_, read, bind_eq_ok.mpr ⟨_, looped, rfl⟩⟩,
      (getdentsLoop_listed word looped).2.1⟩

/-- A copy of a block has the block's records. -/
theorem recordsFrom_copy {b' : Bytes} (same : ∀ i < stop, b' i = b i)
    (fits : ∀ x ∈ recordsFrom b stop fuel o,
      8 ≤ (ext2DirentAt b x).recLen ∧ x + (ext2DirentAt b x).recLen ≤ stop) :
    recordsFrom b' stop fuel o = recordsFrom b stop fuel o ∧
      ∀ x ∈ recordsFrom b stop fuel o, ext2DirentAt b' x = ext2DirentAt b x := by
  have copy : ∀ i < stop, b' (0 + i) = b i := fun i lt => (congrArg b' (Nat.zero_add i)).trans (same i lt)
  have header : ∀ x ∈ recordsFrom b stop fuel o, ext2DirentAt b' x = ext2DirentAt b x := by
    intro x mem
    obtain ⟨long, inside⟩ := fits x mem
    exact (congrArg _ (Nat.zero_add x)).symm.trans (direntAt_copy copy (by omega))
  refine ⟨?_, header⟩
  induction fuel generalizing o with
  | zero => rfl
  | succ fuel ih =>
    by_cases lt : o < stop
    · rw [recordsFrom_cons lt] at fits header ⊢
      rw [recordsFrom_cons lt, header o List.mem_cons_self, ih
        (fun x mem => fits x (List.mem_cons_of_mem o mem)) fun x mem =>
          header x (List.mem_cons_of_mem o mem)]
    · exact (if_neg lt).trans (if_neg lt).symm

theorem DirBlock.copy {b' : Bytes} (dir : DirBlock b stop) (same : ∀ i < stop, b' i = b i) :
    records b' stop = records b stop ∧
      ∀ x ∈ records b stop, ext2DirentAt b' x = ext2DirentAt b x :=
  recordsFrom_copy same dir.fits

/-- A copy of a record in the block has the record's name. -/
theorem recName_copy {b' : Bytes} (same : ∀ i < stop, b' i = b i)
    (inside : o + 8 + (ext2DirentAt b o).nameLen ≤ stop) : recName b' o = recName b o := by
  have copy : ∀ i < stop, b' (0 + i) = b i := fun i lt => (congrArg b' (Nat.zero_add i)).trans (same i lt)
  have header : ext2DirentAt b' o = ext2DirentAt b o :=
    (congrArg _ (Nat.zero_add o)).symm.trans (direntAt_copy copy (by omega))
  rw [recName, recName, header, ← bytesAt_copy copy inside, Nat.zero_add]

/-- As much of it is copied to a listing. -/
theorem copied_copy {b' : Bytes} (same : ∀ i < stop, b' i = b i)
    (header : ext2DirentAt b' o = ext2DirentAt b o)
    (inside : o + 8 + (ext2DirentAt b o).nameLen ≤ stop) : copied b' o = copied b o := by
  rw [copied, copied, letters, letters, recName_copy same inside, header]

theorem Tiled.copy {b' : Bytes} (tiled : Tiled b stop) (dir : DirBlock b stop)
    (same : ∀ i < stop, b' i = b i) : Tiled b' stop := by
  obtain ⟨list, header⟩ := dir.copy same
  intro x mem
  rw [list] at mem
  rw [header x mem]
  exact tiled x mem

/-- The small root directory, in which every record is in use, is listed whole. -/
theorem ext2Getdents_listed_iff_root : ∃ (s : Clients) (p data n : Nat) (h₁ : Heap) (buf' : Bytes)
    (h' : Heap), ext2GetdentsFile twoGroups s.heap (twoGroupsFs p) 4096 2 (fun _ => 0) 256 =
        .ok (n, buf', h') ∧ ListedAll (viewAt h₁.mem data) buf' 0 [0, 12, 24, 36] n := by
  obtain ⟨s, p, data, h₁, read, bytes⟩ := root_read twoGroups (by decide)
  have same : ∀ i < 1024, viewAt h₁.mem data i = twoGroupsDir i := bytes
  obtain ⟨list, header⟩ := twoGroupsDir_block.copy same
  have tiled : Tiled twoGroupsDir 1024 := by
    unfold Tiled
    rw [twoGroupsDir_records]
    decide
  have used : ∀ o ∈ records twoGroupsDir 1024, Live twoGroupsDir o := by
    rw [twoGroupsDir_records]
    decide
  have live : ∀ o ∈ records (viewAt h₁.mem data) 1024, Live (viewAt h₁.mem data) o := by
    intro o mem
    rw [list] at mem
    rw [Live, header o mem]
    exact used o mem
  obtain ⟨n, buf', h', ran, listed⟩ := (ext2Getdents_listed_iff twoGroups s.heap h₁ (twoGroupsFs p) 4096 2
    256 data 0 (fun _ => 0) (by decide) rfl read (tiled.copy twoGroupsDir_block same)).mpr live
  refine ⟨s, p, data, n, h₁, buf', h', ran, ?_⟩
  have all := List.filter_eq_self.mpr fun o mem => decide_eq_true (live o mem)
  rw [← twoGroupsDir_records, ← list, ← all]
  exact listed

/-- The small image, from whose root directory the entry `a` has been removed. -/
def oneRemoved : Bytes := Function.update twoGroups 47128 0

/-- Its root directory is tiled and has an unused record, and its listing does not end. -/
theorem ext2Getdents_removed : ∃ (s : Clients) (p data : Nat) (h₁ : Heap),
    getdentsRead oneRemoved s.heap (twoGroupsFs p) 4096 2 = .ok (data, h₁) ∧
      Tiled (viewAt h₁.mem data) 1024 ∧ records (viewAt h₁.mem data) 1024 = [0, 12, 24, 36] ∧
      ¬ ∃ n buf' h', ext2GetdentsFile oneRemoved s.heap (twoGroupsFs p) 4096 2 (fun _ => 0) 256 =
        .ok (n, buf', h') ∧ ListedAll (viewAt h₁.mem data) buf' 0
          ((records (viewAt h₁.mem data) 1024).filter fun o => Live (viewAt h₁.mem data) o) n := by
  obtain ⟨s, p, data, h₁, read, bytes⟩ := root_read oneRemoved (by decide)
  have those : records (fun i => oneRemoved (47104 + i)) 1024 = [0, 12, 24, 36] := by decide
  have dir : DirBlock (fun i => oneRemoved (47104 + i)) 1024 := by
    constructor
    case fits =>
      rw [those]
      decide
    case named =>
      rw [those]
      decide
  have tiled : Tiled (fun i => oneRemoved (47104 + i)) 1024 := by
    unfold Tiled
    rw [those]
    decide
  obtain ⟨list, header⟩ := dir.copy bytes
  refine ⟨s, p, data, h₁, read, tiled.copy dir bytes, list.trans those, ?_⟩
  rintro ⟨n, buf', h', ran, _⟩
  have third : 24 ∈ records (fun i => oneRemoved (47104 + i)) 1024 := by
    rw [those]
    decide
  have used := (getdentsLoop_listed (show 1024 ≤ 2 ^ 20 by decide) (ext2GetdentsFile_loop read ran)).1
  rw [list] at used
  have live := used 24 third
  rw [Live, header 24 third] at live
  exact absurd live (by decide)

/-! ## What is read -/

/-- What is told of a directory entry: its inode and its name. -/
abbrev Entry := Nat × List (BitVec 8)

/-- What a record tells, with its name up to the first NUL. -/
def entryOf (b : Bytes) (o : Nat) : Entry :=
  ((ext2DirentAt b o).inode, (recName b o).take (letters b o))

/-- `strlen` of a string that ends in the buffer. -/
theorem strlenFrom_eq {s c len n : Nat} (letters : ∀ i < len, buf (s + i) ≠ 0)
    (nul : buf (s + len) = 0) (inside : s + len < size) (before : c ≤ len) (enough : len < c + n) :
    strlenFrom buf size s c n = .ok len := by
  induction n generalizing c with
  | zero => omega
  | succ n ih =>
    rw [strlenFrom, if_neg (by omega)]
    by_cases last : c = len
    · rw [last, if_pos nul]
    · rw [if_neg (letters c (by omega))]
      exact ih (by omega) (by omega)

/-- `strlen` ends at a NUL. -/
theorem strlenFrom_nul {s c len n : Nat} (ran : strlenFrom buf size s c n = .ok len) :
    buf (s + len) = 0 := by
  induction n generalizing c with
  | zero => cases ran
  | succ n ih =>
    rw [strlenFrom] at ran
    split at ran
    · cases ran
    split at ran
    · rename_i nul
      cases ran
      exact nul
    · exact ih ran

/-- A round of the user's loop at a record that stands in a listing. -/
theorem lsLoop_round {sz : Int} (listed : ListedAt b buf us o) (more : 0 < sz)
    (inside : us + sizeofDirent ≤ size) (fuel : Nat) : lsLoop buf size (fuel + 1) us sz =
      strlen buf size (us + sizeofDirent) >>= fun c =>
        lsLoop buf size fuel (us + listLen b o) (sz - listLen b o) >>= fun r =>
          .ok (((ext2DirentAt b o).inode, (List.range c).map fun i => buf (us + sizeofDirent + i)) :: r.1,
            r.2) := by
  have short := nameLen_lt b o
  have fits : ¬ 2 ^ 31 ≤ listLen b o := by
    simp only [listLen, sizeofDirent]
    omega
  rw [lsLoop, if_pos more, if_neg (Nat.not_lt.mpr inside), listed.ino, listed.recLen]
  simp only [if_neg fits]
  rfl

/-- **The user's loop.** From a listing whose names end where their letters do, it reads the records, and it
ends where they end, with nothing left of the size. -/
theorem lsLoop_listed (listed : ListedAll b buf us os stop) (inside : stop ≤ size)
    (ends : Reserved b (fun a => buf a = 0) us os) (enough : stop ≤ us + fuel) :
    lsLoop buf size fuel us (stop - us : Nat) = .ok (os.map (entryOf b), stop, 0) := by
  induction os generalizing us fuel with
  | nil =>
    obtain rfl : us = stop := listed
    rw [Nat.sub_self]
    cases fuel with
    | zero => rfl
    | succ fuel => rfl
  | cons o os ih =>
    obtain ⟨here, rest⟩ := listed
    obtain ⟨reserved, ends⟩ := ends
    have le := rest.le
    have len := listLen_eq b o
    have head : sizeofDirent = 8 := rfl
    obtain ⟨before, nul⟩ := letters_spec (b := b) (o := o)
    have most := letters_le (b := b) (o := o)
    obtain ⟨fuel, rfl⟩ : ∃ k, fuel = k + 1 := ⟨fuel - 1, by omega⟩
    have letter : ∀ i < letters b o, buf (us + sizeofDirent + i) = b (o + 8 + i) :=
      fun i lt => here.name i (by rw [copied]; omega)
    have last : buf (us + sizeofDirent + letters b o) = 0 := by
      by_cases whole : letters b o = (ext2DirentAt b o).nameLen
      · exact reserved whole
      · rw [here.name _ (by rw [copied]; omega)]
        exact nul (by omega)
    have name : strlen buf size (us + sizeofDirent) = .ok (letters b o) :=
      strlenFrom_eq (fun i lt => letter i lt ▸ before i lt) last (by omega) (Nat.zero_le _) (by omega)
    have spelled : (List.range (letters b o)).map (fun i => buf (us + sizeofDirent + i)) =
        (recName b o).take (letters b o) := by
      rw [recName, bytesAt_take most]
      exact List.map_congr_left fun i mem => letter i (List.mem_range.mp mem)
    have left : ((stop - us : Nat) : Int) - (listLen b o : Nat) = (stop - (us + listLen b o) : Nat) := by
      omega
    rw [lsLoop_round here (by omega) (by omega), name, ok_bind, left, ih rest ends (by omega), ok_bind,
      spelled, List.map_cons, entryOf]

/-- What `ls` makes of a whole listing. -/
theorem lsRecords_listed {n fuel : Nat} (listed : ListedAll b buf 0 (recordsFrom b stop fuel o) n)
    (small : fuel ≤ 2 ^ 20) (inside : n ≤ size)
    (ends : Reserved b (fun a => buf a = 0) 0 (recordsFrom b stop fuel o)) :
    lsRecords buf size n = .ok ((recordsFrom b stop fuel o).map (entryOf b), n, 0) := by
  have few := listed.few
  have length := recordsFrom_length_le b stop fuel o
  rw [lsRecords, if_pos (by omega)]
  exact lsLoop_listed listed inside ends (by omega)

/-- Where the reserved bytes are no NUL, no name without one is read at its length. -/
theorem lsLoop_goes_on {es : List Entry} {rest : Nat × Int} (listed : ListedAll b buf us os stop)
    (inside : stop ≤ size) (stale : Reserved b (fun a => buf a ≠ 0) us os)
    (ran : lsLoop buf size fuel us (stop - us : Nat) = .ok (es, rest)) :
    List.Forall₂ (fun o e => letters b o = (ext2DirentAt b o).nameLen →
      e.2.length ≠ (ext2DirentAt b o).nameLen) os es := by
  induction os generalizing us fuel es rest with
  | nil =>
    obtain rfl : us = stop := listed
    rw [Nat.sub_self] at ran
    cases fuel with
    | zero =>
      cases ran
      exact .nil
    | succ fuel =>
      cases ran
      exact .nil
  | cons o os ih =>
    obtain ⟨here, later⟩ := listed
    obtain ⟨reserved, stale⟩ := stale
    have le := later.le
    have len := listLen_eq b o
    have head : sizeofDirent = 8 := rfl
    cases fuel with
    | zero =>
      rw [lsLoop, if_pos (by omega)] at ran
      cases ran
    | succ fuel =>
      have left : ((stop - us : Nat) : Int) - (listLen b o : Nat) = (stop - (us + listLen b o) : Nat) := by
        omega
      rw [lsLoop_round here (by omega) (by omega), left] at ran
      obtain ⟨c, length, ran⟩ := bind_eq_ok.mp ran
      obtain ⟨⟨es, rest⟩, others, ran⟩ := bind_eq_ok.mp ran
      cases ran
      refine .cons (fun whole same => ?_) (ih later stale others)
      rw [List.length_map, List.length_range] at same
      apply reserved whole
      rw [whole, ← same]
      exact strlenFrom_nul length

/-! ## Stale bytes -/

/-- The records that `ls` reads from a buffer. -/
def decoded (buf : Bytes) (size n : Nat) : Except Fault (List Entry) :=
  (lsRecords buf size n).map Prod.fst

/-- Whether `ext2_getdents` returns, and what, does not depend on the buffer. -/
theorem ext2GetdentsFile_any {disk : Bytes} {h h₁ h' : Heap} {rootfs : Ext2Fs}
    {inBuf ino count data n : Nat} (read : getdentsRead disk h rootfs inBuf ino = .ok (data, h₁))
    (ran : ext2GetdentsFile disk h rootfs inBuf ino buf count = .ok (n, buf', h')) (other : Bytes) :
    ∃ out f, ext2GetdentsFile disk h rootfs inBuf ino other count = .ok (n, out, f) :=
  (ext2GetdentsFile_returns_iff read other count).mpr
    ((ext2GetdentsFile_returns_iff read buf count).mp ⟨buf', h', ran⟩)

/-- Where every name has a NUL, no byte is reserved. -/
theorem Reserved.of_nul (nul : ∀ o ∈ os, (0 : BitVec 8) ∈ recName b o) (P : Nat → Prop) (us : Nat) :
    Reserved b P us os := by
  induction os generalizing us with
  | nil => trivial
  | cons o os ih =>
    refine ⟨fun whole => ?_, ih (fun x mem => nul x (List.mem_cons_of_mem o mem)) _⟩
    have less := nul_mem_iff.mp (nul o List.mem_cons_self)
    omega

section Stale

variable {disk : Bytes} {h h₁ h' : Heap} {rootfs : Ext2Fs} {inBuf ino count data n : Nat}

/-- With a NUL in every reserved byte, `ls` reads the records with their names up to the first NUL. -/
theorem decoded_listed (read : getdentsRead disk h rootfs inBuf ino = .ok (data, h₁))
    (word : rootfs.blockSize ≤ 2 ^ 20)
    (ran : ext2GetdentsFile disk h rootfs inBuf ino buf count = .ok (n, buf', h')) (enough : n ≤ size)
    (ends : Reserved (viewAt h₁.mem data) (fun a => buf' a = 0) 0
      (records (viewAt h₁.mem data) rootfs.blockSize)) :
    decoded buf' size n =
      .ok ((records (viewAt h₁.mem data) rootfs.blockSize).map (entryOf (viewAt h₁.mem data))) := by
  have listed := (getdentsLoop_listed word (ext2GetdentsFile_loop read ran)).2.1
  rw [decoded, lsRecords_listed listed word enough ends]
  rfl

/-- With none, it does not read a name that has no NUL at its length. -/
theorem decoded_goes_on (read : getdentsRead disk h rootfs inBuf ino = .ok (data, h₁))
    (word : rootfs.blockSize ≤ 2 ^ 20)
    (ran : ext2GetdentsFile disk h rootfs inBuf ino buf count = .ok (n, buf', h')) (enough : n ≤ size)
    (stale : Reserved (viewAt h₁.mem data) (fun a => buf' a ≠ 0) 0
      (records (viewAt h₁.mem data) rootfs.blockSize))
    (same : decoded buf' size n =
      .ok ((records (viewAt h₁.mem data) rootfs.blockSize).map (entryOf (viewAt h₁.mem data)))) :
    ∀ o ∈ records (viewAt h₁.mem data) rootfs.blockSize,
      (0 : BitVec 8) ∈ recName (viewAt h₁.mem data) o := by
  have listed := (getdentsLoop_listed word (ext2GetdentsFile_loop read ran)).2.1
  have few := listed.few
  have length : (records (viewAt h₁.mem data) rootfs.blockSize).length ≤ rootfs.blockSize :=
    recordsFrom_length_le _ _ _ _
  rw [decoded] at same
  cases met : lsRecords buf' size n with
  | error e =>
    rw [met] at same
    cases same
  | ok r =>
    rw [met] at same
    have told := Except.ok.inj same
    rw [lsRecords, if_pos (by omega)] at met
    have longer := lsLoop_goes_on listed enough stale met
    rw [told, List.forall₂_map_right_iff, List.forall₂_same] at longer
    intro o mem
    by_contra noNul
    have most := letters_le (b := viewAt h₁.mem data) (o := o)
    have whole := mt nul_mem_iff.mpr noNul
    apply longer o mem (by omega)
    rw [entryOf, List.length_take, recName_length]
    omega

/-- What is promised of `ext2_getdents` and a buffer of `size` bytes: what `ls` reads from it does not
depend on what was in it. -/
def Fresh (disk : Bytes) (h : Heap) (rootfs : Ext2Fs) (inBuf ino count size : Nat) : Prop :=
  ∀ buf₁ buf₂ n₁ n₂ out₁ out₂ f₁ f₂,
    ext2GetdentsFile disk h rootfs inBuf ino buf₁ count = .ok (n₁, out₁, f₁) →
    ext2GetdentsFile disk h rootfs inBuf ino buf₂ count = .ok (n₂, out₂, f₂) →
    decoded out₁ size n₁ = decoded out₂ size n₂

/-- A buffer of zeros and a buffer of ones tell the names without a NUL. -/
theorem Fresh.nul (fresh : Fresh disk h rootfs inBuf ino count size)
    (read : getdentsRead disk h rootfs inBuf ino = .ok (data, h₁)) (word : rootfs.blockSize ≤ 2 ^ 20)
    (ran : ext2GetdentsFile disk h rootfs inBuf ino buf count = .ok (n, buf', h'))
    (enough : n ≤ size) : ∀ o ∈ records (viewAt h₁.mem data) rootfs.blockSize,
      (0 : BitVec 8) ∈ recName (viewAt h₁.mem data) o := by
  obtain ⟨zeros, f₁, ran₁⟩ := ext2GetdentsFile_any read ran fun _ => 0
  obtain ⟨ones, f₂, ran₂⟩ := ext2GetdentsFile_any read ran fun _ => 1
  obtain ⟨_, _, ends⟩ := getdentsLoop_listed word (ext2GetdentsFile_loop read ran₁)
  obtain ⟨_, listed, kept⟩ := getdentsLoop_listed word (ext2GetdentsFile_loop read ran₂)
  have stale := kept.imp listed (Q := fun a => ones a ≠ 0) fun a _ _ same zero =>
    absurd (same.symm.trans zero) (by decide)
  apply decoded_goes_on read word ran₂ enough stale
  exact (fresh _ _ _ _ _ _ _ _ ran₁ ran₂).symm.trans (decoded_listed read word ran₁ enough ends)

/-- **Stale bytes.** For every directory on which `ext2_getdents` returns, and every size of a buffer that
has room for the result: what `ls` reads does not depend on what was in the buffer before exactly when every
record that is listed has a NUL among the bytes of its name. -/
theorem ext2Getdents_fresh_iff (disk : Bytes) (h h₁ h' : Heap) (rootfs : Ext2Fs)
    (inBuf ino count size data n k : Nat) (buf buf' : Bytes) (small : k ≤ 6)
    (blocks : rootfs.blockSize = 1024 <<< k)
    (read : getdentsRead disk h rootfs inBuf ino = .ok (data, h₁))
    (ran : ext2GetdentsFile disk h rootfs inBuf ino buf count = .ok (n, buf', h'))
    (enough : n ≤ size) : Fresh disk h rootfs inBuf ino count size ↔
      ∀ o ∈ records (viewAt h₁.mem data) rootfs.blockSize,
        (0 : BitVec 8) ∈ recName (viewAt h₁.mem data) o := by
  obtain ⟨quarter, _, high⟩ := ptrs_range small blocks
  have word : rootfs.blockSize ≤ 2 ^ 20 := by omega
  constructor
  · exact fun fresh => fresh.nul read word ran enough
  · intro nul buf₁ buf₂ n₁ n₂ out₁ out₂ f₁ f₂ ran₁ ran₂
    obtain ⟨_, f, again₁⟩ := ext2GetdentsFile_any read ran buf₁
    obtain ⟨_, f, again₂⟩ := ext2GetdentsFile_any read ran buf₂
    cases ran₁.symm.trans again₁
    cases ran₂.symm.trans again₂
    exact (decoded_listed read word ran₁ enough (.of_nul nul _ _)).trans
      (decoded_listed read word ran₂ enough (.of_nul nul _ _)).symm

end Stale

/-- A disk like the small one, every record of whose root directory is in use, is listed. -/
theorem root_listed (disk : Bytes) (pointer : iBlock (fun i => disk (5248 + i)) 0 0 = 46)
    (fits : ∀ o ∈ records (fun i => disk (47104 + i)) 1024,
      8 ≤ (ext2DirentAt (fun i => disk (47104 + i)) o).recLen ∧
        o + (ext2DirentAt (fun i => disk (47104 + i)) o).recLen ≤ 1024)
    (used : ∀ o ∈ records (fun i => disk (47104 + i)) 1024, Live (fun i => disk (47104 + i)) o) :
    ∃ (s : Clients) (p data n : Nat) (h₁ : Heap) (buf' : Bytes) (h' : Heap),
      getdentsRead disk s.heap (twoGroupsFs p) 4096 2 = .ok (data, h₁) ∧
      ext2GetdentsFile disk s.heap (twoGroupsFs p) 4096 2 (fun _ => 0) 256 = .ok (n, buf', h') ∧
      records (viewAt h₁.mem data) 1024 = records (fun i => disk (47104 + i)) 1024 ∧
      ∀ i < 1024, viewAt h₁.mem data i = disk (47104 + i) := by
  obtain ⟨s, p, data, h₁, read, bytes⟩ := root_read disk pointer
  obtain ⟨list, header⟩ := recordsFrom_copy bytes fits
  have list : records (viewAt h₁.mem data) 1024 = records (fun i => disk (47104 + i)) 1024 := list
  have inside : ∀ o ∈ records (viewAt h₁.mem data) 1024,
      0 < (ext2DirentAt (viewAt h₁.mem data) o).recLen ∧
        o + (ext2DirentAt (viewAt h₁.mem data) o).recLen ≤ 1024 := by
    intro o mem
    rw [list] at mem
    rw [header o mem]
    have := fits o mem
    omega
  have live : ∀ o ∈ records (viewAt h₁.mem data) 1024, Live (viewAt h₁.mem data) o := by
    intro o mem
    rw [list] at mem
    rw [Live, header o mem]
    exact used o mem
  obtain ⟨n, buf', looped⟩ := getdentsLoop_returns (by decide) inside live fun _ => 0
  exact ⟨s, p, data, n, h₁, buf', _, read, bind_eq_ok.mpr ⟨_, read, bind_eq_ok.mpr ⟨_, looped, rfl⟩⟩, list,
    bytes⟩

/-- The small image, whose root directory is one entry with a name that is filled up with a NUL. -/
def oneFilled : Bytes :=
  Function.update (Function.update (Function.update twoGroups 47108 0) 47109 4) 47110 2

/-- Its listing does not depend on what was in the buffer. -/
theorem ext2Getdents_fresh_iff_filled : ∃ (s : Clients) (p n : Nat) (buf' : Bytes) (h' : Heap),
    ext2GetdentsFile oneFilled s.heap (twoGroupsFs p) 4096 2 (fun _ => 0) 256 = .ok (n, buf', h') ∧
      Fresh oneFilled s.heap (twoGroupsFs p) 4096 2 256 n := by
  have those : records (fun i => oneFilled (47104 + i)) 1024 = [0] := by decide
  obtain ⟨s, p, data, n, h₁, buf', h', read, ran, list, bytes⟩ := root_listed oneFilled
    (by decide) (by rw [those]; decide) (by rw [those]; decide)
  refine ⟨s, p, n, buf', h', ran, (ext2Getdents_fresh_iff oneFilled s.heap h₁ h' (twoGroupsFs p) 4096 2 256 n
    data n 0 _ buf' (by decide) rfl read ran (Nat.le_refl n)).mpr ?_⟩
  intro o mem
  have mem : o ∈ records (viewAt h₁.mem data) 1024 := mem
  rw [list, those] at mem
  obtain rfl := List.mem_singleton.mp mem
  rw [recName_copy bytes (by decide)]
  decide

/-- The listing of the small root directory does: the name of its first entry has no NUL. -/
theorem ext2Getdents_stale : ∃ (s : Clients) (p n : Nat) (buf' : Bytes) (h' : Heap),
    ext2GetdentsFile twoGroups s.heap (twoGroupsFs p) 4096 2 (fun _ => 0) 256 = .ok (n, buf', h') ∧
      ¬ Fresh twoGroups s.heap (twoGroupsFs p) 4096 2 256 n := by
  have those : records (fun i => twoGroups (47104 + i)) 1024 = [0, 12, 24, 36] := twoGroupsDir_records
  obtain ⟨s, p, data, n, h₁, buf', h', read, ran, list, bytes⟩ := root_listed twoGroups
    (by decide) (by rw [those]; decide) (by rw [those]; decide)
  refine ⟨s, p, n, buf', h', ran, fun fresh => ?_⟩
  have first : 0 ∈ records (viewAt h₁.mem data) 1024 := by
    rw [list, those]
    decide
  have nul := fresh.nul read (show 1024 ≤ 2 ^ 20 by decide) ran (Nat.le_refl n) 0 first
  rw [recName_copy bytes (by decide)] at nul
  exact absurd nul (by decide)

end Blackcomb.Fs
