import Mathlib.Data.List.TakeWhile
import Blackcomb.Fs.Accesses
import Blackcomb.Laws.Fs.Lookup

/-!
# Paths

A round of `ext2_namei` reads a directory's block and finds a record; the next round reads the directory
whose inode that is. `Walking` is what holds between two rounds. A path is followed right to its end when
no record is mistaken for a component and every directory on it is read from where it stands, and where
the first component is at which a record is mistaken, the path up to there is not.

**What it does not establish.** After a mistaken record the walk goes on in another directory, which
may lead to the right inode by chance: so the converse is for the beginnings of the path only.
Permissions and links do not occur, as they do not in the code.
-/

namespace Blackcomb.Fs

open Memory Mm Drivers

variable {disk node : Bytes} {s : Clients} {bs : List Block} {fs : Ext2Fs} {h : Heap}
  {dirbuf inBuf image ino : Nat} {comp path : List (BitVec 8)} {comps : List (List (BitVec 8))}

/-! ## Paths and trees -/

/-- What a component of a path may be. -/
structure Component (comp : List (BitVec 8)) : Prop where
  pos : 1 ≤ comp.length
  short : comp.length ≤ 255
  noNul : (0 : BitVec 8) ∉ comp
  noSlash : slash ∉ comp

/-- A path behind its first slash, and its components. It may end with a slash. -/
inductive Spelled : List (BitVec 8) → List (List (BitVec 8)) → Prop
  | done : Spelled [] []
  | last (comp : List (BitVec 8)) : Component comp → Spelled comp [comp]
  | more (comp path : List (BitVec 8)) (comps : List (List (BitVec 8))) : Component comp →
      Spelled path comps → Spelled (comp ++ slash :: path) (comp :: comps)

/-- The block of a directory that has one. -/
def dirBlock (disk : Bytes) (fs : Ext2Fs) (node : Bytes) : Bytes :=
  fun i => disk (iBlock node 0 0 * fs.blockSize + i)

/-- The inode that stands where an inode number says. -/
def inodeAt (disk m : Bytes) (fs : Ext2Fs) (ino : Nat) : Bytes := fun i => disk (inodePlace m fs ino + i)

/-- The inode of the entry that has a name in a directory. -/
def lookupIn (disk : Bytes) (fs : Ext2Fs) (node : Bytes) (comp : List (BitVec 8)) : Option Nat :=
  dirLookup (dirBlock disk fs node) fs.blockSize comp

/-- The inode at the end of a path from a directory. -/
def resolve (disk m : Bytes) (fs : Ext2Fs) : Bytes → Nat → List (List (BitVec 8)) → Option Nat
  | _, ino, [] => some ino
  | node, _, comp :: comps =>
    (lookupIn disk fs node comp).bind fun ino => resolve disk m fs (inodeAt disk m fs ino) ino comps

/-- A path of one component is looked up in one directory. -/
theorem resolve_one (disk m : Bytes) (fs : Ext2Fs) (node : Bytes) (ino : Nat) (comp : List (BitVec 8)) :
    resolve disk m fs node ino [comp] = lookupIn disk fs node comp := by
  rw [resolve]
  cases lookupIn disk fs node comp <;> rfl

/-- A property of every directory on a path from one and the component that is looked up in it. -/
def Along (disk m : Bytes) (fs : Ext2Fs) (P : Bytes → List (BitVec 8) → Prop) :
    Bytes → List (List (BitVec 8)) → Prop
  | _, [] => True
  | node, comp :: comps => P node comp ∧
    ∀ ino, lookupIn disk fs node comp = some ino → Along disk m fs P (inodeAt disk m fs ino) comps

/-- A directory of one block in the image, whose entry of a name, if there is one, has an inode. -/
structure Directory (disk : Bytes) (fs : Ext2Fs) (image : Nat) (node : Bytes)
    (comp : List (BitVec 8)) : Prop where
  inside : (iBlock node 0 0 + 1) * fs.blockSize ≤ image
  block : DirBlock (dirBlock disk fs node) fs.blockSize
  entry : ∀ ino, lookupIn disk fs node comp = some ino → 1 ≤ ino ∧ ino ≤ sInodesCount fs.sb

/-- `ext2_get_inode` reads the inode from where it stands. -/
def InPlace (m : Bytes) (fs : Ext2Fs) (ino : Nat) : Prop :=
  ¬ sInodesPerGroup fs.sb ∣ ino ∨ (fs.HasInodes (ino / sInodesPerGroup fs.sb) ∧
    fs.tablePlace m (ino / sInodesPerGroup fs.sb) =
      fs.tablePlace m ((ino - 1) / sInodesPerGroup fs.sb) + sInodesPerGroup fs.sb * sizeofIno)

/-- The entry of a name, if there is one, is read from where its inode stands. -/
def EntryInPlace (disk m : Bytes) (fs : Ext2Fs) (node : Bytes) (comp : List (BitVec 8)) : Prop :=
  ∀ ino, lookupIn disk fs node comp = some ino → InPlace m fs ino

/-- A result is right for the inode that is looked up: the inode, or that the path does not exist. -/
def Answers (x : Except Fault (Nat × Heap)) (target : Option Nat) : Prop :=
  (∃ ino h', target = some ino ∧ x = .ok (ino, h')) ∨
    (target = none ∧ x = .error (.panic "path %s does not exist"))

/-! ## Between two rounds -/

/-- The two buffers of `ext2_namei`: they are apart, and nobody else owns bytes of them. -/
structure WalkBuffers (s : Clients) (fs : Ext2Fs) (dirbuf inBuf : Nat) : Prop where
  dirNotNull : dirbuf ≠ 0
  inNotNull : inBuf ≠ 0
  apart : inBuf + sizeofIno ≤ dirbuf ∨ dirbuf + fs.blockSize ≤ inBuf
  dirFresh : ∀ a, s.Owns a → a < dirbuf ∨ dirbuf + fs.blockSize ≤ a
  inFresh : ∀ a, s.Owns a → a < inBuf ∨ inBuf + sizeofIno ≤ a

/-- A directory's inode is in memory, and what others own is unchanged. -/
structure Walking (s : Clients) (fs : Ext2Fs) (dirbuf inBuf : Nat) (node : Bytes) (h : Heap) :
    Prop where
  served : ∃ bs, Served ⟨h, (inBuf, sizeofIno) :: (dirbuf, fs.blockSize) :: s.live⟩ bs
  holds : HoldsIno h.mem node inBuf
  kept : ∀ a, s.Owns a → h.mem a = s.heap.mem a

/-- The descriptor of a group with inodes is in memory. -/
theorem Mounted.owns_bgd {g : Nat} (mounted : Mounted disk s fs image) (has : fs.HasInodes g) :
    ∀ i < sizeofBgd, s.Owns (fs.bgd g + i) := by
  intro i lt
  obtain ⟨n, mem, room⟩ := mounted.room
  have fits := room g has
  refine .inl ⟨_, mem, ?_⟩
  rw [Ext2Fs.bgd]
  rw [Nat.add_mul] at fits
  dsimp only
  omega

/-- An inode that is read from where it stands. -/
theorem InPlace.off {m : Bytes} (place : InPlace s.heap.mem fs ino) (mounted : Mounted disk s fs image)
    (first : 1 ≤ ino) (last : ino ≤ sInodesCount fs.sb) (kept : ∀ a, s.Owns a → m a = s.heap.mem a) :
    inodeOff m fs ino = inodePlace s.heap.mem fs ino := by
  have here : fs.HasInodes (ino / sInodesPerGroup fs.sb) := by
    rcases place with not | ⟨has, _⟩
    · rw [(group_of_not_last mounted.perGroup first not).1]
      exact hasInodes_group first last
    · exact has
  have same : inodeOff m fs ino = inodeOff s.heap.mem fs ino :=
    inodeOff_congr fun i lt => kept _ (mounted.owns_bgd here i lt)
  rw [same, inodeOff_eq_iff mounted first last]
  apply place.imp_right
  intro next
  have below := mounted.below
  have high := (mounted.tables _ next.1).2.2
  rw [Nat.mod_eq_of_lt (by omega), next.2]

/-- The block of a directory is read. -/
theorem getDirBlock_serves (walking : Walking s fs dirbuf inBuf node h)
    (buffers : WalkBuffers s fs dirbuf inBuf) (mounted : Mounted disk s fs image)
    (inside : (iBlock node 0 0 + 1) * fs.blockSize ≤ image) :
    Serves (h.kernelBrk + 32 + fs.blockSize < kernelBrkStart + heapBytes)
      (ext2GetBlock disk h fs inBuf dirbuf 0) fun h' =>
        Walking s fs dirbuf inBuf node h' ∧
        (∃ bs, Served ⟨h', (inBuf, sizeofIno) :: (dirbuf, fs.blockSize) :: s.live⟩ bs ∧
          Ready fs.blockSize bs) ∧
        ∀ i < fs.blockSize, h'.mem (dirbuf + i) = dirBlock disk fs node i := by
  obtain ⟨bs, inv⟩ := walking.served
  obtain ⟨k, small, blocks⟩ := mounted.blocks
  unfold ext2GetBlock
  rw [if_neg (Nat.not_lt_zero _), offsets_direct small blocks (by omega), if_pos (by decide)]
  simp only [ok_bind, List.headD_cons, List.tail_cons, followPtrs]
  rw [show ((0 : Nat) : Int).toNat = 0 from rfl, walking.holds.block (by decide)]
  have owned : ∀ i < fs.blockSize, Clients.Owns ⟨h, (inBuf, sizeofIno) ::
      (dirbuf, fs.blockSize) :: s.live⟩ (dirbuf + i) :=
    fun i lt => (Clients.owns_head h s.live i lt).cons h _
  have served := readBlk_serves disk inv small blocks owned buffers.dirNotNull mounted.below inside
  refine (served.room_mono .inr).bind fun h' got => .ok ⟨?_, got.served, got.bytes⟩
  constructor
  case served =>
    obtain ⟨bs', inv', _⟩ := got.served
    exact ⟨bs', inv'⟩
  case holds =>
    intro i lt
    refine (got.kept _ (Clients.owns_head h _ i lt) ?_).trans (walking.holds i lt)
    have := buffers.apart
    omega
  case kept =>
    intro a owns
    exact (got.kept a ((owns.cons h _).cons h _) (buffers.dirFresh a owns)).trans (walking.kept a owns)

/-- **A round.** -/
theorem nameiRound_cases (walking : Walking s fs dirbuf inBuf node h)
    (buffers : WalkBuffers s fs dirbuf inBuf) (mounted : Mounted disk s fs image)
    (inside : (iBlock node 0 0 + 1) * fs.blockSize ≤ image)
    (block : DirBlock (dirBlock disk fs node) fs.blockSize) (valid : Component comp) :
    (nameiRound disk fs dirbuf inBuf comp h = .error heapExhausted ∧
        ¬ h.kernelBrk + 32 + fs.blockSize < kernelBrkStart + heapBytes) ∨
      ∃ found, Found (dirBlock disk fs node) fs.blockSize comp found ∧
        ((found = none ∧
            nameiRound disk fs dirbuf inBuf comp h = .error (.panic "path %s does not exist")) ∨
          ∃ ino h' m, found = some ino ∧ nameiRound disk fs dirbuf inBuf comp h = .ok (ino, h') ∧
            (∀ a, s.Owns a → m a = s.heap.mem a) ∧
            Walking s fs dirbuf inBuf (fun i => disk (inodeOff m fs ino + i)) h') := by
  obtain ⟨k, small, blocks⟩ := mounted.blocks
  obtain ⟨_, _, _, pos⟩ := block_sectors small blocks
  obtain ⟨quarter, _, high⟩ := ptrs_range small blocks
  have short := valid.short
  unfold nameiRound
  rcases getDirBlock_serves walking buffers mounted inside with
    ⟨ran, full⟩ | ⟨h₁, ran, walking₁, ⟨bs₁, inv₁, ready⟩, bytes⟩
  · rw [ran]
    exact .inl ⟨rfl, full⟩
  rw [ran, ok_bind]
  obtain ⟨found, looped, here⟩ :=
    nameiLoop_found block bytes valid.noNul (by omega) (show fs.blockSize < 2 ^ 32 by omega)
  rw [looped, ok_bind]
  cases found with
  | none => exact .inr ⟨none, here, .inl ⟨rfl, rfl⟩⟩
  | some ino =>
    have multiple := blockSize_dvd blocks
    have owned : ∀ i < sizeofIno, Clients.Owns ⟨h₁, (inBuf, sizeofIno) ::
        (dirbuf, fs.blockSize) :: s.live⟩ (inBuf + i) := Clients.owns_head h₁ _
    dsimp only
    rcases ext2GetInode_serves disk ino inv₁ multiple mounted.perGroup owned buffers.inNotNull with
      ⟨_, full⟩ | ⟨h₂, read, got⟩
    · -- the buffer of the block is free again
      exact absurd (.inl (ready.smaller (by omega))) full
    rw [read]
    refine .inr ⟨some ino, here, .inr ⟨ino, h₂, h₁.mem, rfl, rfl, walking₁.kept, ?_⟩⟩
    constructor
    case served =>
      obtain ⟨bs₂, inv₂, _⟩ := got.served
      exact ⟨bs₂, inv₂⟩
    case holds => exact readIno_bytes got (inodeOff_aligned _ _ multiple)
    case kept =>
      intro a owns
      exact (got.kept a ((owns.cons h₁ _).cons h₁ _) (buffers.inFresh a owns)).trans
        (walking₁.kept a owns)

/-! ## A path -/

/-- A path is its first component and what is left of it, nothing or what stands behind a slash. -/
abbrev Cuts (comp rest path : List (BitVec 8)) : Prop :=
  path = comp ∧ rest = [] ∧ comp ≠ [] ∨ path = comp ++ slash :: rest

/-- A path is cut behind its first component. -/
theorem path_cut {rest : List (BitVec 8)} (noSlash : slash ∉ comp) (ends : Cuts comp rest path) :
    path ≠ [] ∧ path.takeWhile (· ≠ slash) = comp ∧ (path.dropWhile (· ≠ slash)).drop 1 = rest := by
  have all : ∀ c ∈ comp, decide (c ≠ slash) = true := by
    intro c mem
    apply decide_eq_true
    intro same
    exact noSlash (same ▸ mem)
  rcases ends with ⟨rfl, rfl, more⟩ | rfl
  · refine ⟨more, List.takeWhile_eq_self_iff.mpr all, ?_⟩
    rw [List.dropWhile_eq_nil_iff.mpr all, List.drop_nil]
  · rw [List.takeWhile_append_of_pos all, List.dropWhile_append_of_pos all]
    simp

/-- A round takes a component off a path, up to the next slash. -/
theorem nameiComps_round {rest : List (BitVec 8)} (noSlash : slash ∉ comp) (short : comp.length ≤ 255)
    (ends : Cuts comp rest path) (fuel ino : Nat) (h : Heap) :
    nameiComps disk fs dirbuf inBuf (fuel + 1) path ino h =
      nameiRound disk fs dirbuf inBuf comp h >>= fun r =>
        nameiComps disk fs dirbuf inBuf fuel rest r.1 r.2 := by
  obtain ⟨more, taken, dropped⟩ := path_cut noSlash ends
  rw [nameiComps, if_neg more]
  simp only [taken, dropped]
  rw [if_neg (Nat.not_lt.mpr short)]

/-- What is left of a path after its first component. -/
theorem Spelled.rest (spelled : Spelled path (comp :: comps)) : Component comp ∧
    ∃ rest, Spelled rest comps ∧ rest.length < path.length ∧ Cuts comp rest path := by
  cases spelled with
  | last _ valid =>
    exact ⟨valid, [], .done, valid.pos, .inl ⟨rfl, rfl, List.ne_nil_of_length_pos valid.pos⟩⟩
  | more _ rest _ valid spelled =>
    refine ⟨valid, rest, spelled, ?_, .inr rfl⟩
    rw [List.length_append, List.length_cons]
    omega

theorem nameiComps_nil (fuel : Nat) :
    nameiComps disk fs dirbuf inBuf fuel [] ino h = .ok (ino, h) := by
  cases fuel <;> rfl

/-- **A path without a mistake.** -/
theorem nameiComps_right (ino : Nat) {fuel : Nat} (buffers : WalkBuffers s fs dirbuf inBuf)
    (mounted : Mounted disk s fs image) (spelled : Spelled path comps)
    (walking : Walking s fs dirbuf inBuf node h) (enough : path.length ≤ fuel)
    (dirs : Along disk s.heap.mem fs (Directory disk fs image) node comps)
    (places : Along disk s.heap.mem fs (EntryInPlace disk s.heap.mem fs) node comps.dropLast)
    (good : Along disk s.heap.mem fs
      (fun node comp => NoMistake (dirBlock disk fs node) fs.blockSize comp) node comps) :
    nameiComps disk fs dirbuf inBuf fuel path ino h = .error heapExhausted ∨
      Answers (nameiComps disk fs dirbuf inBuf fuel path ino h)
        (resolve disk s.heap.mem fs node ino comps) := by
  induction comps generalizing path node ino h fuel with
  | nil =>
    cases spelled
    rw [nameiComps_nil]
    exact .inr (.inl ⟨ino, h, rfl, rfl⟩)
  | cons comp comps ih =>
    obtain ⟨valid, rest, spelled', shorter, ends⟩ := spelled.rest
    obtain ⟨fuel, rfl⟩ : ∃ n, fuel = n + 1 := ⟨fuel - 1, by omega⟩
    obtain ⟨dir, dirs⟩ := dirs
    obtain ⟨none, good⟩ := good
    rw [nameiComps_round valid.noSlash valid.short ends, resolve]
    rcases nameiRound_cases walking buffers mounted dir.inside dir.block valid with
      ⟨failed, _⟩ | ⟨found, here, result⟩
    · rw [failed]
      exact .inl rfl
    have same : found = lookupIn disk fs node comp := here.eq none
    rw [← same]
    rcases result with ⟨rfl, ran⟩ | ⟨ino', h', m, rfl, ran, kept, walking'⟩
    · rw [ran]
      exact .inr (.inr ⟨rfl, rfl⟩)
    rw [ran, ok_bind, Option.bind_some]
    cases comps with
    | nil =>
      cases spelled'
      rw [nameiComps_nil]
      exact .inr (.inl ⟨ino', h', rfl, rfl⟩)
    | cons next comps =>
      obtain ⟨place, places⟩ := places
      obtain ⟨first, last⟩ := dir.entry ino' same.symm
      have off := (place ino' same.symm).off mounted first last kept
      rw [off] at walking'
      exact ih ino' spelled' walking' (by omega) (dirs ino' same.symm) (places ino' same.symm)
        (good ino' same.symm)

/-- **A path that is right up to every component.** -/
theorem noMistake_of_answers (ino : Nat) (buffers : WalkBuffers s fs dirbuf inBuf)
    (mounted : Mounted disk s fs image) (walking : Walking s fs dirbuf inBuf node h)
    (valid : ∀ comp ∈ comps, Component comp)
    (dirs : Along disk s.heap.mem fs (Directory disk fs image) node comps)
    (places : Along disk s.heap.mem fs (EntryInPlace disk s.heap.mem fs) node comps.dropLast)
    (whole : Along disk s.heap.mem fs
      (fun node comp => NoCut (dirBlock disk fs node) fs.blockSize comp) node comps)
    (right : ∀ n path, Spelled path (comps.take n) → ∃ fuel, path.length ≤ fuel ∧
      Answers (nameiComps disk fs dirbuf inBuf fuel path ino h)
        (resolve disk s.heap.mem fs node ino (comps.take n))) :
    Along disk s.heap.mem fs
      (fun node comp => NoMistake (dirBlock disk fs node) fs.blockSize comp) node comps := by
  induction comps generalizing node ino h with
  | nil => trivial
  | cons comp comps ih =>
    obtain ⟨dir, dirs⟩ := dirs
    obtain ⟨uncut, whole⟩ := whole
    have here := valid comp List.mem_cons_self
    obtain ⟨fuel, enough, answers⟩ := right 1 comp (.last comp here)
    have pos := here.pos
    obtain ⟨fuel, rfl⟩ : ∃ n, fuel = n + 1 := ⟨fuel - 1, by omega⟩
    rw [nameiComps_round here.noSlash here.short
      (.inl ⟨rfl, rfl, List.ne_nil_of_length_pos pos⟩), List.take_succ_cons, List.take_zero,
      resolve_one] at answers
    rcases nameiRound_cases walking buffers mounted dir.inside dir.block here with
      ⟨failed, _⟩ | ⟨found, taken, result⟩
    · rw [failed] at answers
      rcases answers with ⟨_, _, _, ran⟩ | ⟨_, ran⟩
      · cases ran
      · exact absurd (Except.error.inj ran) (by simp [heapExhausted])
    have same : found = lookupIn disk fs node comp := by
      rcases result with ⟨rfl, ran⟩ | ⟨ino', h', m, rfl, ran, _, _⟩
      · rw [ran] at answers
        rcases answers with ⟨_, _, _, ran⟩ | ⟨none, _⟩
        · cases ran
        · exact none.symm
      · rw [ran, ok_bind, nameiComps_nil] at answers
        rcases answers with ⟨ino'', _, some, ran⟩ | ⟨_, ran⟩
        · cases ran
          exact some.symm
        · cases ran
    refine ⟨taken.noMistake uncut same, ?_⟩
    intro ino' entry
    cases comps with
    | nil => trivial
    | cons next comps =>
      obtain ⟨place, places⟩ := places
      rcases result with ⟨rfl, _⟩ | ⟨ino'', h', m, rfl, ran, kept, walking'⟩
      · rw [entry] at same
        cases same
      obtain rfl : ino'' = ino' := Option.some.inj (same.trans entry)
      obtain ⟨first, last⟩ := dir.entry _ entry
      rw [(place _ entry).off mounted first last kept] at walking'
      refine ih ino'' walking' (fun c mem => valid c (List.mem_cons_of_mem _ mem)) (dirs _ entry)
        (places _ entry) (whole _ entry) ?_
      intro n path spelled
      -- the longer path goes through the same round
      obtain ⟨fuel, enough, answers⟩ := right (n + 1) _ (.more comp path _ here spelled)
      rw [List.length_append, List.length_cons] at enough
      obtain ⟨fuel, rfl⟩ : ∃ n, fuel = n + 1 := ⟨fuel - 1, by omega⟩
      rw [nameiComps_round here.noSlash here.short (.inr rfl), ran, ok_bind, List.take_succ_cons, resolve,
        entry, Option.bind_some] at answers
      exact ⟨fuel, by omega, answers⟩

/-! ## The whole call -/

/-- The buffers are allocated and the root's inode is in memory. -/
theorem nameiStart_serves {k : Nat} (inv : Served s bs) (small : k ≤ 6)
    (blocks : fs.blockSize = 1024 <<< k) :
    Serves (s.heap.kernelBrk + (32 + fs.blockSize) + (32 + sizeofIno) < kernelBrkStart + heapBytes)
      (nameiStart s.heap fs) fun r => WalkBuffers s fs r.1 r.2.1 ∧
        Walking s fs r.1 r.2.1 fs.rooti r.2.2 ∧
        r.2.2.kernelBrk ≤ s.heap.kernelBrk + (32 + fs.blockSize) + (32 + sizeofIno) := by
  obtain ⟨_, _, _, pos⟩ := block_sectors small blocks
  obtain ⟨quarter, _, high⟩ := ptrs_range small blocks
  unfold nameiStart
  refine ((inv.serves_kmalloc pos (by omega)).room_mono fun room => .inr (by omega)).bind ?_
  intro r allotted₁
  obtain ⟨dirbuf, h₁⟩ := r
  obtain ⟨bs₁, inv₁⟩ := allotted₁.served
  have low₁ := allotted₁.low
  have brk₁ := allotted₁.brk
  dsimp only at inv₁ low₁ brk₁ ⊢
  refine ((inv₁.serves_kcalloc (n := sizeofIno) (by decide) (by decide)).room_mono
    fun room => .inr (by dsimp only; omega)).bind ?_
  intro r allotted₂
  obtain ⟨inBuf, h₂⟩ := r
  obtain ⟨bs₂, inv₂⟩ := allotted₂.served
  have low₂ := allotted₂.low
  have brk₂ := allotted₂.brk
  dsimp only at inv₂ low₂ brk₂ ⊢
  have inFresh : ∀ a, s.Owns a → a < inBuf ∨ inBuf + sizeofIno ≤ a := by
    intro a owns
    by_contra inside
    exact allotted₂.fresh (by omega) (by omega) (owns.cons h₁ _)
  refine .ok ⟨?_, ?_, ?_⟩
  · constructor
    case dirNotNull => dsimp only; omega
    case inNotNull => dsimp only; omega
    case apart =>
      have := List.rel_of_pairwise_cons inv₂.disjoint List.mem_cons_self
      dsimp only at this ⊢
      omega
    case dirFresh =>
      intro a owns
      by_contra inside
      exact allotted₁.fresh (by omega) (by omega) owns
    case inFresh => exact inFresh
  · constructor
    case served =>
      refine ⟨bs₂, inv₂.rewrite ?_⟩
      intro a not
      apply memcpyFrom_outside
      by_contra inside
      exact not (.inl ⟨_, List.mem_cons_self, by dsimp only; omega, by dsimp only; omega⟩)
    case holds =>
      intro i lt
      dsimp only
      rw [memcpyFrom_apply, if_pos (by omega), Nat.add_sub_cancel_left]
    case kept =>
      intro a owns
      refine (memcpyFrom_outside ?_).trans
        ((allotted₂.kept a (owns.cons h₁ _)).trans (allotted₁.kept a owns))
      exact inFresh a owns
  · dsimp only
    omega

/-- `ext2_namei` allocates its buffers, goes along the path, and frees them. -/
theorem ext2Namei_eq (disk : Bytes) (h : Heap) (fs : Ext2Fs) (path : List (BitVec 8)) :
    ext2Namei disk h fs path = nameiStart h fs >>= fun r =>
      nameiComps disk fs r.1 r.2.1 path.length path.tail ext2RootIno r.2.2 >>= fun t =>
        .ok (t.1, Mm.free (Mm.free t.2 r.1) r.2.1) := by
  unfold ext2Namei nameiStart
  cases kmalloc h fs.blockSize with
  | error e => rfl
  | ok r =>
    simp only [ok_bind]
    cases kcalloc r.2 1 sizeofIno <;> rfl

/-- No path has a part in the buffers. -/
theorem ext2Namei_start (inv : Served s bs) (mounted : Mounted disk s fs image) :
    ((∀ path, ext2Namei disk s.heap fs path = .error heapExhausted) ∧
      ¬ s.heap.kernelBrk + (32 + fs.blockSize) + (32 + sizeofIno) < kernelBrkStart + heapBytes) ∨
      ∃ dirbuf inBuf h, WalkBuffers s fs dirbuf inBuf ∧ Walking s fs dirbuf inBuf fs.rooti h ∧
        h.kernelBrk ≤ s.heap.kernelBrk + (32 + fs.blockSize) + (32 + sizeofIno) ∧
        ∀ path, ext2Namei disk s.heap fs path =
          nameiComps disk fs dirbuf inBuf path.length path.tail ext2RootIno h >>= fun r =>
            .ok (r.1, Mm.free (Mm.free r.2 dirbuf) inBuf) := by
  obtain ⟨k, small, blocks⟩ := mounted.blocks
  rcases nameiStart_serves inv small blocks with
    ⟨failed, full⟩ | ⟨⟨dirbuf, inBuf, h⟩, ran, buffers, walking, brk⟩
  · refine .inl ⟨fun path => ?_, full⟩
    rw [ext2Namei_eq, failed]
    rfl
  · refine .inr ⟨dirbuf, inBuf, h, buffers, walking, brk, fun path => ?_⟩
    rw [ext2Namei_eq, ran]
    rfl

/-- Freeing the buffers is no part of the answer. -/
theorem Answers.free_iff {x : Except Fault (Nat × Heap)} {target : Option Nat} (g : Heap → Heap) :
    Answers (x >>= fun r => .ok (r.1, g r.2)) target ↔ Answers x target := by
  cases x with
  | error e => simp [Answers]
  | ok r =>
    rw [ok_bind]
    constructor
    · rintro (⟨ino, h', some, ran⟩ | ⟨_, ran⟩)
      · cases ran
        exact .inl ⟨r.1, r.2, some, rfl⟩
      · cases ran
    · rintro (⟨ino, h', some, ran⟩ | ⟨_, ran⟩)
      · cases ran
        exact .inl ⟨ino, g h', some, rfl⟩
      · cases ran

/-- What is promised of `ext2_namei` for a path: it returns the inode at its end, or it panics because
there is none. -/
def NameiRight (disk : Bytes) (s : Clients) (fs : Ext2Fs) (path : List (BitVec 8))
    (comps : List (List (BitVec 8))) : Prop :=
  Answers (ext2Namei disk s.heap fs (slash :: path))
    (resolve disk s.heap.mem fs (inodeAt disk s.heap.mem fs ext2RootIno) ext2RootIno comps)

/-- A path of one component, with room for the buffers and a block. -/
theorem ext2Namei_one (inv : Served s bs) (mounted : Mounted disk s fs image)
    (root : ∀ i < sizeofIno, fs.rooti i = node i) (spelled : Spelled path [comp])
    (dir : Directory disk fs image node comp)
    (room : s.heap.kernelBrk + (32 + fs.blockSize) + (32 + sizeofIno) + (32 + fs.blockSize) <
      kernelBrkStart + heapBytes) :
    ∃ found, Found (dirBlock disk fs node) fs.blockSize comp found ∧
      ((found = none ∧
          ext2Namei disk s.heap fs (slash :: path) = .error (.panic "path %s does not exist")) ∨
        ∃ ino h', found = some ino ∧ ext2Namei disk s.heap fs (slash :: path) = .ok (ino, h')) := by
  obtain ⟨valid, rest, spelled', shorter, ends⟩ := spelled.rest
  cases spelled'
  rcases ext2Namei_start inv mounted with ⟨_, full⟩ | ⟨dirbuf, inBuf, h, buffers, walking, brk, runs⟩
  · exact absurd (by omega) full
  have rooted : Walking s fs dirbuf inBuf node h :=
    ⟨walking.served, fun i lt => (walking.holds i lt).trans (root i lt), walking.kept⟩
  rw [runs, List.tail_cons, List.length_cons, nameiComps_round valid.noSlash valid.short ends]
  rcases nameiRound_cases rooted buffers mounted dir.inside dir.block valid with
    ⟨_, full⟩ | ⟨found, here, result⟩
  · exact absurd (by omega) full
  refine ⟨found, here, ?_⟩
  rcases result with ⟨none, ran⟩ | ⟨ino, h', _, some, ran, _, _⟩
  · rw [ran]
    exact .inl ⟨none, rfl⟩
  · rw [ran, ok_bind, nameiComps_nil]
    exact .inr ⟨ino, _, some, rfl⟩

/-- A path that is followed right: every directory on it is read from where it stands, and at no component
is a record mistaken for it. -/
structure PathGood (disk m : Bytes) (fs : Ext2Fs) (comps : List (List (BitVec 8))) : Prop where
  places : Along disk m fs (EntryInPlace disk m fs) (inodeAt disk m fs ext2RootIno) comps.dropLast
  names : Along disk m fs (fun node comp => NoMistake (dirBlock disk fs node) fs.blockSize comp)
    (inodeAt disk m fs ext2RootIno) comps

/-- What holds along a path holds along the first part of it. -/
theorem Along.isPrefix {m : Bytes} {P : Bytes → List (BitVec 8) → Prop}
    {front : List (List (BitVec 8))} (along : Along disk m fs P node comps) (pre : front <+: comps) :
    Along disk m fs P node front := by
  induction front generalizing node comps with
  | nil => trivial
  | cons comp front ih =>
    obtain ⟨rest, rfl⟩ := pre
    obtain ⟨here, along⟩ := along
    exact ⟨here, fun ino entry => ih (along ino entry) (List.prefix_append _ _)⟩

/-- Without their last components too. -/
theorem dropLast_isPrefix {α : Type} {xs ys : List α} (pre : xs <+: ys) :
    xs.dropLast <+: ys.dropLast := by
  obtain ⟨rest, rfl⟩ := pre
  by_cases none : rest = []
  · rw [none, List.append_nil]
  · rw [List.dropLast_append_of_ne_nil none]
    exact (List.dropLast_prefix xs).trans (List.prefix_append _ _)

/-- **Path lookup.** For every tree of directories of one block, every path whose directories exist and
every state of the heap that has room: the path and all its beginnings are looked up right when every
directory on it is read from where it stands and no record is mistaken for a component; and where the
directories are and no comparison is cut off by the end of a block, only then. -/
theorem ext2Namei_right (disk : Bytes) (s : Clients) (bs : List Block) (fs : Ext2Fs) (image : Nat)
    (comps : List (List (BitVec 8))) (inv : Served s bs) (mounted : Mounted disk s fs image)
    (root : ∀ i < sizeofIno, fs.rooti i = inodeAt disk s.heap.mem fs ext2RootIno i)
    (valid : ∀ comp ∈ comps, Component comp)
    (dirs : Along disk s.heap.mem fs (Directory disk fs image)
      (inodeAt disk s.heap.mem fs ext2RootIno) comps)
    (held : ∀ n path, Spelled path (comps.take n) →
      ext2Namei disk s.heap fs (slash :: path) ≠ .error (.panic "kernel heap exhausted")) :
    (PathGood disk s.heap.mem fs comps →
      ∀ n path, Spelled path (comps.take n) → NameiRight disk s fs path (comps.take n)) ∧
    (Along disk s.heap.mem fs (EntryInPlace disk s.heap.mem fs)
        (inodeAt disk s.heap.mem fs ext2RootIno) comps.dropLast →
      Along disk s.heap.mem fs (fun node comp => NoCut (dirBlock disk fs node) fs.blockSize comp)
        (inodeAt disk s.heap.mem fs ext2RootIno) comps →
      (∀ n path, Spelled path (comps.take n) → NameiRight disk s fs path (comps.take n)) →
      PathGood disk s.heap.mem fs comps) := by
  rcases ext2Namei_start inv mounted with ⟨failed, _⟩ | ⟨dirbuf, inBuf, h, buffers, walking, _, runs⟩
  · exact absurd (failed _) (held 0 [] .done)
  -- what is read from the root's inode is what the mounted root holds
  have rooted : Walking s fs dirbuf inBuf (inodeAt disk s.heap.mem fs ext2RootIno) h :=
    ⟨walking.served, fun i lt => (walking.holds i lt).trans (root i lt), walking.kept⟩
  constructor
  · intro good n path spelled
    have front := List.take_prefix n comps
    have ran := nameiComps_right ext2RootIno buffers mounted spelled rooted
      (Nat.le_succ path.length) (dirs.isPrefix front) (good.places.isPrefix (dropLast_isPrefix front))
      (good.names.isPrefix front)
    have done := held n path spelled
    unfold NameiRight
    rw [runs, List.tail_cons, List.length_cons] at done ⊢
    refine (Answers.free_iff fun h => Mm.free (Mm.free h dirbuf) inBuf).mpr (ran.resolve_left ?_)
    intro exhausted
    exact done (by rw [exhausted]; rfl)
  · intro places whole right
    refine ⟨places, noMistake_of_answers ext2RootIno buffers mounted rooted valid dirs places whole ?_⟩
    intro n path spelled
    refine ⟨path.length + 1, Nat.le_succ _, ?_⟩
    have answers := right n path spelled
    unfold NameiRight at answers
    rw [runs, List.tail_cons, List.length_cons] at answers
    exact (Answers.free_iff fun h => Mm.free (Mm.free h dirbuf) inBuf).mp answers

/-! ## The small directory -/

/-- The root directory's block of the small file system. -/
def twoGroupsDir : Bytes := fun i => twoGroups (47104 + i)

theorem twoGroupsDir_records : records twoGroupsDir 1024 = [0, 12, 24, 36] := by decide

theorem twoGroupsDir_block : DirBlock twoGroupsDir 1024 := by
  constructor
  case fits =>
    rw [twoGroupsDir_records]
    decide
  case named =>
    rw [twoGroupsDir_records]
    decide

/-- A disk like the small one, mounted with its descriptors at `p`. -/
def likeTwoGroups (disk : Bytes) (p : Nat) : Ext2Fs :=
  { twoGroupsFs p with rooti := fun i => disk (5248 + i) }

/-- A disk that is the small one up to the root's inode. -/
theorem Mounted.like {p : Nat} (mounted : Mounted twoGroups s (twoGroupsFs p) 65536)
    (same : ∀ a < 5248, disk a = twoGroups a) : Mounted disk s (likeTwoGroups disk p) 65536 := by
  constructor
  case blocks => exact mounted.blocks
  case below => exact mounted.below
  case perGroup => exact mounted.perGroup
  case sb =>
    intro i lt
    have before : sbStartBytes + i < 5248 := by
      rw [sizeofSb] at lt
      simp only [sbStartBytes]
      omega
    exact (same _ before).symm
  case room => exact mounted.room
  case loaded =>
    intro g has i lt
    refine (mounted.loaded g has i lt).trans (same _ ?_).symm
    have two : g * sInodesPerGroup (twoGroupsFs p).sb < sInodesCount (twoGroupsFs p).sb := has
    rw [twoGroups_perGroup, twoGroups_count] at two
    rw [twoGroups_bgdtPlace]
    rw [sizeofBgd] at lt ⊢
    omega
  case tables => exact mounted.tables

/-- A lookup on such a disk begins with the root's inode. -/
theorem root_start (disk : Bytes) (same : ∀ a < 5248, disk a = twoGroups a) :
    ∃ (s : Clients) (bs : List Block) (p dirbuf inBuf : Nat) (h : Heap), Served s bs ∧
      Mounted disk s (likeTwoGroups disk p) 65536 ∧ bgInodeTable s.heap.mem p = 5 ∧
      nameiStart s.heap (likeTwoGroups disk p) = .ok (dirbuf, inBuf, h) ∧
      WalkBuffers s (likeTwoGroups disk p) dirbuf inBuf ∧
      Walking s (likeTwoGroups disk p) dirbuf inBuf (fun i => disk (5248 + i)) h ∧
      s.heap.kernelBrk + 4096 < kernelBrkStart + heapBytes ∧
      h.kernelBrk + 2048 < kernelBrkStart + heapBytes := by
  obtain ⟨s, bs, p, inv, room, _, mounted, table, _⟩ := twoGroups_mounted
  have size : (likeTwoGroups disk p).blockSize = 1024 := rfl
  rcases nameiStart_serves inv (show 0 ≤ 6 by decide) size with
    ⟨_, full⟩ | ⟨⟨dirbuf, inBuf, h⟩, ran, buffers, walking, brk⟩
  · rw [size, sizeofIno] at full
    omega
  · rw [size, sizeofIno] at brk
    dsimp only at brk
    exact ⟨s, bs, p, dirbuf, inBuf, h, inv, mounted.like same, table, ran, buffers, walking, by omega,
      by omega⟩

/-- The root of the small file system, with an entry that there is. -/
theorem twoGroups_root {s : Clients} {p : Nat} {comp : List (BitVec 8)}
    (table : bgInodeTable s.heap.mem p = 5)
    (entry : dirLookup twoGroupsDir 1024 comp = some 3 ∨ dirLookup twoGroupsDir 1024 comp = some 4) :
    inodeAt twoGroups s.heap.mem (twoGroupsFs p) ext2RootIno = (twoGroupsFs p).rooti ∧
      dirBlock twoGroups (twoGroupsFs p)
        (inodeAt twoGroups s.heap.mem (twoGroupsFs p) ext2RootIno) = twoGroupsDir ∧
      Directory twoGroups (twoGroupsFs p) 65536
        (inodeAt twoGroups s.heap.mem (twoGroupsFs p) ext2RootIno) comp := by
  have perGroup := twoGroups_perGroup p
  have count := twoGroups_count p
  have root : inodeAt twoGroups s.heap.mem (twoGroupsFs p) ext2RootIno = (twoGroupsFs p).rooti := by
    have table : (twoGroupsFs p).tablePlace s.heap.mem 0 = 5120 := congrArg (· * 1024) table
    unfold inodeAt
    rw [inodePlace, perGroup, ext2RootIno, table]
    rfl
  have pointer : iBlock (twoGroupsFs p).rooti 0 0 = 46 := by
    show load (fun i => twoGroups (5248 + i)) 40 4 = 46
    decide
  have block : dirBlock twoGroups (twoGroupsFs p) (twoGroupsFs p).rooti = twoGroupsDir := by
    unfold dirBlock
    rw [pointer]
    rfl
  rw [root]
  refine ⟨rfl, block, ?_⟩
  constructor
  case inside =>
    rw [pointer]
    show (46 + 1) * 1024 ≤ 65536
    decide
  case block => exact block ▸ twoGroupsDir_block
  case entry =>
    intro ino found
    rw [lookupIn, block] at found
    rw [count]
    rcases entry with entry | entry <;>
      · have same : some ino = some _ := found.symm.trans entry
        obtain rfl := Option.some.inj same
        decide

/-- The name `a` is looked up right: no name in the directory is a proper prefix of it. -/
theorem ext2Namei_right_a : ∃ (s : Clients) (p : Nat) (h' : Heap),
    Mounted twoGroups s (twoGroupsFs p) 65536 ∧
      ext2Namei twoGroups s.heap (twoGroupsFs p) [slash, 97] = .ok (3, h') := by
  obtain ⟨s, bs, p, inv, room, _, mounted, table, _⟩ := twoGroups_mounted
  have entry : dirLookup twoGroupsDir 1024 [97] = some 3 := by decide
  obtain ⟨root, block, dir⟩ := twoGroups_root table (.inl entry)
  have valid : Component [97] := ⟨by decide, by decide, by decide, by decide⟩
  have good : PathGood twoGroups s.heap.mem (twoGroupsFs p) [[97]] := by
    constructor
    case places => trivial
    case names =>
      refine ⟨?_, fun _ _ => trivial⟩
      show NoMistake (dirBlock twoGroups (twoGroupsFs p) _) 1024 [97]
      rw [block]
      intro xs o ys split _ doubt _
      have none : ∀ o ∈ records twoGroupsDir 1024,
          ¬ (recName twoGroupsDir o <+: [97] ∧ recName twoGroupsDir o ≠ [97]) := by
        rw [twoGroupsDir_records]
        decide
      have mem : o ∈ records twoGroupsDir 1024 := by
        rw [split]
        exact List.mem_append_right _ List.mem_cons_self
      exact absurd (doubt.elim (fun m => ⟨m.1, m.2.1⟩) fun c => ⟨c.1, c.2.1⟩) (none o mem)
  have held : ∀ n path, Spelled path (([[97]] : List (List (BitVec 8))).take n) →
      ext2Namei twoGroups s.heap (twoGroupsFs p) (slash :: path) ≠
        .error (.panic "kernel heap exhausted") := by
    intro n path spelled exhausted
    have size : (twoGroupsFs p).blockSize = 1024 := rfl
    cases n with
    | zero =>
      cases spelled
      rcases ext2Namei_start inv mounted with ⟨_, full⟩ | ⟨dirbuf, inBuf, h, _, _, _, runs⟩
      · rw [size, sizeofIno] at full
        omega
      · rw [runs, List.tail_cons, nameiComps_nil] at exhausted
        cases exhausted
    | succ n =>
      rw [List.take_succ_cons, List.take_nil] at spelled
      have room' : s.heap.kernelBrk + (32 + (twoGroupsFs p).blockSize) + (32 + sizeofIno) +
          (32 + (twoGroupsFs p).blockSize) < kernelBrkStart + heapBytes := by
        rw [size, sizeofIno]
        omega
      obtain ⟨_, _, ⟨_, ran⟩ | ⟨_, _, _, ran⟩⟩ :=
        ext2Namei_one inv mounted (fun i _ => congrFun root.symm i) spelled dir room'
      · rw [ran] at exhausted
        exact absurd (Fault.panic.inj (Except.error.inj exhausted)) (by decide)
      · rw [ran] at exhausted
        cases exhausted
  have right := (ext2Namei_right twoGroups s bs (twoGroupsFs p) 65536 [[97]] inv mounted
    (fun i _ => congrFun root.symm i) (by simpa using valid) ⟨dir, fun _ _ => trivial⟩ held).1
      good 1 [97] (.last _ valid)
  have target : resolve twoGroups s.heap.mem (twoGroupsFs p)
      (inodeAt twoGroups s.heap.mem (twoGroupsFs p) ext2RootIno) ext2RootIno [[97]] = some 3 := by
    rw [resolve_one, lookupIn, block]
    exact entry
  rcases right with ⟨ino, h', some, ran⟩ | ⟨none, _⟩
  · obtain rfl := Option.some.inj (target.symm.trans some)
    exact ⟨s, p, h', mounted, ran⟩
  · cases target.symm.trans none

/-- The name `ab` is not: the entry `a` stands before it, and the byte behind its name is no `b`. -/
theorem ext2Namei_ab : ∃ (s : Clients) (bs : List Block) (p : Nat) (h' : Heap), Served s bs ∧
    Mounted twoGroups s (twoGroupsFs p) 65536 ∧ Component [97, 98] ∧
      Directory twoGroups (twoGroupsFs p) 65536
        (inodeAt twoGroups s.heap.mem (twoGroupsFs p) ext2RootIno) [97, 98] ∧
      resolve twoGroups s.heap.mem (twoGroupsFs p)
        (inodeAt twoGroups s.heap.mem (twoGroupsFs p) ext2RootIno) ext2RootIno [[97, 98]] = some 4 ∧
      ext2Namei twoGroups s.heap (twoGroupsFs p) [slash, 97, 98] = .ok (3, h') ∧
      ¬ NameiRight twoGroups s (twoGroupsFs p) [97, 98] [[97, 98]] := by
  obtain ⟨s, bs, p, inv, room, _, mounted, table, _⟩ := twoGroups_mounted
  have entry : dirLookup twoGroupsDir 1024 [97, 98] = some 4 := by decide
  obtain ⟨root, block, dir⟩ := twoGroups_root table (.inr entry)
  have valid : Component [97, 98] := ⟨by decide, by decide, by decide, by decide⟩
  have size : (twoGroupsFs p).blockSize = 1024 := rfl
  have target : resolve twoGroups s.heap.mem (twoGroupsFs p)
      (inodeAt twoGroups s.heap.mem (twoGroupsFs p) ext2RootIno) ext2RootIno [[97, 98]] = some 4 := by
    rw [resolve_one, lookupIn, block]
    exact entry
  obtain ⟨found, here, result⟩ := ext2Namei_one inv mounted (fun i _ => congrFun root.symm i)
    (.last _ valid) dir (by rw [size, sizeofIno]; omega)
  obtain rfl : found = some 3 := by
    rw [block, size] at here
    obtain ⟨accepts, decided, rfl⟩ := here
    have live : Live twoGroupsDir 0 ∧ Live twoGroupsDir 12 ∧ Live twoGroupsDir 24 := by decide
    rw [twoGroupsDir_records] at decided ⊢
    have other : ¬ recName twoGroupsDir 0 <+: [97, 98] ∧ ¬ recName twoGroupsDir 12 <+: [97, 98] := by
      decide
    have refused : ∀ o ∈ [0, 12, 24, 36], Live twoGroupsDir o → ¬ recName twoGroupsDir o <+: [97, 98] →
        accepts o = false := by
      intro o mem used differs
      apply eq_false_of_ne_true
      intro taken
      rcases (decided o mem used).2 taken with (exact | mistaken) | cut
      · exact differs (exact ▸ List.prefix_refl _)
      · exact differs mistaken.1
      · exact differs cut.1
    have taken : accepts 24 = true := by
      apply (decided 24 (by decide) live.2.2).1
      exact .inr ⟨by decide, by decide, .inl ⟨by decide, by decide⟩⟩
    rw [List.find?_cons, refused 0 (by decide) live.1 other.1, Bool.and_false, List.find?_cons,
      refused 12 (by decide) live.2.1 other.2, Bool.and_false, List.find?_cons, taken,
      decide_eq_true live.2.2]
    exact congrArg some (show (ext2DirentAt twoGroupsDir 24).inode = 3 by decide)
  rcases result with ⟨none, _⟩ | ⟨ino, h', some, ran⟩
  · cases none
  · obtain rfl := Option.some.inj some
    refine ⟨s, bs, p, h', inv, mounted, valid, dir, target, ran, ?_⟩
    rintro (⟨ino, h'', some, ran'⟩ | ⟨none, _⟩)
    · obtain rfl := Option.some.inj (target.symm.trans some)
      have same := congrArg Prod.fst (Except.ok.inj (ran.symm.trans ran'))
      cases same
    · cases target.symm.trans none

end Blackcomb.Fs
