import Blackcomb.Lib.Walk
import Blackcomb.Laws.Fs.Namei

/-!
# What a path lookup touches

`ext2_namei` comes from one offset of the path to the next. As long as the path is not empty, none of them
is behind its NUL, and so no byte behind it is read (`NameiAt.le`); the bytes of `comp` that are written are
as many as the component has, and one more. The inner `while` is a walk over the offsets of `dirbuf`: it
ends when no record that is passed over has a length of 0, and what it reads of each record lies in the
block when the record stands there far enough from its end.

**What it does not establish.** Which inode the lookup finds is left to `Lookup` and `Namei`. A
lookup that does not end is found here by its records of length 0; the time of one that ends is not
counted.
-/

namespace Blackcomb.Fs

open Memory Mm Drivers Walk

variable {disk m b path : Bytes} {h h₀ : Heap} {fs : Ext2Fs} {dirbuf inBuf start l i n a o stop fuel : Nat}
  {comp : List (BitVec 8)}

/-! ## The path -/

/-- The bytes before one that is scanned are letters. -/
theorem Scans.letter {j : Nat} (scans : Scans path start i) (low : start ≤ j) (lt : j < start + i) :
    path j ≠ slash ∧ path j ≠ 0 := by
  have letter := scans (j - start) (by omega)
  rwa [Nat.add_sub_of_le low] at letter

/-- A scan that begins in a string does not go behind its NUL. -/
theorem Scans.le (scans : Scans path start i) (str : IsString path n) (inside : start ≤ n) :
    start + i ≤ n := by
  by_contra behind
  exact (scans.letter inside (by omega)).2 str.nul

/-- From every offset in a string there is a component. -/
theorem IsString.component (str : IsString path n) (inside : start ≤ n) :
    ∃ l, CompEnds path start l := by
  have ends : ∃ l, path (start + l) = slash ∨ path (start + l) = 0 :=
    ⟨n - start, .inr (by rw [Nat.add_sub_of_le inside]; exact str.nul)⟩
  refine ⟨Nat.find ends, ?_, Nat.find_spec ends⟩
  intro j lt
  exact not_or.mp (Nat.find_min ends lt)

/-- The walk begins at the second byte. -/
theorem NameiAt.first (at' : NameiAt disk h₀ fs path dirbuf inBuf start h) :
    ∃ h₁, nameiStart h₀ fs = .ok (dirbuf, inBuf, h₁) := by
  induction at' with
  | start ran => exact ⟨_, ran⟩
  | round _ _ _ _ _ ih => exact ih

/-- In a path that is not empty it never comes behind the NUL. -/
theorem NameiAt.le (at' : NameiAt disk h₀ fs path dirbuf inBuf start h) (str : IsString path n)
    (pos : 0 < n) : start ≤ n := by
  induction at' with
  | start => exact pos
  | @round start l _ _ _ _ _ ends _ _ ih =>
    have le := ends.1.le str ih
    by_cases atSlash : path (start + l) = slash
    · rw [if_pos atSlash]
      have notEnd : start + l ≠ n := by
        intro same
        rw [same, str.nul] at atSlash
        exact absurd atSlash (by decide)
      omega
    · rw [if_neg atSlash]
      exact le

/-- What is promised of the bytes of the path and of `comp`, in every round: no byte behind the NUL is read,
and no byte outside `comp` is written. -/
def PathInBounds (disk : Bytes) (h₀ : Heap) (fs : Ext2Fs) (path : Bytes) (n : Nat) : Prop :=
  ∀ dirbuf inBuf start h, NameiAt disk h₀ fs path dirbuf inBuf start h →
    (∀ i, Scans path start i → start + i ≤ n) ∧ ∀ i, WritesComp path start i → i < 256

/-- **Path parsing.** For every path of any length, on every disk and in every state of the heap: the lookup
stays inside the path and inside `comp` exactly when the path is not empty and every component that it comes
to has at most 255 bytes. -/
theorem ext2Namei_pathInBounds_iff (disk : Bytes) (h₀ : Heap) (fs : Ext2Fs) (path : Bytes) (n : Nat)
    (str : IsString path n) : PathInBounds disk h₀ fs path n ↔
      ∀ dirbuf inBuf start h, NameiAt disk h₀ fs path dirbuf inBuf start h →
        0 < n ∧ ∀ l, path start ≠ 0 → CompEnds path start l → l ≤ 255 := by
  constructor
  · intro bounds dirbuf inBuf start h at'
    obtain ⟨h₁, ran⟩ := at'.first
    -- the first test reads the second byte
    have second := (bounds dirbuf inBuf 1 h₁ (.start ran)).1 0 fun _ lt => absurd lt (Nat.not_lt_zero _)
    refine ⟨second, fun l more ends => ?_⟩
    have last := (bounds dirbuf inBuf start h at').2 l ⟨more, l, ends, Nat.le_refl l⟩
    omega
  · intro good dirbuf inBuf start h at'
    obtain ⟨pos, short⟩ := good dirbuf inBuf start h at'
    refine ⟨fun i scans => scans.le str (at'.le str pos), ?_⟩
    rintro i ⟨more, l, ends, le⟩
    have := short l more ends
    omega

/-- The path `/a`. -/
def shortPath : Bytes := fun i => [slash, 97].getD i 0

/-- It is parsed inside its buffers, as every path of at most 256 bytes that is not empty. -/
theorem ext2Namei_pathInBounds_iff_short : ∃ (s : Clients) (p : Nat),
    Mounted twoGroups s (twoGroupsFs p) 65536 ∧
      PathInBounds twoGroups s.heap (twoGroupsFs p) shortPath 2 := by
  obtain ⟨s, _, p, _, _, _, mounted, _⟩ := twoGroups_mounted
  have str : IsString shortPath 2 := ⟨rfl, by decide⟩
  refine ⟨s, p, mounted, (ext2Namei_pathInBounds_iff twoGroups s.heap (twoGroupsFs p) shortPath 2 str).mpr ?_⟩
  intro dirbuf inBuf start h at'
  refine ⟨by decide, fun l _ ends => ?_⟩
  have := ends.1.le str (at'.le str (by decide))
  omega

/-- A slash and 256 letters. -/
def longPath : Bytes := fun i => if i = 0 then slash else if i ≤ 256 then 97 else 0

/-- The NUL behind a component of 256 bytes is written behind `comp`, and the empty path is read behind its
NUL. -/
theorem ext2Namei_out_of_bounds : ∃ (s : Clients) (p : Nat), Mounted twoGroups s (twoGroupsFs p) 65536 ∧
    IsString longPath 257 ∧ ¬ PathInBounds twoGroups s.heap (twoGroupsFs p) longPath 257 ∧
    IsString (fun _ => 0) 0 ∧ ¬ PathInBounds twoGroups s.heap (twoGroupsFs p) (fun _ => 0) 0 := by
  obtain ⟨s, _, p, dirbuf, inBuf, h, _, mounted, _, ran, _⟩ := root_start twoGroups fun _ _ => rfl
  have letter : ∀ j < 256, longPath (1 + j) = 97 := by
    intro j lt
    rw [longPath, if_neg (by omega), if_pos (by omega)]
  have long : CompEnds longPath 1 256 := by
    refine ⟨fun j lt => ?_, .inr rfl⟩
    rw [letter j lt]
    decide
  refine ⟨s, p, mounted, ⟨rfl, fun i lt => ?_⟩, fun bounds => ?_,
    ⟨rfl, fun i lt => absurd lt (Nat.not_lt_zero i)⟩, fun bounds => ?_⟩
  · cases i with
    | zero => decide
    | succ i =>
      rw [Nat.add_comm, letter i (by omega)]
      decide
  · have last := (bounds dirbuf inBuf 1 h (.start ran)).2 256
      ⟨by rw [letter 0 (by decide)]; decide, 256, long, Nat.le_refl 256⟩
    exact absurd last (Nat.lt_irrefl 256)
  · have second := (bounds dirbuf inBuf 1 h (.start ran)).1 0 fun _ lt => absurd lt (Nat.not_lt_zero _)
    exact absurd second (by decide)

/-! ## The records -/

/-- How many bytes `strncmp` reads of the second string: those that are the first one's, and one more if the
strings end nowhere before it. -/
def compared (m : Bytes) (comp : List (BitVec 8)) (a n : Nat) : Nat :=
  if commonPrefix m comp a = comp.length ∧ n = comp.length then comp.length
  else commonPrefix m comp a + 1

theorem mem_strncmpReads {x : Nat} (noNul : (0 : BitVec 8) ∉ comp) (short : comp.length < 2 ^ 63)
    (small : n < 2 ^ 64) : x ∈ strncmpReads m comp a n ↔ a ≤ x ∧ x < a + compared m comp a n := by
  induction comp generalizing a n with
  | nil =>
    simp only [strncmpReads, compared, commonPrefix, List.length_nil, true_and]
    by_cases done : n = 0
    · simp only [done, if_true, List.not_mem_nil, false_iff]
      omega
    · simp only [done, if_false, List.mem_singleton]
      omega
  | cons c cs ih =>
    obtain ⟨first, rest⟩ := List.ne_and_not_mem_of_not_mem_cons noNul
    rw [List.length_cons] at short
    by_cases same : c = m a
    · have less : sub64 n 1 < 2 ^ 64 := Nat.mod_lt _ (by decide)
      have longer : commonPrefix m (c :: cs) a = commonPrefix m cs (a + 1) + 1 := if_pos same
      have reads : strncmpReads m (c :: cs) a n = a :: strncmpReads m cs (a + 1) (sub64 n 1) :=
        if_pos ⟨Ne.symm first, same⟩
      rw [reads, List.mem_cons, ih rest (by omega) less]
      simp only [compared, longer, List.length_cons]
      -- below zero the count is more than any length
      have next : sub64 n 1 + 1 = n ∨ (n = 0 ∧ sub64 n 1 = 2 ^ 64 - 1) := by
        unfold sub64
        omega
      generalize sub64 n 1 = k at next
      by_cases whole : commonPrefix m cs (a + 1) = cs.length ∧ k = cs.length
      · rw [if_pos whole, if_pos (by omega)]
        omega
      · rw [if_neg whole, if_neg (by omega)]
        omega
    · have none : commonPrefix m (c :: cs) a = 0 := if_neg same
      have reads : strncmpReads m (c :: cs) a n = [a] :=
        (if_neg fun both => same both.2).trans (if_pos (.inl (Ne.symm first)))
      rw [reads, List.mem_singleton]
      simp only [compared, none, List.length_cons]
      rw [if_neg (by omega)]
      omega

/-- The inner `while` takes a record. -/
def Accepts (m : Bytes) (dirbuf : Nat) (comp : List (BitVec 8)) (o : Nat) : Prop :=
  (ext2DirentAt m (dirbuf + o)).inode ≠ 0 ∧
    strncmp m comp (dirbuf + o + 8) (ext2DirentAt m (dirbuf + o)).nameLen = 0

instance (m : Bytes) (dirbuf : Nat) (comp : List (BitVec 8)) (o : Nat) :
    Decidable (Accepts m dirbuf comp o) := inferInstanceAs (Decidable (_ ∧ _))

/-- The inner `while` passes a record over. -/
def Passes (m : Bytes) (dirbuf stop : Nat) (comp : List (BitVec 8)) (o : Nat) : Prop :=
  o < stop ∧ ¬ Accepts m dirbuf comp o

instance (m : Bytes) (dirbuf stop : Nat) (comp : List (BitVec 8)) :
    DecidablePred (Passes m dirbuf stop comp) :=
  fun o => inferInstanceAs (Decidable (o < stop ∧ ¬ Accepts m dirbuf comp o))

/-- `doff` after a record that is passed over. -/
def nextDoff (m : Bytes) (dirbuf o : Nat) : Nat := (o + (ext2DirentAt m (dirbuf + o)).recLen) % 2 ^ 32

/-- In a block it does not wrap. -/
theorem nextDoff_eq (m : Bytes) (dirbuf : Nat) (word : stop ≤ 2 ^ 20) (lt : o < stop) :
    nextDoff m dirbuf o = o + (ext2DirentAt m (dirbuf + o)).recLen := by
  have step : (ext2DirentAt m (dirbuf + o)).recLen < 2 ^ 16 := load_lt m _ 2
  exact Nat.mod_eq_of_lt (by omega)

/-- The offsets of a block that the inner `while` comes to. -/
abbrev Meets (m : Bytes) (dirbuf stop : Nat) (comp : List (BitVec 8)) (a o : Nat) : Prop :=
  Visits (nextDoff m dirbuf) (Passes m dirbuf stop comp) a o

/-- The inner `while` stays at a record without a length that it passes over. -/
theorem nameiLoop_stays (passes : Passes m dirbuf stop comp o) (stays : nextDoff m dirbuf o = o)
    (fuel : Nat) : nameiLoop m dirbuf stop comp fuel o = .error .diverge := by
  induction fuel with
  | zero => exact if_pos passes.1
  | succ fuel ih =>
    rw [nameiLoop, if_pos passes.1]
    exact (if_neg passes.2).trans ((congrArg _ stays).trans ih)

/-- The inner `while` is a walk over the block. -/
theorem nameiLoop_walk (m : Bytes) (dirbuf : Nat) (comp : List (BitVec 8)) (word : stop ≤ 2 ^ 20)
    (enough : stop ≤ o + fuel) :
    nameiLoop m dirbuf stop comp fuel o =
      (stopsAt (nextDoff m dirbuf) (Passes m dirbuf stop comp) fuel o).elim (.error .diverge)
        fun o => .ok (if o < stop then some (ext2DirentAt m (dirbuf + o)).inode else none) := by
  induction fuel generalizing o with
  | zero =>
    have done : ¬ o < stop := by omega
    have stopped : ¬ Passes m dirbuf stop comp o := fun passes => done passes.1
    rw [nameiLoop, if_neg done, stopsAt_of_done stopped]
    exact congrArg Except.ok (if_neg done).symm
  | succ fuel ih =>
    by_cases passes : Passes m dirbuf stop comp o
    · by_cases stays : nextDoff m dirbuf o = o
      · rw [nameiLoop_stays passes stays, stopsAt_of_fixed passes stays]
        rfl
      · have next := nextDoff_eq m dirbuf word passes.1
        rw [stopsAt, if_pos passes, ← ih (by omega), nameiLoop, if_pos passes.1]
        exact if_neg passes.2
    · rw [stopsAt_of_done passes, nameiLoop]
      by_cases lt : o < stop
      · have accepts : Accepts m dirbuf comp o := not_not.mp fun not => passes ⟨lt, not⟩
        rw [if_pos lt]
        exact (if_pos accepts).trans (congrArg Except.ok (if_pos lt).symm)
      · rw [if_neg lt]
        exact congrArg Except.ok (if_neg lt).symm

/-- It ends exactly when no record that is passed over is without a length. -/
theorem nameiLoop_ends_iff (word : stop ≤ 2 ^ 20) :
    (∃ found, nameiLoop m dirbuf stop comp stop 0 = .ok found) ↔
      ∀ o, Meets m dirbuf stop comp 0 o → o < stop → ¬ Accepts m dirbuf comp o →
        (ext2DirentAt m (dirbuf + o)).recLen ≠ 0 := by
  have ends : (stopsAt (nextDoff m dirbuf) (Passes m dirbuf stop comp) stop 0).isSome ↔
      ∀ o, Meets m dirbuf stop comp 0 o → Passes m dirbuf stop comp o → nextDoff m dirbuf o ≠ o :=
    stopsAt_isSome_iff (fun o passes => by rw [nextDoff_eq m dirbuf word passes.1]; omega)
      (fun o passes => passes.1) (show stop ≤ 0 + stop by omega)
  have advances : (∀ o, Meets m dirbuf stop comp 0 o → Passes m dirbuf stop comp o →
      nextDoff m dirbuf o ≠ o) ↔ ∀ o, Meets m dirbuf stop comp 0 o → o < stop →
        ¬ Accepts m dirbuf comp o → (ext2DirentAt m (dirbuf + o)).recLen ≠ 0 := by
    constructor
    · intro moves o meets lt not same
      apply moves o meets ⟨lt, not⟩
      rw [nextDoff_eq _ _ word lt, same, Nat.add_zero]
    · intro long o meets passes same
      rw [nextDoff_eq _ _ word passes.1] at same
      exact long o meets passes.1 passes.2 (by omega)
  rw [← advances, ← ends, nameiLoop_walk m dirbuf comp word (show stop ≤ 0 + stop by omega)]
  cases stopsAt (nextDoff m dirbuf) (Passes m dirbuf stop comp) stop 0 <;> simp

/-- Where the inner `while` stays it reads the same again. -/
theorem nameiLoopReads_stays (stays : nextDoff m dirbuf o = o)
    (reads : a ∈ nameiLoopReads m dirbuf stop comp fuel o) : a ∈ direntReads m comp (dirbuf + o) := by
  induction fuel with
  | zero => exact absurd reads List.not_mem_nil
  | succ fuel ih =>
    rw [nameiLoopReads] at reads
    split at reads
    · rcases List.mem_append.mp reads with here | later
      · exact here
      · split at later
        · exact absurd later List.not_mem_nil
        · rw [show (o + _) % 2 ^ 32 = o from stays] at later
          exact ih later
    · exact absurd reads List.not_mem_nil

/-- The inner `while` reads of the records that it comes to. -/
theorem mem_nameiLoopReads (word : stop ≤ 2 ^ 20) (enough : stop ≤ o + fuel) :
    a ∈ nameiLoopReads m dirbuf stop comp fuel o ↔
      ∃ x, Meets m dirbuf stop comp o x ∧ x < stop ∧ a ∈ direntReads m comp (dirbuf + x) := by
  induction fuel generalizing o with
  | zero =>
    have done : ¬ o < stop := by omega
    simp only [nameiLoopReads, List.not_mem_nil, false_iff]
    rintro ⟨x, meets, lt, _⟩
    rcases visits_iff.mp meets with rfl | ⟨passes, _⟩
    · exact done lt
    · exact done passes.1
  | succ fuel ih =>
    by_cases lt : o < stop
    case neg =>
      simp only [nameiLoopReads, if_neg lt, List.not_mem_nil, false_iff]
      rintro ⟨x, meets, lt', _⟩
      rcases visits_iff.mp meets with rfl | ⟨passes, _⟩
      · exact lt lt'
      · exact lt passes.1
    have split : a ∈ nameiLoopReads m dirbuf stop comp (fuel + 1) o ↔
        a ∈ direntReads m comp (dirbuf + o) ∨ (¬ Accepts m dirbuf comp o ∧
          a ∈ nameiLoopReads m dirbuf stop comp fuel (nextDoff m dirbuf o)) := by
      rw [nameiLoopReads, if_pos lt]
      by_cases accepts : Accepts m dirbuf comp o
      · simp only [List.mem_append, if_pos (show _ ∧ _ from accepts), List.not_mem_nil, accepts, not_true,
          false_and]
      · simp only [List.mem_append, if_neg (show ¬ (_ ∧ _) from accepts), accepts, not_false_eq_true,
          true_and]
        rfl
    rw [split]
    constructor
    · rintro (here | ⟨not, later⟩)
      · exact ⟨o, .start, lt, here⟩
      · by_cases stays : nextDoff m dirbuf o = o
        · rw [stays] at later
          exact ⟨o, .start, lt, nameiLoopReads_stays stays later⟩
        · have next := nextDoff_eq m dirbuf word lt
          obtain ⟨x, meets, lt', reads⟩ := (ih (by omega)).mp later
          exact ⟨x, meets.head ⟨lt, not⟩, lt', reads⟩
    · rintro ⟨x, meets, lt', reads⟩
      rcases visits_iff.mp meets with rfl | ⟨passes, rest⟩
      · exact .inl reads
      · by_cases stays : nextDoff m dirbuf o = o
        · rw [stays] at rest
          exact .inl (rest.of_fixed stays ▸ reads)
        · have next := nextDoff_eq m dirbuf word lt
          exact .inr ⟨passes.2, (ih (by omega)).mpr ⟨x, rest, lt', reads⟩⟩

/-- A record from which nothing is read outside the block. -/
structure RecordInside (m : Bytes) (dirbuf stop : Nat) (comp : List (BitVec 8)) (o : Nat) : Prop where
  inode : o + 4 ≤ stop
  name : (ext2DirentAt m (dirbuf + o)).inode ≠ 0 → o + 7 ≤ stop ∧
    ∀ i < compared m comp (dirbuf + o + 8) (ext2DirentAt m (dirbuf + o)).nameLen, o + 8 + i < stop
  recLen : ¬ Accepts m dirbuf comp o → o + 6 ≤ stop

theorem direntReads_inside (noNul : (0 : BitVec 8) ∉ comp) (short : comp.length < 2 ^ 63) :
    (∀ a ∈ direntReads m comp (dirbuf + o), dirbuf ≤ a ∧ a < dirbuf + stop) ↔
      RecordInside m dirbuf stop comp o := by
  have small : (ext2DirentAt m (dirbuf + o)).nameLen < 2 ^ 64 := (nameLen_lt m _).trans (by decide)
  have names : (∀ a ∈ strncmpReads m comp (dirbuf + o + 8) (ext2DirentAt m (dirbuf + o)).nameLen,
      dirbuf ≤ a ∧ a < dirbuf + stop) ↔
      ∀ i < compared m comp (dirbuf + o + 8) (ext2DirentAt m (dirbuf + o)).nameLen, o + 8 + i < stop := by
    simp only [mem_strncmpReads noNul short small]
    constructor
    · intro inside i lt
      have := inside (dirbuf + o + 8 + i) (by omega)
      omega
    · rintro inside a ⟨low, high⟩
      have := inside (a - (dirbuf + o + 8)) (by omega)
      omega
  -- the fields
  have field : ∀ p w, (∀ a ∈ (List.range w).map (dirbuf + o + p + ·), dirbuf ≤ a ∧ a < dirbuf + stop) ↔
      w = 0 ∨ o + p + w ≤ stop := by
    intro p w
    rw [List.forall_mem_map]
    simp only [List.mem_range]
    constructor
    · intro inside
      by_contra out
      have := inside (w - 1) (by omega)
      omega
    · rintro inside i lt
      omega
  have header := field 0 4
  have length := field 4 2
  rw [Nat.add_zero] at header
  unfold direntReads
  by_cases unused : (ext2DirentAt m (dirbuf + o)).inode = 0
  · simp only [if_pos unused, List.forall_mem_append, header, length]
    constructor
    · rintro ⟨_, inside⟩
      exact ⟨by omega, fun used => absurd unused used, fun _ => by omega⟩
    · intro inside
      have := inside.recLen fun accepts => accepts.1 unused
      omega
  · by_cases same : strncmp m comp (dirbuf + o + 8) (ext2DirentAt m (dirbuf + o)).nameLen = 0
    · simp only [if_neg unused, if_pos same, List.forall_mem_append, List.forall_mem_cons, header, names]
      constructor
      · rintro ⟨inode, nameLen, name⟩
        exact ⟨by omega, fun _ => ⟨by omega, name⟩, fun not => absurd ⟨unused, same⟩ not⟩
      · intro inside
        obtain ⟨nameLen, name⟩ := inside.name unused
        have := inside.inode
        exact ⟨by omega, by omega, name⟩
    · simp only [if_neg unused, if_neg same, List.forall_mem_append, List.forall_mem_cons, header, length,
        names]
      constructor
      · rintro ⟨⟨inode, nameLen, name⟩, recLen⟩
        exact ⟨by omega, fun _ => ⟨by omega, name⟩, fun _ => by omega⟩
      · intro inside
        obtain ⟨nameLen, name⟩ := inside.name unused
        have := inside.inode
        have := inside.recLen fun accepts => same accepts.2
        exact ⟨⟨by omega, by omega, name⟩, by omega⟩

/-- A record of the walk: nothing is read outside the block for it, and if it is passed over it has a
length. -/
structure RecordGood (m : Bytes) (dirbuf stop : Nat) (comp : List (BitVec 8)) (o : Nat) : Prop extends
    RecordInside m dirbuf stop comp o where
  advances : ¬ Accepts m dirbuf comp o → (ext2DirentAt m (dirbuf + o)).recLen ≠ 0

/-- **The inner loop.** It ends and reads inside the block exactly when every record that it comes to is a
good one. -/
theorem nameiLoop_good_iff (word : stop ≤ 2 ^ 20) (noNul : (0 : BitVec 8) ∉ comp)
    (short : comp.length < 2 ^ 63) :
    ((∃ found, nameiLoop m dirbuf stop comp stop 0 = .ok found) ∧
      ∀ a ∈ nameiLoopReads m dirbuf stop comp stop 0, dirbuf ≤ a ∧ a < dirbuf + stop) ↔
    ∀ o, Meets m dirbuf stop comp 0 o → o < stop → RecordGood m dirbuf stop comp o := by
  rw [nameiLoop_ends_iff word]
  constructor
  · rintro ⟨advances, inside⟩ o meets lt
    refine ⟨(direntReads_inside noNul short).mp fun a reads => ?_, advances o meets lt⟩
    exact inside a ((mem_nameiLoopReads word (by omega)).mpr ⟨o, meets, lt, reads⟩)
  · intro good
    refine ⟨fun o meets lt => (good o meets lt).advances, fun a reads => ?_⟩
    obtain ⟨o, meets, lt, reads⟩ := (mem_nameiLoopReads word (by omega)).mp reads
    exact (direntReads_inside noNul short).mpr (good o meets lt).toRecordInside a reads

/-! ## The rounds -/

/-- A call comes to its end: it returns, or it panics. -/
def Finishes {α : Type} (x : Except Fault α) : Prop :=
  (∃ a, x = .ok a) ∨ ∃ msg, x = .error (.panic msg)

/-- A round whose inner loop ends panics or comes to the next one. -/
theorem nameiRound_goes_on {s : Clients} {node : Bytes} {k : Nat}
    (walking : Walking s fs dirbuf inBuf node h) (buffers : WalkBuffers s fs dirbuf inBuf) (small : k ≤ 6)
    (blocks : fs.blockSize = 1024 <<< k) (perGroup : 0 < sInodesPerGroup fs.sb)
    (ends : ∀ h₁, ext2GetBlock disk h fs inBuf dirbuf 0 = .ok h₁ →
      ∃ found, nameiLoop h₁.mem dirbuf fs.blockSize comp fs.blockSize 0 = .ok found) :
    (∃ msg, nameiRound disk fs dirbuf inBuf comp h = .error (.panic msg)) ∨
      ∃ ino h' node', nameiRound disk fs dirbuf inBuf comp h = .ok (ino, h') ∧
        Walking s fs dirbuf inBuf node' h' := by
  obtain ⟨bs, inv⟩ := walking.served
  have owned : ∀ i < fs.blockSize, Clients.Owns ⟨h, (inBuf, sizeofIno) ::
      (dirbuf, fs.blockSize) :: s.live⟩ (dirbuf + i) :=
    fun i lt => (Clients.owns_head h s.live i lt).cons h _
  unfold nameiRound
  rcases ext2GetBlock_reads disk 0 inv small blocks walking.holds owned buffers.dirNotNull (by omega)
      (Nat.zero_le _) with ⟨ran, _⟩ | ⟨h₁, ran, got⟩
  · dsimp only at ran
    rw [ran]
    exact .inl ⟨_, rfl⟩
  dsimp only at ran
  obtain ⟨found, looped⟩ := ends h₁ ran
  rw [ran, ok_bind, looped, ok_bind]
  cases found with
  | none => exact .inl ⟨_, rfl⟩
  | some ino =>
    obtain ⟨bs₁, inv₁, _⟩ := got.served
    dsimp only
    rcases ext2GetInode_serves disk ino inv₁ (blockSize_dvd blocks) perGroup
        (Clients.owns_head h₁ _) buffers.inNotNull with ⟨failed, _⟩ | ⟨h₂, read, got₂⟩
    · rw [failed]
      exact .inl ⟨_, rfl⟩
    · obtain ⟨bs₂, inv₂, _⟩ := got₂.served
      rw [read]
      refine .inr ⟨ino, h₂, fun i => h₂.mem (inBuf + i), rfl, ⟨bs₂, inv₂⟩, fun _ _ => rfl, fun a owns => ?_⟩
      rw [got₂.kept a ((owns.cons h₁ _).cons h₁ _) (buffers.inFresh a owns),
        got.kept a ((owns.cons h _).cons h _) (buffers.dirFresh a owns)]
      exact walking.kept a owns

/-- In every round the buffers are allocated, and an inode is in `in`. -/
theorem NameiAt.walking {s : Clients} {bs : List Block} {k : Nat}
    (at' : NameiAt disk s.heap fs path dirbuf inBuf start h) (inv : Served s bs) (small : k ≤ 6)
    (blocks : fs.blockSize = 1024 <<< k) (perGroup : 0 < sInodesPerGroup fs.sb) :
    WalkBuffers s fs dirbuf inBuf ∧ ∃ node, Walking s fs dirbuf inBuf node h := by
  induction at' with
  | start ran =>
    rcases nameiStart_serves inv small blocks with ⟨failed, _⟩ | ⟨r, ran', buffers, walking, _⟩
    · cases failed.symm.trans ran
    · cases ran'.symm.trans ran
      exact ⟨buffers, _, walking⟩
  | round _ _ _ _ ran ih =>
    obtain ⟨buffers, node, walking⟩ := ih
    obtain ⟨h₁, got, rest⟩ := bind_eq_ok.mp ran
    obtain ⟨found, looped, _⟩ := bind_eq_ok.mp rest
    rcases nameiRound_goes_on walking buffers small blocks perGroup fun h₁' got' => by
        cases got.symm.trans got'
        exact ⟨found, looped⟩ with ⟨msg, failed⟩ | ⟨ino, h', node', ran', walking'⟩
    · cases failed.symm.trans ran
    · cases ran'.symm.trans ran
      exact ⟨buffers, node', walking'⟩

/-! ## Along the path -/

/-- What is left of a path after a round is shorter. -/
theorem rest_length_lt {path : List (BitVec 8)} (more : path ≠ []) :
    ((path.dropWhile (· ≠ slash)).drop 1).length < path.length := by
  have le := (path.dropWhile_suffix (· ≠ slash)).length_le
  have pos := List.length_pos_of_ne_nil more
  rw [List.length_drop]
  omega

/-- Rounds that are not needed change nothing. -/
theorem nameiComps_fuel {fuel fuel' ino : Nat} {path : List (BitVec 8)} (enough : path.length ≤ fuel)
    (enough' : path.length ≤ fuel') : nameiComps disk fs dirbuf inBuf fuel path ino h =
      nameiComps disk fs dirbuf inBuf fuel' path ino h := by
  induction fuel generalizing fuel' path ino h with
  | zero =>
    obtain rfl := List.length_eq_zero_iff.mp (Nat.le_zero.mp enough)
    rw [nameiComps_nil, nameiComps_nil]
  | succ fuel ih =>
    by_cases done : path = []
    · rw [done, nameiComps_nil, nameiComps_nil]
    · have shorter := rest_length_lt done
      obtain ⟨fuel', rfl⟩ : ∃ k, fuel' = k + 1 := ⟨fuel' - 1, by omega⟩
      rw [nameiComps, nameiComps, if_neg done, if_neg done]
      dsimp only
      split
      · rfl
      · congr 1
        funext r
        exact ih (by omega) (by omega)

/-- A round more, with rounds for what is left. -/
theorem nameiComps_next {rest path : List (BitVec 8)} (noSlash : slash ∉ comp) (short : comp.length ≤ 255)
    (cut : Cuts comp rest path) (ino : Nat) : nameiComps disk fs dirbuf inBuf path.length path ino h =
      nameiRound disk fs dirbuf inBuf comp h >>= fun r =>
        nameiComps disk fs dirbuf inBuf rest.length rest r.1 r.2 := by
  obtain ⟨k, length, enough⟩ : ∃ k, path.length = k + 1 ∧ rest.length ≤ k := by
    rcases cut with ⟨rfl, rfl, more⟩ | rfl
    · have := List.length_pos_of_ne_nil more
      exact ⟨path.length - 1, by omega, Nat.zero_le _⟩
    · exact ⟨comp.length + rest.length, by rw [List.length_append, List.length_cons]; omega,
        Nat.le_add_left _ _⟩
  rw [length, nameiComps_round noSlash short cut]
  congr 1
  funext r
  exact nameiComps_fuel enough (Nat.le_refl _)

/-- The bytes of a component. -/
theorem CompEnds.noSlash (ends : CompEnds path start l) : slash ∉ bytesAt path start l := by
  intro mem
  obtain ⟨j, lt, same⟩ := List.mem_map.mp mem
  exact (ends.1 j (List.mem_range.mp lt)).1 same

theorem CompEnds.noNul (ends : CompEnds path start l) : (0 : BitVec 8) ∉ bytesAt path start l := by
  intro mem
  obtain ⟨j, lt, same⟩ := List.mem_map.mp mem
  exact (ends.1 j (List.mem_range.mp lt)).2 same

/-- A component of a path that has more than its NUL is not empty, or a slash follows. -/
theorem CompEnds.pos (ends : CompEnds path start l) (more : path start ≠ 0)
    (noSlash : path (start + l) ≠ slash) : 0 < l := by
  apply Nat.pos_of_ne_zero
  rintro rfl
  rcases ends.2 with atSlash | atNul
  · exact noSlash atSlash
  · exact more atNul

/-- An offset that the walk comes to is the second byte's, or stands behind a slash, or is the NUL's. -/
theorem NameiAt.before (at' : NameiAt disk h₀ fs path dirbuf inBuf start h) :
    0 < start ∧ (start = 1 ∨ path (start - 1) = slash ∨ path start = 0) := by
  cases at' with
  | start => exact ⟨Nat.one_pos, .inl rfl⟩
  | @round start l _ _ _ at' more ends _ _ =>
    by_cases atSlash : path (start + l) = slash
    · rw [if_pos atSlash]
      exact ⟨by omega, .inr (.inl atSlash)⟩
    · rw [if_neg atSlash]
      have := ends.pos more atSlash
      exact ⟨by omega, .inr (.inr (ends.2.resolve_left atSlash))⟩

/-- **The path so far.** Whatever follows on the path behind the offset that the walk has come to, what is
left to do is to go along that. -/
theorem NameiAt.namei_eq (at' : NameiAt disk h₀ fs path dirbuf inBuf start h) :
    ∃ ino, ∀ rest, (start = 1 ∨ path (start - 1) = slash ∨ rest = []) →
      ext2Namei disk h₀ fs (bytesAt path 0 start ++ rest) =
        nameiComps disk fs dirbuf inBuf rest.length rest ino h >>= fun r =>
          .ok (r.1, Mm.free (Mm.free r.2 dirbuf) inBuf) := by
  induction at' with
  | @start h ran =>
    refine ⟨ext2RootIno, fun rest _ => ?_⟩
    have fuel : nameiComps disk fs dirbuf inBuf (bytesAt path 0 1 ++ rest).length rest ext2RootIno h =
        nameiComps disk fs dirbuf inBuf rest.length rest ext2RootIno h := by
      apply nameiComps_fuel _ (Nat.le_refl _)
      rw [List.length_append]
      omega
    rw [ext2Namei_eq, ran, ok_bind, ← fuel]
    rfl
  | @round start l ino' h h' at' more ends short ran ih =>
    obtain ⟨ino, ih⟩ := ih
    obtain ⟨pos, before⟩ := at'.before
    have open' : start = 1 ∨ path (start - 1) = slash :=
      before.imp_right fun either => either.resolve_right more
    refine ⟨ino', fun rest follows => ?_⟩
    -- one round more takes the component off
    have step : ∀ tail, Cuts (bytesAt path start l) rest (bytesAt path start l ++ tail) →
        ext2Namei disk h₀ fs (bytesAt path 0 start ++ (bytesAt path start l ++ tail)) =
          nameiComps disk fs dirbuf inBuf rest.length rest ino' h' >>= fun r =>
            .ok (r.1, Mm.free (Mm.free r.2 dirbuf) inBuf) := by
      intro tail cut
      have ran : nameiRound disk fs dirbuf inBuf (bytesAt path start l) h = .ok (ino', h') := ran
      rw [ih _ (open'.imp_right .inl), nameiComps_next ends.noSlash (bytesAt_length.le.trans short) cut, ran,
        ok_bind]
    have sofar : bytesAt path 0 (start + l) = bytesAt path 0 start ++ bytesAt path start l := by
      rw [bytesAt_append, Nat.zero_add]
    by_cases atSlash : path (start + l) = slash
    · have last : bytesAt path (0 + (start + l)) 1 = [slash] := by
        rw [Nat.zero_add]
        exact congrArg (fun c => [c]) atSlash
      rw [if_pos atSlash, bytesAt_append, last, sofar, List.append_assoc, List.append_assoc]
      exact step ([slash] ++ rest) (.inr rfl)
    · have more := ends.pos more atSlash
      have letter : path (start + l - 1) ≠ slash := (ends.1.letter (by omega) (by omega)).1
      rw [if_neg atSlash] at follows ⊢
      have ended : rest = [] := (follows.resolve_left (by omega)).resolve_left letter
      have filled : bytesAt path start l ≠ [] := List.ne_nil_of_length_pos (bytesAt_length.symm ▸ more)
      rw [sofar, List.append_assoc]
      exact step rest (.inl ⟨by rw [ended, List.append_nil], ended, filled⟩)

/-- What is left of a string at a component. -/
theorem CompEnds.split (ends : CompEnds path start l) (str : IsString path n) (inside : start ≤ n)
    (more : path start ≠ 0) : ∃ rest, Cuts (bytesAt path start l) rest (bytesAt path start (n - start)) ∧
    rest = bytesAt path (if path (start + l) = slash then start + l + 1 else start + l)
      (n - if path (start + l) = slash then start + l + 1 else start + l) := by
  have le := ends.1.le str inside
  refine ⟨_, ?_, rfl⟩
  by_cases atSlash : path (start + l) = slash
  · right
    have notEnd : start + l ≠ n := by
      intro same
      rw [same, str.nul] at atSlash
      exact absurd atSlash (by decide)
    rw [if_pos atSlash, show n - start = l + (n - (start + l + 1) + 1) by omega, bytesAt_append,
      bytesAt_succ, atSlash]
  · left
    have atEnd : start + l = n := by
      by_contra before
      exact str.letters (start + l) (by omega) (ends.2.resolve_left atSlash)
    have pos := ends.pos more atSlash
    rw [if_neg atSlash, atEnd, Nat.sub_self, show n - start = l by omega]
    exact ⟨rfl, rfl, List.ne_nil_of_length_pos (bytesAt_length.symm ▸ pos)⟩

theorem Finishes.map_iff {α β : Type} {x : Except Fault α} (g : α → β) :
    Finishes (x >>= fun a => .ok (g a)) ↔ Finishes x := by
  cases x with
  | error e => simp [Finishes]
  | ok a => exact ⟨fun _ => .inl ⟨a, rfl⟩, fun _ => .inl ⟨g a, rfl⟩⟩

/-- The call comes to its end when the rounds from an offset on that it has come to do. -/
theorem NameiAt.finishes_iff (at' : NameiAt disk h₀ fs path dirbuf inBuf start h)
    (str : IsString path n) (pos : 0 < n) : ∃ ino, Finishes (ext2Namei disk h₀ fs (bytesAt path 0 n)) ↔
      Finishes (nameiComps disk fs dirbuf inBuf (bytesAt path start (n - start)).length
        (bytesAt path start (n - start)) ino h) := by
  obtain ⟨ino, rounds⟩ := at'.namei_eq
  obtain ⟨_, before⟩ := at'.before
  have le := at'.le str pos
  have follows : start = 1 ∨ path (start - 1) = slash ∨ bytesAt path start (n - start) = [] := by
    refine before.imp_right (Or.imp_right fun atNul => ?_)
    have atEnd : start = n := by
      by_contra other
      exact str.letters start (by omega) atNul
    rw [atEnd, Nat.sub_self]
    rfl
  have whole : bytesAt path 0 start ++ bytesAt path start (n - start) = bytesAt path 0 n := by
    have split := bytesAt_append (m := path) (a := 0) start (n - start)
    rw [Nat.add_sub_of_le le, Nat.zero_add] at split
    exact split.symm
  refine ⟨ino, ?_⟩
  rw [← whole, rounds _ follows, Finishes.map_iff]

/-- A component that has no room in `comp`. -/
theorem nameiComps_long {rest path : List (BitVec 8)} (noSlash : slash ∉ comp)
    (long : 255 < comp.length) (cut : Cuts comp rest path) (ino : Nat) :
    nameiComps disk fs dirbuf inBuf path.length path ino h = .error .undefined := by
  obtain ⟨more, taken, _⟩ := path_cut noSlash cut
  obtain ⟨k, length⟩ := Nat.exists_eq_add_one.mpr (List.length_pos_of_ne_nil more)
  rw [length, nameiComps, if_neg more]
  simp only [taken, if_pos long]

/-- What is promised of a lookup, whatever the directories hold: it returns or panics, and in no round is a
byte outside `dirbuf` read as a part of a record. -/
structure LookupSafe (disk : Bytes) (h₀ : Heap) (fs : Ext2Fs) (path : Bytes) (n : Nat) : Prop where
  finishes : Finishes (ext2Namei disk h₀ fs (bytesAt path 0 n))
  reads : ∀ dirbuf inBuf start h l h₁, NameiAt disk h₀ fs path dirbuf inBuf start h →
    path start ≠ 0 → CompEnds path start l → l ≤ 255 →
    ext2GetBlock disk h fs inBuf dirbuf 0 = .ok h₁ →
    ∀ a ∈ nameiLoopReads h₁.mem dirbuf fs.blockSize (bytesAt path start l) fs.blockSize 0,
      dirbuf ≤ a ∧ a < dirbuf + fs.blockSize

/-- A round that goes well: the component has room in `comp`, and every record of the directory's block that
the inner loop comes to is a good one. -/
def RoundGood (disk : Bytes) (fs : Ext2Fs) (path : Bytes) (dirbuf inBuf start l : Nat) (h : Heap) : Prop :=
  l ≤ 255 ∧ ∀ h₁, ext2GetBlock disk h fs inBuf dirbuf 0 = .ok h₁ →
    ∀ o, Meets h₁.mem dirbuf fs.blockSize (bytesAt path start l) 0 o → o < fs.blockSize →
      RecordGood h₁.mem dirbuf fs.blockSize (bytesAt path start l) o

/-- The inner loop of a round that goes well ends inside the block, and that of no other does. -/
theorem roundGood_iff {k : Nat} (small : k ≤ 6) (blocks : fs.blockSize = 1024 <<< k)
    (ends : CompEnds path start l) : RoundGood disk fs path dirbuf inBuf start l h ↔
      l ≤ 255 ∧ ∀ h₁, ext2GetBlock disk h fs inBuf dirbuf 0 = .ok h₁ →
        (∃ found, nameiLoop h₁.mem dirbuf fs.blockSize (bytesAt path start l) fs.blockSize 0 = .ok found) ∧
        ∀ a ∈ nameiLoopReads h₁.mem dirbuf fs.blockSize (bytesAt path start l) fs.blockSize 0,
          dirbuf ≤ a ∧ a < dirbuf + fs.blockSize := by
  obtain ⟨quarter, _, high⟩ := ptrs_range small blocks
  refine and_congr_right fun short => forall₂_congr fun h₁ _ => ?_
  have fits : (bytesAt path start l).length < 2 ^ 63 := by
    rw [bytesAt_length]
    omega
  exact (nameiLoop_good_iff (by omega) ends.noNul fits).symm

/-- **A path whose rounds all go well.** From every offset that the walk comes to, it ends. -/
theorem nameiComps_finishes {s : Clients} {bs : List Block} {k : Nat} (ino : Nat)
    (at' : NameiAt disk s.heap fs path dirbuf inBuf start h) (inv : Served s bs) (small : k ≤ 6)
    (blocks : fs.blockSize = 1024 <<< k) (perGroup : 0 < sInodesPerGroup fs.sb)
    (str : IsString path n) (pos : 0 < n)
    (good : ∀ start h l, NameiAt disk s.heap fs path dirbuf inBuf start h → path start ≠ 0 →
      CompEnds path start l → RoundGood disk fs path dirbuf inBuf start l h) :
    Finishes (nameiComps disk fs dirbuf inBuf (bytesAt path start (n - start)).length
      (bytesAt path start (n - start)) ino h) := by
  generalize left : n - start = d
  induction d using Nat.strong_induction_on generalizing start ino h with
  | _ d ih =>
    have le := at'.le str pos
    by_cases more : path start = 0
    · have atEnd : d = 0 := by
        by_contra before
        exact str.letters start (by omega) more
      rw [atEnd]
      exact .inl ⟨_, rfl⟩
    obtain ⟨l, ends⟩ := str.component le
    obtain ⟨rest, cut, tail⟩ := ends.split str le more
    obtain ⟨short, loops⟩ := (roundGood_iff small blocks ends).mp (good start h l at' more ends)
    rw [left] at cut
    rw [nameiComps_next ends.noSlash (bytesAt_length.le.trans short) cut]
    obtain ⟨buffers, node, walking⟩ := at'.walking inv small blocks perGroup
    rcases nameiRound_goes_on walking buffers small blocks perGroup fun h₁ got => (loops h₁ got).1 with
      ⟨msg, failed⟩ | ⟨ino', h', _, ran, _⟩
    · rw [failed]
      exact .inr ⟨msg, rfl⟩
    · have next := at'.round more ends short ran
      have le' := next.le str pos
      have advances : start < if path (start + l) = slash then start + l + 1 else start + l := by
        split
        · omega
        · rename_i noSlash
          have := ends.pos more noSlash
          omega
      rw [ran, ok_bind, tail]
      exact ih _ (by omega) ino' next rfl

/-- In a lookup that is safe every round goes well. -/
theorem LookupSafe.roundGood {k : Nat} (safe : LookupSafe disk h₀ fs path n) (small : k ≤ 6)
    (blocks : fs.blockSize = 1024 <<< k) (str : IsString path n) (pos : 0 < n)
    (at' : NameiAt disk h₀ fs path dirbuf inBuf start h) (more : path start ≠ 0)
    (ends : CompEnds path start l) : RoundGood disk fs path dirbuf inBuf start l h := by
  have le := at'.le str pos
  obtain ⟨ino, rounds⟩ := at'.finishes_iff str pos
  have finishes := rounds.mp safe.finishes
  obtain ⟨rest, cut, _⟩ := ends.split str le more
  obtain ⟨_, _, high⟩ := ptrs_range small blocks
  have short : l ≤ 255 := by
    by_contra long
    rw [nameiComps_long ends.noSlash (by rw [bytesAt_length]; omega) cut] at finishes
    rcases finishes with ⟨_, ran⟩ | ⟨_, ran⟩ <;> cases ran
  refine (roundGood_iff small blocks ends).mpr ⟨short, fun h₁ got => ⟨?_, ?_⟩⟩
  · rw [nameiComps_next ends.noSlash (bytesAt_length.le.trans short) cut, nameiRound, got, ok_bind]
      at finishes
    -- a loop that does not end neither returns nor panics
    have walk := nameiLoop_walk h₁.mem dirbuf (bytesAt path start l)
      (show fs.blockSize ≤ 2 ^ 20 by omega) (show fs.blockSize ≤ 0 + fs.blockSize by omega)
    cases stops : stopsAt (nextDoff h₁.mem dirbuf)
        (Passes h₁.mem dirbuf fs.blockSize (bytesAt path start l)) fs.blockSize 0 with
    | some o =>
      rw [stops] at walk
      exact ⟨_, walk⟩
    | none =>
      rw [stops] at walk
      rw [walk] at finishes
      rcases finishes with ⟨_, ran⟩ | ⟨_, ran⟩ <;> cases ran
  · exact safe.reads dirbuf inBuf start h l h₁ at' more ends short got

/-- **Any disk.** For every disk, every state of the heap and every path that begins with a slash: the lookup
ends and reads no byte outside `dirbuf` as a part of a record exactly when every round that it comes to goes
well. -/
theorem ext2Namei_lookupSafe_iff (disk : Bytes) (s : Clients) (bs : List Block) (fs : Ext2Fs)
    (path : Bytes) (n k : Nat) (inv : Served s bs) (small : k ≤ 6)
    (blocks : fs.blockSize = 1024 <<< k) (perGroup : 0 < sInodesPerGroup fs.sb)
    (str : IsString path n) (absolute : path 0 = slash) : LookupSafe disk s.heap fs path n ↔
      ∀ dirbuf inBuf start h l, NameiAt disk s.heap fs path dirbuf inBuf start h → path start ≠ 0 →
        CompEnds path start l → RoundGood disk fs path dirbuf inBuf start l h := by
  have pos : 0 < n := by
    apply Nat.pos_of_ne_zero
    rintro rfl
    exact absurd (absolute.symm.trans str.nul) (by decide)
  constructor
  · intro safe dirbuf inBuf start h l at' more ends
    exact safe.roundGood small blocks str pos at' more ends
  · intro good
    constructor
    case finishes =>
      rcases nameiStart_serves inv small blocks with ⟨failed, _⟩ | ⟨⟨dirbuf, inBuf, h⟩, ran, _⟩
      · rw [ext2Namei_eq, failed]
        exact .inr ⟨_, rfl⟩
      · have at' : NameiAt disk s.heap fs path dirbuf inBuf 1 h := .start ran
        obtain ⟨ino, rounds⟩ := at'.finishes_iff str pos
        exact rounds.mpr (nameiComps_finishes ino at' inv small blocks perGroup str pos (good dirbuf inBuf))
    case reads =>
      intro dirbuf inBuf start h l h₁ at' more ends _ got
      exact (((roundGood_iff small blocks ends).mp (good dirbuf inBuf start h l at' more ends)).2 h₁ got).2

/-! ## Well-formed directories -/

/-- The inner `while` comes to the records of a block. -/
theorem Meets.mem_records (same : ∀ i < stop, m (dirbuf + i) = b i)
    (fits : ∀ o ∈ recordsFrom b stop fuel a,
      8 ≤ (ext2DirentAt b o).recLen ∧ o + (ext2DirentAt b o).recLen ≤ stop)
    (word : stop ≤ 2 ^ 20) (enough : stop ≤ a + fuel) (meets : Meets m dirbuf stop comp a o)
    (lt : o < stop) : o ∈ recordsFrom b stop fuel a := by
  induction fuel generalizing a with
  | zero =>
    rcases visits_iff.mp meets with rfl | ⟨passes, _⟩
    · omega
    · have := passes.1
      omega
  | succ fuel ih =>
    rcases visits_iff.mp meets with rfl | ⟨passes, later⟩
    · rw [recordsFrom, if_pos lt]
      exact List.mem_cons_self
    · rw [recordsFrom, if_pos passes.1] at fits ⊢
      obtain ⟨least, inside⟩ := fits a List.mem_cons_self
      rw [nextDoff_eq _ _ word passes.1, direntAt_copy same (by omega)] at later
      exact List.mem_cons_of_mem _ (ih (fun o mem => fits o (List.mem_cons_of_mem _ mem)) (by omega) later)

/-- In a well-formed block, no name in which is a proper prefix of the component, every record is a good
one. -/
theorem DirBlock.recordGood (dir : DirBlock b stop) (same : ∀ i < stop, m (dirbuf + i) = b i)
    (word : stop ≤ 2 ^ 20) (clear : ∀ o ∈ records b stop, recName b o <+: comp → recName b o = comp)
    (meets : Meets m dirbuf stop comp 0 o) (lt : o < stop) : RecordGood m dirbuf stop comp o := by
  have mem : o ∈ records b stop := Meets.mem_records same dir.fits word (by omega) meets lt
  obtain ⟨least, inside⟩ := dir.fits o mem
  have here : ext2DirentAt m (dirbuf + o) = ext2DirentAt b o := direntAt_copy same (by omega)
  refine ⟨⟨by omega, fun used => ⟨by omega, ?_⟩, fun _ => by omega⟩, fun _ => ?_⟩
  · rw [here] at used ⊢
    have room := (dir.named o mem used).1
    have name : bytesAt m (dirbuf + o + 8) (ext2DirentAt b o).nameLen = recName b o := by
      rw [Nat.add_assoc]
      exact bytesAt_copy same (by omega)
    have most := commonPrefix_le m comp (dirbuf + o + 8)
    -- the comparison ends in the name
    have within : compared m comp (dirbuf + o + 8) (ext2DirentAt b o).nameLen ≤
        (ext2DirentAt b o).nameLen := by
      unfold compared
      by_cases longer : (ext2DirentAt b o).nameLen ≤ commonPrefix m comp (dirbuf + o + 8)
      · have whole := clear o mem (name ▸ le_commonPrefix_iff.mp longer)
        have length : comp.length = (ext2DirentAt b o).nameLen := by
          rw [← whole]
          exact bytesAt_length
        rw [if_pos ⟨by omega, length.symm⟩]
        omega
      · split <;> omega
    intro i compared
    omega
  · rw [here]
    omega

/-! ## The root directory -/

/-- The walk tests the second byte before the first round. -/
theorem NameiAt.one (at' : NameiAt disk h₀ fs path dirbuf inBuf 1 h) :
    nameiStart h₀ fs = .ok (dirbuf, inBuf, h) := by
  generalize second : 1 = first at at'
  cases at' with
  | start ran => exact ran
  | @round start l _ _ _ at' more ends _ _ =>
    have pos := at'.before.1
    by_cases atSlash : path (start + l) = slash
    · rw [if_pos atSlash] at second
      omega
    · rw [if_neg atSlash] at second
      have := ends.pos more atSlash
      omega

/-- The first round of a lookup on a disk like the small one: the root directory's block is read. -/
theorem root_round (disk : Bytes) (same : ∀ a < 5248, disk a = twoGroups a)
    (pointer : iBlock (fun i => disk (5248 + i)) 0 0 = 46) :
    ∃ (s : Clients) (bs : List Block) (p dirbuf inBuf : Nat) (h h₁ : Heap), Served s bs ∧
      Mounted disk s (likeTwoGroups disk p) 65536 ∧
      nameiStart s.heap (likeTwoGroups disk p) = .ok (dirbuf, inBuf, h) ∧
      ext2GetBlock disk h (likeTwoGroups disk p) inBuf dirbuf 0 = .ok h₁ ∧
      ∀ i < 1024, h₁.mem (dirbuf + i) = disk (47104 + i) := by
  obtain ⟨s, bs, p, dirbuf, inBuf, h, inv, mounted, _, ran, buffers, walking, _, room⟩ := root_start disk same
  have inside : (iBlock (fun i => disk (5248 + i)) 0 0 + 1) * (likeTwoGroups disk p).blockSize ≤ 65536 := by
    rw [pointer]
    show (46 + 1) * 1024 ≤ 65536
    decide
  have size : (likeTwoGroups disk p).blockSize = 1024 := rfl
  rcases getDirBlock_serves walking buffers mounted inside with ⟨_, full⟩ | ⟨h₁, got, _, _, bytes⟩
  · exact absurd (by omega) full
  · refine ⟨s, bs, p, dirbuf, inBuf, h, h₁, inv, mounted, ran, got, fun i lt => ?_⟩
    rw [bytes i lt, dirBlock, pointer]
    rfl

/-- The path `/a` is looked up safely in the small root directory. -/
theorem ext2Namei_lookupSafe_iff_small : ∃ (s : Clients) (p : Nat),
    Mounted twoGroups s (twoGroupsFs p) 65536 ∧ LookupSafe twoGroups s.heap (twoGroupsFs p) shortPath 2 := by
  obtain ⟨s, bs, p, dirbuf, inBuf, h, h₁, inv, mounted, ran, got, bytes⟩ :=
    root_round twoGroups (fun _ _ => rfl) (by decide)
  have size : (twoGroupsFs p).blockSize = 1024 := rfl
  have str : IsString shortPath 2 := ⟨rfl, by decide⟩
  refine ⟨s, p, mounted, (ext2Namei_lookupSafe_iff twoGroups s bs (twoGroupsFs p) shortPath 2 0 inv
    (by decide) size mounted.perGroup str rfl).mpr ?_⟩
  intro dirbuf' inBuf' start h' l at' more ends
  have le := at'.le str (by decide)
  have pos := at'.before.1
  -- the walk is at the letter
  have first : start = 1 := by
    by_contra other
    exact more ((show start = 2 by omega) ▸ str.nul)
  subst first
  have one : l = 1 := by
    have fits := ends.1.le str le
    by_contra other
    have zero : l = 0 := by omega
    rw [zero] at ends
    exact absurd ends.2 (by decide)
  subst one
  cases ran.symm.trans at'.one
  refine ⟨by decide, fun h₁' got' o meets lt => ?_⟩
  cases got.symm.trans got'
  refine twoGroupsDir_block.recordGood bytes (by decide) ?_ meets lt
  rw [twoGroupsDir_records]
  decide

/-- The small image, the first record of whose root directory has no length. -/
def noLength : Bytes := Function.update twoGroups 47108 0

/-- No name is looked up in it: the loop stays at the first record. -/
theorem ext2Namei_noLength : ∃ (s : Clients) (bs : List Block) (p : Nat), Served s bs ∧
    Mounted noLength s (likeTwoGroups noLength p) 65536 ∧ IsString shortPath 2 ∧ shortPath 0 = slash ∧
      ¬ LookupSafe noLength s.heap (likeTwoGroups noLength p) shortPath 2 := by
  obtain ⟨s, bs, p, dirbuf, inBuf, h, h₁, inv, mounted, ran, got, bytes⟩ :=
    root_round noLength (fun a lt => Function.update_of_ne (by omega) _ _) (by decide)
  have size : (likeTwoGroups noLength p).blockSize = 1024 := rfl
  have str : IsString shortPath 2 := ⟨rfl, by decide⟩
  refine ⟨s, bs, p, inv, mounted, str, rfl, fun safe => ?_⟩
  have ends : CompEnds shortPath 1 1 := by decide
  have good := (safe.roundGood (show 0 ≤ 6 by decide) size str (by decide) (.start ran) (by decide) ends).2
    h₁ got 0 .start (size ▸ Nat.succ_pos 1023)
  have header : ext2DirentAt h₁.mem (dirbuf + 0) = ext2DirentAt (fun i => noLength (47104 + i)) 0 :=
    direntAt_copy bytes (by decide)
  -- the record is `.`
  have other : commonPrefix h₁.mem (bytesAt shortPath 1 1) (dirbuf + 0 + 8) = 0 := by
    apply if_neg
    rw [show h₁.mem (dirbuf + 0 + 8) = noLength (47104 + 8) from bytes 8 (by decide)]
    decide
  refine good.advances ?_ ?_
  · rintro ⟨_, same⟩
    rw [header] at same
    rcases (strncmp_eq_zero_iff (by decide) (by decide) ((nameLen_lt _ 0).trans (by decide))).mp same with
      short | ⟨whole, _⟩
    · rw [other] at short
      exact absurd short (by decide)
    · rw [other] at whole
      exact absurd whole (by decide)
  · rw [header]
    decide

end Blackcomb.Fs
