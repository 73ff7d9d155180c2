import Blackcomb.Laws.Fs.ReadFile

/-!
# Looking up a name

`ext2_namei` takes the first live record of a directory whose name `strncmp` accepts. The comparison
goes on behind a name that is a proper prefix of the component, and it accepts the name when the byte
behind it is not the component's next, or when the component and a NUL stand there. So a record can be
mistaken for another: `Mistaken` says which, by the bytes of the block, and `Cut` where the block ends
before that is decided.
-/

namespace Blackcomb.Fs

open Memory Mm Drivers

variable {m b : Bytes} {comp : List (BitVec 8)} {a n o stop dirbuf : Nat}

/-! ## Comparing -/

/-- How many bytes from `a` on are the string's. -/
def commonPrefix (m : Bytes) : List (BitVec 8) → Nat → Nat
  | [], _ => 0
  | c :: cs, a => if c = m a then commonPrefix m cs (a + 1) + 1 else 0

theorem commonPrefix_le (m : Bytes) (comp : List (BitVec 8)) (a : Nat) :
    commonPrefix m comp a ≤ comp.length := by
  induction comp generalizing a with
  | nil => exact Nat.le_refl 0
  | cons c cs ih =>
    rw [commonPrefix]
    split
    · exact Nat.succ_le_succ (ih (a + 1))
    · exact Nat.zero_le _

/-- `strncmp` is zero where the bytes of the string end at the given length, or both strings end. -/
theorem strncmp_eq_zero_iff (noNul : (0 : BitVec 8) ∉ comp) (short : comp.length < 2 ^ 63)
    (small : n < 2 ^ 64) : strncmp m comp a n = 0 ↔
      commonPrefix m comp a = n ∨ (commonPrefix m comp a = comp.length ∧ m (a + comp.length) = 0) := by
  induction comp generalizing a n with
  | nil =>
    simp only [strncmp, commonPrefix, List.length_nil, Nat.add_zero, true_and]
    split
    · rename_i zero
      simp [zero]
    · rename_i pos
      have toNat : m a = 0 ↔ (m a).toNat = 0 := BitVec.toNat_inj.symm
      rw [toNat]
      omega
  | cons c cs ih =>
    obtain ⟨first, rest⟩ := List.ne_and_not_mem_of_not_mem_cons noNul
    rw [List.length_cons] at short
    rw [strncmp, commonPrefix]
    by_cases same : c = m a
    · have most := commonPrefix_le m cs (a + 1)
      have less : sub64 n 1 < 2 ^ 64 := Nat.mod_lt _ (by decide)
      rw [if_pos ⟨Ne.symm first, same⟩, if_pos same, ih rest (by omega) less, List.length_cons,
        Nat.add_assoc, Nat.add_comm 1]
      -- below zero the count is more than any length
      have next : sub64 n 1 + 1 = n ∨ (n = 0 ∧ sub64 n 1 = 2 ^ 64 - 1) := by
        unfold sub64
        omega
      generalize sub64 n 1 = k at next ⊢
      exact or_congr (by omega) (and_congr_left fun _ => by omega)
    · rw [if_neg (fun both => same both.2), if_neg same]
      have differ : (c.toNat : Int) - (m a).toNat ≠ 0 := by
        intro zero
        apply same
        apply BitVec.eq_of_toNat_eq
        omega
      split
      · rename_i zero
        simp [zero]
      · rename_i pos
        simp only [differ, List.length_cons, false_iff, not_or]
        omega

/-- The bytes from an address on. -/
def bytesAt (m : Bytes) (a n : Nat) : List (BitVec 8) := (List.range n).map fun i => m (a + i)

theorem bytesAt_length : (bytesAt m a n).length = n := by
  rw [bytesAt, List.length_map, List.length_range]

theorem bytesAt_succ : bytesAt m a (n + 1) = m a :: bytesAt m (a + 1) n := by
  rw [bytesAt, List.range_succ_eq_map, List.map_cons, List.map_map]
  congr 1
  apply List.map_congr_left
  intro i _
  exact congrArg m (by simp only [Nat.succ_eq_add_one]; omega)

theorem bytesAt_append (i j : Nat) : bytesAt m a (i + j) = bytesAt m a i ++ bytesAt m (a + i) j := by
  rw [bytesAt, List.range_add, List.map_append, List.map_map, bytesAt, bytesAt]
  congr 1
  apply List.map_congr_left
  intro k _
  exact congrArg m (Nat.add_assoc a i k).symm

/-- The first bytes from an address on. -/
theorem bytesAt_take {k : Nat} (le : n ≤ k) : (bytesAt m a k).take n = bytesAt m a n := by
  rw [bytesAt, ← List.map_take, List.take_range, Nat.min_eq_left le, bytesAt]

/-- The string's first bytes stand at an address as far as they are its. -/
theorem le_commonPrefix_iff : n ≤ commonPrefix m comp a ↔ bytesAt m a n <+: comp := by
  induction comp generalizing a n with
  | nil =>
    rw [commonPrefix, List.prefix_nil, ← List.length_eq_zero_iff, bytesAt_length]
    exact Nat.le_zero
  | cons c cs ih =>
    cases n with
    | zero => simp [bytesAt]
    | succ n =>
      rw [commonPrefix, bytesAt_succ, List.cons_prefix_cons, ← ih]
      split
      · rename_i same
        simp [same]
      · rename_i other
        simp [Ne.symm other]

/-- `strncmp` accepts a name of `n` bytes when the string begins with it and does not go on behind it as
the bytes do, or when the string and a NUL stand there. -/
theorem strncmp_accepts_iff (noNul : (0 : BitVec 8) ∉ comp) (short : comp.length < 2 ^ 63)
    (small : n < 2 ^ 64) : strncmp m comp a n = 0 ↔
      (bytesAt m a n <+: comp ∧ ¬ bytesAt m a (n + 1) <+: comp) ∨
        bytesAt m a (comp.length + 1) = comp ++ [0] := by
  have whole : bytesAt m a (comp.length + 1) = comp ++ [0] ↔
      bytesAt m a comp.length <+: comp ∧ m (a + comp.length) = 0 := by
    have split : bytesAt m a (comp.length + 1) = bytesAt m a comp.length ++ [m (a + comp.length)] := by
      rw [bytesAt, List.range_succ, List.map_append]
      rfl
    rw [split]
    constructor
    · intro same
      obtain ⟨front, last⟩ := List.append_inj' same rfl
      exact ⟨by rw [front], List.singleton_inj.mp last⟩
    · rintro ⟨front, last⟩
      rw [front.eq_of_length bytesAt_length, last]
  rw [strncmp_eq_zero_iff noNul short small, whole, ← le_commonPrefix_iff, ← le_commonPrefix_iff,
    ← le_commonPrefix_iff]
  have most := commonPrefix_le m comp a
  refine or_congr (by omega) (and_congr_left fun _ => by omega)

/-! ## Records -/

/-- The record at an offset of a directory block is used. -/
def Live (b : Bytes) (o : Nat) : Prop := (ext2DirentAt b o).inode ≠ 0

instance (b : Bytes) (o : Nat) : Decidable (Live b o) := inferInstanceAs (Decidable (_ ≠ _))

/-- Its name. -/
def recName (b : Bytes) (o : Nat) : List (BitVec 8) := bytesAt b (o + 8) (ext2DirentAt b o).nameLen

theorem nameLen_lt (b : Bytes) (o : Nat) : (ext2DirentAt b o).nameLen < 256 := load_lt b _ 1

/-- The offsets of the records of a block, from one on. -/
def recordsFrom (b : Bytes) (stop : Nat) : Nat → Nat → List Nat
  | 0, _ => []
  | fuel + 1, off =>
    if off < stop then off :: recordsFrom b stop fuel (off + (ext2DirentAt b off).recLen) else []

/-- The offsets of the records of a block. -/
def records (b : Bytes) (stop : Nat) : List Nat := recordsFrom b stop stop 0

/-- A directory block: the records follow each other to its end, and a live one has room for its name,
in which is no NUL. -/
structure DirBlock (b : Bytes) (stop : Nat) : Prop where
  fits : ∀ o ∈ records b stop, 8 ≤ (ext2DirentAt b o).recLen ∧ o + (ext2DirentAt b o).recLen ≤ stop
  named : ∀ o ∈ records b stop, Live b o →
    8 + (ext2DirentAt b o).nameLen ≤ (ext2DirentAt b o).recLen ∧ (0 : BitVec 8) ∉ recName b o

/-- The inode of the live record that has a name. -/
def dirLookup (b : Bytes) (stop : Nat) (comp : List (BitVec 8)) : Option Nat :=
  ((records b stop).find? fun o => decide (Live b o ∧ recName b o = comp)).map
    fun o => (ext2DirentAt b o).inode

/-- The record's name is a proper prefix of the component and is accepted for it: the next byte in the
block is not the component's next one, or the component and a NUL stand there. -/
def Mistaken (b : Bytes) (stop : Nat) (comp : List (BitVec 8)) (o : Nat) : Prop :=
  recName b o <+: comp ∧ recName b o ≠ comp ∧
    ((o + 8 + (recName b o).length < stop ∧ ¬ bytesAt b (o + 8) ((recName b o).length + 1) <+: comp) ∨
      (o + 8 + comp.length < stop ∧ bytesAt b (o + 8) (comp.length + 1) = comp ++ [0]))

/-- The record's name is a proper prefix of the component, which goes on as the block does to its end. -/
def Cut (b : Bytes) (stop : Nat) (comp : List (BitVec 8)) (o : Nat) : Prop :=
  recName b o <+: comp ∧ recName b o ≠ comp ∧ stop ≤ o + 8 + comp.length ∧
    bytesAt b (o + 8) (stop - (o + 8)) <+: comp

/-- The code takes a record for the component whatever stands behind the block. -/
def Accepted (b : Bytes) (stop : Nat) (comp : List (BitVec 8)) (o : Nat) : Prop :=
  recName b o = comp ∨ Mistaken b stop comp o

/-- A copy of a block has the block's bytes. -/
theorem bytesAt_copy (same : ∀ i < stop, m (dirbuf + i) = b i) (inside : a + n ≤ stop) :
    bytesAt m (dirbuf + a) n = bytesAt b a n := by
  apply List.map_congr_left
  intro i mem
  have lt := List.mem_range.mp mem
  rw [Nat.add_assoc]
  exact same (a + i) (by omega)

/-- A copy of a record has the record's fields. -/
theorem direntAt_copy (same : ∀ i < stop, m (dirbuf + i) = b i) (inside : o + 8 ≤ stop) :
    ext2DirentAt m (dirbuf + o) = ext2DirentAt b o := by
  have field : ∀ k w, k + w ≤ 8 → load m (dirbuf + o + k) w = load b (o + k) w := by
    intro k w fits
    apply load_shift
    intro i lt
    rw [Nat.add_assoc, Nat.add_assoc, Nat.add_assoc]
    exact same (o + (k + i)) (by omega)
  have inode := field 0 4 (by decide)
  rw [Nat.add_zero] at inode
  rw [ext2DirentAt, ext2DirentAt, field 4 2 (by decide), field 6 1 (by decide)]
  exact congrArg (Ext2Dirent.mk · _ _) inode

/-- What `strncmp` accepts is decided in the block, or cut off by its end. -/
theorem strncmp_record (same : ∀ i < stop, m (dirbuf + i) = b i)
    (inside : o + 8 + (ext2DirentAt b o).nameLen ≤ stop) (noNulName : (0 : BitVec 8) ∉ recName b o)
    (noNul : (0 : BitVec 8) ∉ comp) (short : comp.length < 2 ^ 63) :
    (Accepted b stop comp o →
      strncmp m comp (dirbuf + o + 8) (ext2DirentAt b o).nameLen = 0) ∧
    (strncmp m comp (dirbuf + o + 8) (ext2DirentAt b o).nameLen = 0 →
      Accepted b stop comp o ∨ Cut b stop comp o) := by
  have small : (ext2DirentAt b o).nameLen < 2 ^ 64 := by
    have := load_lt b (o + 6) 1
    exact this.trans (by decide)
  have length : (recName b o).length = (ext2DirentAt b o).nameLen := bytesAt_length
  have name : bytesAt m (dirbuf + (o + 8)) (ext2DirentAt b o).nameLen = recName b o :=
    bytesAt_copy same inside
  rw [Nat.add_assoc, strncmp_accepts_iff noNul short small, name]
  constructor
  · rintro (exact | ⟨front, other, next | ⟨below, whole⟩⟩)
    · refine .inl ⟨exact ▸ List.prefix_refl _, ?_⟩
      intro longer
      have most := longer.length_le
      rw [bytesAt_length, ← length, exact] at most
      omega
    · rw [length] at next
      rw [bytesAt_copy same (by omega)]
      exact .inl ⟨front, next.2⟩
    · right
      rw [bytesAt_copy same (by omega)]
      exact whole
  · intro accepted
    by_cases exact : recName b o = comp
    · exact .inl (.inl exact)
    have front : recName b o <+: comp := by
      rcases accepted with ⟨front, _⟩ | whole
      · exact front
      · -- no NUL is in the name, so the component and the NUL are no shorter
        have longer : (ext2DirentAt b o).nameLen ≤ comp.length := by
          by_contra shorter
          apply noNulName
          rw [← name]
          have nul : (0 : BitVec 8) ∈ (bytesAt m (dirbuf + (o + 8)) (ext2DirentAt b o).nameLen).take
              (comp.length + 1) := by
            rw [bytesAt_take (by omega), whole]
            exact List.mem_append_right _ (List.mem_singleton_self _)
          exact List.mem_of_mem_take nul
        rw [← name, ← bytesAt_take (show _ ≤ comp.length + 1 by omega), whole,
          List.take_append_of_le_length longer]
        exact List.take_prefix _ _
    have proper : (recName b o).length < comp.length :=
      Nat.lt_of_le_of_ne front.length_le fun equal => exact (front.eq_of_length equal)
    rcases accepted with ⟨_, next⟩ | whole
    · by_cases below : o + 8 + (ext2DirentAt b o).nameLen < stop
      · rw [bytesAt_copy same (by omega)] at next
        exact .inl (.inr ⟨front, exact, .inl (by rw [length]; exact ⟨below, next⟩)⟩)
      · have all : stop - (o + 8) = (ext2DirentAt b o).nameLen := by omega
        exact .inr ⟨front, exact, by omega, by rw [all]; exact front⟩
    · by_cases below : o + 8 + comp.length < stop
      · rw [bytesAt_copy same (by omega)] at whole
        exact .inl (.inr ⟨front, exact, .inr ⟨below, whole⟩⟩)
      · refine .inr ⟨front, exact, by omega, ?_⟩
        rw [← bytesAt_copy same (by omega),
          ← bytesAt_take (show stop - (o + 8) ≤ comp.length + 1 by omega), whole,
          List.take_append_of_le_length (by omega)]
        exact List.take_prefix _ _

/-! ## The loop -/

/-- What the loop may find in a block that is followed by any bytes. -/
def Found (b : Bytes) (stop : Nat) (comp : List (BitVec 8)) (found : Option Nat) : Prop :=
  ∃ accepts : Nat → Bool,
    (∀ o ∈ records b stop, Live b o → (Accepted b stop comp o → accepts o) ∧
      (accepts o → Accepted b stop comp o ∨ Cut b stop comp o)) ∧
    found = ((records b stop).find? fun o => decide (Live b o) && accepts o).map
      fun o => (ext2DirentAt b o).inode

theorem nameiLoop_eq {fuel off : Nat} (same : ∀ i < stop, m (dirbuf + i) = b i)
    (fits : ∀ o ∈ recordsFrom b stop fuel off,
      8 ≤ (ext2DirentAt b o).recLen ∧ o + (ext2DirentAt b o).recLen ≤ stop)
    (word : stop < 2 ^ 32) (enough : stop ≤ off + fuel) :
    nameiLoop m dirbuf stop comp fuel off = .ok (((recordsFrom b stop fuel off).find? fun o =>
      decide (Live b o) &&
        decide (strncmp m comp (dirbuf + o + 8) (ext2DirentAt b o).nameLen = 0)).map
        fun o => (ext2DirentAt b o).inode) := by
  induction fuel generalizing off with
  | zero =>
    rw [nameiLoop, if_neg (by omega)]
    rfl
  | succ fuel ih =>
    rw [nameiLoop, recordsFrom]
    by_cases lt : off < stop
    · rw [recordsFrom, if_pos lt] at fits
      obtain ⟨least, inside⟩ := fits off List.mem_cons_self
      have here : ext2DirentAt m (dirbuf + off) = ext2DirentAt b off := direntAt_copy same (by omega)
      have next : (off + (ext2DirentAt b off).recLen) % 2 ^ 32 = off + (ext2DirentAt b off).recLen :=
        Nat.mod_eq_of_lt (by omega)
      rw [if_pos lt, if_pos lt, here]
      dsimp only
      rw [next, List.find?_cons]
      by_cases accepted : (ext2DirentAt b off).inode ≠ 0 ∧
          strncmp m comp (dirbuf + off + 8) (ext2DirentAt b off).nameLen = 0
      · rw [if_pos accepted, decide_eq_true (p := Live b off) accepted.1, decide_eq_true accepted.2]
        rfl
      · rw [if_neg accepted, ih (fun o mem => fits o (List.mem_cons_of_mem _ mem)) (by omega),
          ← Bool.decide_and, decide_eq_false (p := Live b off ∧ _) accepted]
    · rw [if_neg lt, if_neg lt]
      rfl

/-- **The loop of a round.** -/
theorem nameiLoop_found (dir : DirBlock b stop) (same : ∀ i < stop, m (dirbuf + i) = b i)
    (noNul : (0 : BitVec 8) ∉ comp) (short : comp.length < 2 ^ 63) (word : stop < 2 ^ 32) :
    ∃ found, nameiLoop m dirbuf stop comp stop 0 = .ok found ∧ Found b stop comp found := by
  refine ⟨_, nameiLoop_eq same dir.fits word (by omega), _, ?_, rfl⟩
  intro o mem live
  have inside := (dir.fits o mem).2
  obtain ⟨room, noNulName⟩ := dir.named o mem live
  obtain ⟨takes, decided⟩ := strncmp_record same (by omega) noNulName noNul short
  exact ⟨fun accepted => decide_eq_true (takes accepted), fun taken => decided (of_decide_eq_true taken)⟩

/-! ## Where the name is right -/

/-- Before any record is accepted, every live one that is mistaken for the component, or may be, has the
inode that is looked up. -/
def NoMistake (b : Bytes) (stop : Nat) (comp : List (BitVec 8)) : Prop :=
  ∀ xs o ys, records b stop = xs ++ o :: ys → Live b o →
    (Mistaken b stop comp o ∨ Cut b stop comp o) →
    (∀ x ∈ xs, Live b x → ¬ Accepted b stop comp x) →
    dirLookup b stop comp = some (ext2DirentAt b o).inode

/-- No live record's comparison is cut off. -/
def NoCut (b : Bytes) (stop : Nat) (comp : List (BitVec 8)) : Prop :=
  ∀ o ∈ records b stop, Live b o → ¬ Cut b stop comp o

/-- The records up to one of the block's are the block's. -/
theorem mem_records_of_split {xs ys : List Nat} {x : Nat} (split : records b stop = xs ++ o :: ys)
    (either : x ∈ xs ∨ x = o) : x ∈ records b stop := by
  rw [split]
  rcases either with left | rfl
  · exact List.mem_append_left _ left
  · exact List.mem_append_right _ List.mem_cons_self

/-- Without a mistake the inode that is found is the one looked up. -/
theorem Found.eq {found : Option Nat} (here : Found b stop comp found)
    (none : NoMistake b stop comp) : found = dirLookup b stop comp := by
  obtain ⟨accepts, decided, rfl⟩ := here
  cases first : (records b stop).find? fun o => decide (Live b o) && accepts o with
  | none =>
    rw [List.find?_eq_none] at first
    symm
    rw [Option.map_none, dirLookup, Option.map_eq_none_iff, List.find?_eq_none]
    intro o mem same
    obtain ⟨live, exact⟩ := of_decide_eq_true same
    have taken := (decided o mem live).1 (.inl exact)
    exact first o mem (by rw [decide_eq_true live, taken]; rfl)
  | some o =>
    obtain ⟨taken, xs, ys, split, before⟩ := List.find?_eq_some_iff_append.mp first
    rw [Bool.and_eq_true, decide_eq_true_eq] at taken
    have mem := fun x => mem_records_of_split (x := x) split
    have refused : ∀ x ∈ xs, Live b x → ¬ Accepted b stop comp x := by
      intro x left live accepted
      have takes := (decided x (mem x (.inl left)) live).1 accepted
      have not := before x left
      rw [decide_eq_true live, takes] at not
      cases not
    rw [Option.map_some]
    rcases (decided o (mem o (.inr rfl)) taken.1).2 taken.2 with (exact | mistaken) | cut
    · symm
      rw [dirLookup, Option.map_eq_some_iff]
      refine ⟨o, ?_, rfl⟩
      rw [List.find?_eq_some_iff_append]
      refine ⟨decide_eq_true ⟨taken.1, exact⟩, xs, ys, split, ?_⟩
      intro x left
      rw [Bool.not_eq_true', decide_eq_false_iff_not]
      exact fun same => refused x left same.1 (.inl same.2)
    · exact (none xs o ys split taken.1 (.inl mistaken) refused).symm
    · exact (none xs o ys split taken.1 (.inr cut) refused).symm

/-- Where no comparison is cut off, only then. -/
theorem Found.noMistake {found : Option Nat} (here : Found b stop comp found)
    (whole : NoCut b stop comp) (right : found = dirLookup b stop comp) : NoMistake b stop comp := by
  obtain ⟨accepts, decided, rfl⟩ := here
  intro xs o ys split live doubt refused
  have mem := fun x => mem_records_of_split (x := x) split
  have mistaken := doubt.resolve_right (whole o (mem o (.inr rfl)) live)
  rw [← right, Option.map_eq_some_iff]
  refine ⟨o, ?_, rfl⟩
  rw [List.find?_eq_some_iff_append]
  refine ⟨?_, xs, ys, split, ?_⟩
  · rw [decide_eq_true live, (decided o (mem o (.inr rfl)) live).1 (.inr mistaken)]
    rfl
  · intro x left
    by_cases liveX : Live b x
    · have not : accepts x = false := by
        apply eq_false_of_ne_true
        intro taken
        have either := (decided x (mem x (.inl left)) liveX).2 taken
        exact refused x left liveX (either.resolve_right (whole x (mem x (.inl left)) liveX))
      rw [not, Bool.and_false]
      rfl
    · rw [decide_eq_false liveX]
      rfl

end Blackcomb.Fs
