import Mathlib.Tactic.Ring
import Blackcomb.Fs.Ext2

/-!
# From logical blocks to paths

A file's blocks hang in a tree of four levels: twelve direct ones, then a block of pointers, a block of
blocks of pointers, and so on. `ext2Path` is the way to a block as the format has it, a number in the
base of the pointers of a block, and `ext2Block` reads it back. `takenPath` is the way that
`ext2_block_offsets` takes. They differ at the beginning of the second and of the third range, where
the code compares with the range before already taken off, and in the middle digit of the last.

**What it does not establish.** Ways are compared with ways: what the blocks of pointers hold, and
whether a pointer lies on the disk, is left to `Holes`, `ReadFile` and `Addresses`.
-/

namespace Blackcomb.Fs

open Memory Mm

variable {fs : Ext2Fs} {p b blk blk' : Nat}

/-! ## Paths -/

/-- How many pointers a block has. -/
def Ext2Fs.ptrs (fs : Ext2Fs) : Nat := fs.blockSize / 4

/-- The path of a logical block, in a file system with `p` pointers in a block. -/
def ext2Path (p blk : Nat) : List Nat :=
  if blk < 12 then [blk]
  else if blk < 12 + p then [12, blk - 12]
  else if blk < 12 + p + p ^ 2 then [13, (blk - (12 + p)) / p, (blk - (12 + p)) % p]
  else [14, (blk - (12 + p + p ^ 2)) / p ^ 2, (blk - (12 + p + p ^ 2)) / p % p,
    (blk - (12 + p + p ^ 2)) % p]

/-- The logical block at a path. -/
def ext2Block (p : Nat) : List Nat → Nat
  | [a] => a
  | [_, a] => 12 + a
  | [_, a, b] => 12 + p + (p * a + b)
  | [_, a, b, c] => 12 + p + p ^ 2 + (p * (p * a + b) + c)
  | _ => 0

/-- **Round trip.** The path of a block leads to the block. -/
theorem ext2Block_path : ext2Block p (ext2Path p blk) = blk := by
  unfold ext2Path
  split
  · rfl
  split
  · show 12 + (blk - 12) = blk
    omega
  split
  · show 12 + p + (p * ((blk - (12 + p)) / p) + (blk - (12 + p)) % p) = blk
    rw [Nat.div_add_mod]
    omega
  · have digits : (blk - (12 + p + p ^ 2)) / p ^ 2 = (blk - (12 + p + p ^ 2)) / p / p := by
      rw [Nat.div_div_eq_div_mul, pow_two]
    show 12 + p + p ^ 2 + (p * (p * ((blk - (12 + p + p ^ 2)) / p ^ 2) +
      (blk - (12 + p + p ^ 2)) / p % p) + (blk - (12 + p + p ^ 2)) % p) = blk
    rw [digits, Nat.div_add_mod, Nat.div_add_mod]
    omega

/-- Distinct blocks have distinct paths. -/
theorem ext2Path_inj (same : ext2Path p blk = ext2Path p blk') : blk = blk' := by
  have back := congrArg (ext2Block p) same
  rwa [ext2Block_path, ext2Block_path] at back

/-- Every step of a path after the first is the index of a pointer. -/
theorem ext2Path_below (pos : 0 < p) (inside : blk < 12 + p + p ^ 2 + p ^ 3) {o : Nat}
    (mem : o ∈ (ext2Path p blk).tail) : o < p := by
  have cube : p ^ 3 = p ^ 2 * p := pow_succ p 2
  unfold ext2Path at mem
  split at mem
  · cases mem
  split at mem
  · obtain rfl := List.mem_singleton.mp mem
    omega
  split at mem
  · simp only [List.tail_cons, List.mem_cons, List.not_mem_nil, or_false] at mem
    rcases mem with rfl | rfl
    · apply Nat.div_lt_of_lt_mul
      rw [← pow_two]
      omega
    · exact Nat.mod_lt _ pos
  · simp only [List.tail_cons, List.mem_cons, List.not_mem_nil, or_false] at mem
    rcases mem with rfl | rfl | rfl
    · apply Nat.div_lt_of_lt_mul
      rw [← cube]
      omega
    · exact Nat.mod_lt _ pos
    · exact Nat.mod_lt _ pos

/-! ## The code -/

/-- The path that `ext2_block_offsets` takes. -/
def takenPath (p blk : Nat) : List Nat :=
  if blk < 12 then [blk]
  else if blk < 24 + p then [12, blk - 12]
  else if blk < 12 + 2 * p + p ^ 2 then [13, (blk - (12 + p)) / p, (blk - (12 + p)) % p]
  else [14, (blk - (12 + p + p ^ 2)) / p ^ 2, (blk - (12 + p + p ^ 2)) / p,
    (blk - (12 + p + p ^ 2)) % p]

theorem uint32_of_lt {n : Nat} (lt : n < 2 ^ 32) : uint32 n = n := by
  unfold uint32
  omega

theorem int32_of_lt {n : Nat} (lt : n < 2 ^ 31) : int32 n = n := by
  apply Int.bmod_eq_of_le <;> omega

/-- Taking off a range that the block lies behind does not wrap. -/
theorem uint32_sub {a : Nat} (le : b ≤ a) (lt : a < 2 ^ 32) :
    uint32 ((a : Int) - b) = ((a - b : Nat) : Int) := by
  rw [← uint32_of_lt (n := a - b) (by omega)]
  congr 1
  omega

/-- The block sizes there are: a block has at least 256 pointers and at most 16384. -/
theorem ptrs_range {k : Nat} (small : k ≤ 6) (size : fs.blockSize = 1024 <<< k) :
    fs.blockSize = 4 * fs.ptrs ∧ 256 ≤ fs.ptrs ∧ fs.ptrs ≤ 16384 := by
  have most : 2 ^ k ≤ 2 ^ 6 := Nat.pow_le_pow_right (by decide) small
  have least : 0 < 2 ^ k := Nat.two_pow_pos k
  unfold Ext2Fs.ptrs
  rw [size, Nat.shiftLeft_eq]
  omega

/-- Below the end of the last range the code returns, and it has taken `takenPath`. -/
theorem ext2BlockOffsets_taken (blk : Nat) (low : 256 ≤ fs.ptrs) (high : fs.ptrs ≤ 16384)
    (word : blk < 2 ^ 32)
    (inside : blk < 12 + fs.ptrs + fs.ptrs ^ 2 + fs.ptrs ^ 3) :
    ext2BlockOffsets fs blk = .ok ((takenPath fs.ptrs blk).map Nat.cast) := by
  have square : ((fs.ptrs : Int) * fs.ptrs) = ((fs.ptrs ^ 2 : Nat) : Int) := by
    rw [pow_two, Int.natCast_mul]
  have fourth : fs.ptrs ^ 3 ≤ fs.ptrs ^ 2 * fs.ptrs ^ 2 := by
    rw [← pow_add]
    exact Nat.pow_le_pow_right (by omega) (by omega)
  have big : fs.ptrs ≤ fs.ptrs ^ 2 := Nat.le_self_pow (by omega) _
  have quotient : ∀ b, b < 2 ^ 32 → b / fs.ptrs < 2 ^ 31 := by
    intro b lt
    apply Nat.div_lt_of_lt_mul
    omega
  have remainder : ∀ b, b % fs.ptrs < 2 ^ 31 := by
    intro b
    have := Nat.mod_lt b (show 0 < fs.ptrs by omega)
    omega
  have shape : fs.blockSize / 4 = fs.ptrs := rfl
  unfold ext2BlockOffsets takenPath
  simp only [shape, square, ext2NdirBlk, ext2IndBlk, ext2DindBlk, ext2TindBlk]
  by_cases direct : blk < 12
  · rw [if_pos (by omega), if_pos direct, int32_of_lt (by omega)]
    rfl
  rw [if_neg (by omega), if_neg direct, uint32_sub (by omega) word]
  by_cases single : blk < 24 + fs.ptrs
  · rw [if_pos (by omega), if_pos single, int32_of_lt (by omega)]
    rfl
  rw [if_neg (by omega), if_neg single, uint32_sub (by omega) (by omega), Nat.sub_sub]
  by_cases double : blk < 12 + 2 * fs.ptrs + fs.ptrs ^ 2
  · rw [if_pos (by omega), if_pos double, ← Int.natCast_ediv, ← Int.natCast_emod,
      int32_of_lt (quotient _ (by omega)), int32_of_lt (remainder _)]
    rfl
  rw [if_neg (by omega), if_neg double, uint32_sub (by omega) (by omega), Nat.sub_sub]
  rw [if_pos]
  · rw [← Int.natCast_ediv, ← Int.natCast_ediv, ← Int.natCast_emod,
      int32_of_lt (quotient _ (by omega)), int32_of_lt (remainder _), int32_of_lt]
    · rfl
    · exact (Nat.div_le_div_left big (by omega)).trans_lt (quotient _ (by omega))
  · have fits : blk - (12 + fs.ptrs + fs.ptrs ^ 2) - fs.ptrs ^ 2 < fs.ptrs ^ 2 * fs.ptrs ^ 2 := by
      omega
    omega

/-- No two blocks have the same taken path, also not where a path is none of the format's. -/
theorem takenPath_inj (same : takenPath p blk = takenPath p blk') : blk = blk' := by
  have recover : ∀ a b c : Nat, a / c = b / c → a % c = b % c → a = b := by
    intro a b c quot rem
    rw [← Nat.div_add_mod a c, ← Nat.div_add_mod b c, quot, rem]
  unfold takenPath at same
  split_ifs at same with a b c d e f
  all_goals simp only [List.cons.injEq, and_true, reduceCtorEq, and_false] at same
  · exact same
  · omega
  · have := recover _ _ _ same.2.1 same.2.2
    omega
  · have := recover _ _ _ same.2.2.1 same.2.2.2
    omega

/-- The taken path is the format's outside three ranges. -/
theorem takenPath_eq_iff (low : 256 ≤ p) : takenPath p blk = ext2Path p blk ↔
    blk < 12 + p ∨ (24 + p ≤ blk ∧ blk < 12 + p + p ^ 2) ∨
      (12 + 2 * p + p ^ 2 ≤ blk ∧ blk < 12 + p + 2 * p ^ 2) := by
  have big : p * 256 ≤ p ^ 2 := pow_two p ▸ Nat.mul_le_mul_left p low
  unfold takenPath ext2Path
  split_ifs with a b c d e f
  · simp [show blk < 12 + p by omega]
  · simp [show blk < 12 + p by omega]
  · simp only [List.cons.injEq, reduceCtorEq, and_false, false_iff]
    omega
  · simp only [List.cons.injEq, reduceCtorEq, and_false, false_iff]
    omega
  · omega
  · simp only [true_iff]
    omega
  · simp only [List.cons.injEq, reduceCtorEq, and_false, false_iff]
    omega
  · omega
  · omega
  · -- only the middle digit can differ
    have digit : (blk - (12 + p + p ^ 2)) / p = (blk - (12 + p + p ^ 2)) / p % p ↔
        blk - (12 + p + p ^ 2) < p * p := by
      rw [← Nat.div_lt_iff_lt_mul (by omega)]
      constructor
      · intro same
        rw [same]
        exact Nat.mod_lt _ (by omega)
      · intro lt
        exact (Nat.mod_eq_of_lt lt).symm
    simp only [List.cons.injEq, true_and, and_true, digit, ← pow_two]
    omega

/-! ## Where the code is right -/

/-- What is promised of `ext2_block_offsets` for a logical block: it returns the block's path, every
offset after the first is the index of a pointer, and no other block has these offsets. -/
structure PathRight (fs : Ext2Fs) (blk : Nat) : Prop where
  path : ext2BlockOffsets fs blk = .ok ((ext2Path fs.ptrs blk).map Nat.cast)
  below : ∀ os, ext2BlockOffsets fs blk = .ok os → ∀ o ∈ os.tail, 0 ≤ o ∧ o < fs.ptrs
  distinct : ∀ blk' < 2 ^ 32, blk' < 12 + fs.ptrs + fs.ptrs ^ 2 + fs.ptrs ^ 3 →
    ext2BlockOffsets fs blk' = ext2BlockOffsets fs blk → blk' = blk

/-- Casting offsets to `int` loses nothing. -/
theorem map_cast_inj {xs ys : List Nat} (same : xs.map (Nat.cast (R := Int)) = ys.map Nat.cast) :
    xs = ys :=
  (List.map_inj_right fun _ _ => Int.ofNat.inj).mp same

/-- **Block offsets.** For every block size and every logical block below the end of the triple
indirect range, `ext2_block_offsets` returns the block's path exactly when the block is direct or single
indirect, or double indirect but not one of the first twelve, or triple indirect from the `p`th to
before the `p ^ 2`th. -/
theorem ext2BlockOffsets_right_iff (fs : Ext2Fs) (k blk : Nat) (small : k ≤ 6)
    (size : fs.blockSize = 1024 <<< k) (word : blk < 2 ^ 32)
    (inside : blk < 12 + fs.ptrs + fs.ptrs ^ 2 + fs.ptrs ^ 3) :
    PathRight fs blk ↔ blk < 12 + fs.ptrs ∨ (24 + fs.ptrs ≤ blk ∧ blk < 12 + fs.ptrs + fs.ptrs ^ 2) ∨
      (12 + 2 * fs.ptrs + fs.ptrs ^ 2 ≤ blk ∧ blk < 12 + fs.ptrs + 2 * fs.ptrs ^ 2) := by
  obtain ⟨_, low, high⟩ := ptrs_range small size
  have taken := ext2BlockOffsets_taken _ low high word inside
  rw [← takenPath_eq_iff low]
  constructor
  · intro right
    exact map_cast_inj (Except.ok.inj (taken.symm.trans right.path))
  · intro same
    rw [same] at taken
    constructor
    case path => exact taken
    case below =>
      intro os returned o mem
      obtain rfl := Except.ok.inj (taken.symm.trans returned)
      rw [← List.map_tail] at mem
      obtain ⟨n, index, rfl⟩ := List.mem_map.mp mem
      have := ext2Path_below (by omega) inside index
      omega
    case distinct =>
      intro blk' word' inside' equal
      rw [ext2BlockOffsets_taken _ low high word' inside', taken, ← same] at equal
      exact takenPath_inj (map_cast_inj (Except.ok.inj equal))

/-- A file system with blocks of 1 KiB. -/
def smallBlocks : Ext2Fs := { blockSize := 1024, sb := fun _ => 0, rooti := fun _ => 0, bgdt := 0 }

/-- The last block of a file of 273 KiB, which is single indirect, and the first triple indirect blocks
of the range in which the code is right. -/
theorem ext2BlockOffsets_right_iff_small :
    PathRight smallBlocks 267 ∧ PathRight smallBlocks 66060 ∧ ¬ PathRight smallBlocks 279 :=
  ⟨(ext2BlockOffsets_right_iff smallBlocks 0 267 (by decide) rfl (by decide) (by decide)).mpr
      (by decide),
    (ext2BlockOffsets_right_iff smallBlocks 0 66060 (by decide) rfl (by decide) (by decide)).mpr
      (by decide),
    fun right => absurd ((ext2BlockOffsets_right_iff smallBlocks 0 279 (by decide) rfl (by decide)
      (by decide)).mp right) (by decide)⟩

/-- The first double indirect block of a file with 1 KiB blocks is taken for a single indirect one, at
an index behind the block of pointers. -/
theorem ext2BlockOffsets_first_double :
    ext2BlockOffsets smallBlocks 268 = .ok [12, 256] ∧ ext2Path smallBlocks.ptrs 268 = [13, 0, 0] ∧
      ¬ PathRight smallBlocks 268 := by
  have taken : ext2BlockOffsets smallBlocks 268 = .ok [12, 256] := rfl
  refine ⟨taken, rfl, ?_⟩
  intro right
  have := right.below _ taken 256 (by decide)
  exact absurd this.2 (by decide)

end Blackcomb.Fs
