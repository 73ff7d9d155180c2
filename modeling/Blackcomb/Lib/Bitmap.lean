import Mathlib.Logic.Function.Basic
import Mathlib.Tactic.Common
import Blackcomb.Lib.Memory

/-!
# Bitmaps in byte memory

A bitmap at an address: bit `i` is bit `i % 8` of byte `i / 8`. Setting or clearing a bit changes that
bit and no other of the same bitmap, and no byte elsewhere.

Two bitmaps that do not overlap are then changed apart. How long a bitmap is, and what its bits
mean, is for the program to say.
-/

namespace Bitmap

open Memory

/-- Bit `i` of the bitmap at `base`. -/
def bit (m : Bytes) (base i : Nat) : Bool :=
  m (base + i / 8) &&& (1#8 <<< (i % 8)) ≠ 0#8

/-- Set bit `i`. -/
def setBit (m : Bytes) (base i : Nat) : Bytes :=
  Function.update m (base + i / 8) (m (base + i / 8) ||| (1#8 <<< (i % 8)))

/-- Clear bit `i`. -/
def clearBit (m : Bytes) (base i : Nat) : Bytes :=
  Function.update m (base + i / 8) (m (base + i / 8) &&& ~~~(1#8 <<< (i % 8)))

variable {m m' : Bytes} {base i j : Nat}

/-- The mask picks the bit. -/
theorem bit_eq_getLsbD (m : Bytes) (base i : Nat) :
    bit m base i = (m (base + i / 8)).getLsbD (i % 8) := by
  have low : i % 8 < 8 := Nat.mod_lt i (by decide)
  unfold bit
  generalize m (base + i / 8) = x
  generalize i % 8 = k at low
  rw [← BitVec.twoPow_eq, BitVec.and_twoPow]
  cases x.getLsbD k with
  | false => simp
  | true =>
    have : BitVec.twoPow 8 k ≠ 0#8 := by
      intro zero
      have := congrArg (fun v => v.getLsbD k) zero
      simp [low] at this
    simp [this]

theorem bit_congr (same : m' (base + i / 8) = m (base + i / 8)) : bit m' base i = bit m base i := by
  simp only [bit, same]

theorem bit_setBit (m : Bytes) (base i j : Nat) :
    bit (setBit m base i) base j = (decide (j = i) || bit m base j) := by
  rw [bit_eq_getLsbD, bit_eq_getLsbD, setBit]
  by_cases byte : j / 8 = i / 8
  · rw [byte, Function.update_self, BitVec.getLsbD_or, ← BitVec.twoPow_eq, BitVec.getLsbD_twoPow]
    have low : j % 8 < 8 := Nat.mod_lt j (by decide)
    have low' : i % 8 < 8 := Nat.mod_lt i (by decide)
    have same : (i % 8 = j % 8) ↔ j = i := by omega
    simp [low, low', same, Bool.or_comm]
  · have other : base + j / 8 ≠ base + i / 8 := by omega
    have ne : j ≠ i := fun e => byte (by rw [e])
    rw [Function.update_of_ne other]
    simp [ne]

theorem bit_clearBit (m : Bytes) (base i j : Nat) :
    bit (clearBit m base i) base j = (!decide (j = i) && bit m base j) := by
  rw [bit_eq_getLsbD, bit_eq_getLsbD, clearBit]
  by_cases byte : j / 8 = i / 8
  · rw [byte, Function.update_self, BitVec.getLsbD_and, BitVec.getLsbD_not, ← BitVec.twoPow_eq,
      BitVec.getLsbD_twoPow]
    have low : j % 8 < 8 := Nat.mod_lt j (by decide)
    have low' : i % 8 < 8 := Nat.mod_lt i (by decide)
    have same : (i % 8 = j % 8) ↔ j = i := by omega
    simp [low, low', same, Bool.and_comm]
  · have other : base + j / 8 ≠ base + i / 8 := by omega
    have ne : j ≠ i := fun e => byte (by rw [e])
    rw [Function.update_of_ne other]
    simp [ne]

/-- A bit of memory after a bit of a bitmap was cleared. -/
theorem getLsbD_clearBit {a k : Nat} (low : k < 8) : (clearBit m base i a).getLsbD k = true ↔
    (m a).getLsbD k = true ∧ ¬ (a = base + i / 8 ∧ k = i % 8) := by
  by_cases byte : a = base + i / 8
  · rw [clearBit, byte, Function.update_self, BitVec.getLsbD_and, BitVec.getLsbD_not, ← BitVec.twoPow_eq,
      BitVec.getLsbD_twoPow]
    have mask : i % 8 < 8 := Nat.mod_lt i (by decide)
    have same : i % 8 = k ↔ k = i % 8 := eq_comm
    simp [low, mask, same]
  · rw [clearBit, Function.update_of_ne byte]
    simp [byte]

/-- Memories with the same bits are the same. -/
theorem ext_bits (same : ∀ a, ∀ k < 8, (m a).getLsbD k = true ↔ (m' a).getLsbD k = true) : m = m' := by
  funext a
  apply BitVec.eq_of_getLsbD_eq
  intro k low
  exact Bool.eq_iff_iff.mpr (same a k low)

theorem setBit_outside {a : Nat} (out : a ≠ base + i / 8) : setBit m base i a = m a :=
  Function.update_of_ne out _ _

theorem clearBit_outside {a : Nat} (out : a ≠ base + i / 8) : clearBit m base i a = m a :=
  Function.update_of_ne out _ _

end Bitmap
