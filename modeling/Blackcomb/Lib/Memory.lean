import Mathlib.Algebra.Group.Nat.Defs
import Mathlib.Data.Nat.Basic

/-!
# Byte memory

A memory is a byte for every address. `load m a w` reads the `w` bytes from `a` as a little-endian
number and `store m a w v` writes one, dropping what does not fit. A load sees the last store to the
same place and no store to a place it does not overlap; `load_congr` is the general frame rule, for
any two memories that agree on the bytes read.

Addresses are natural numbers: a program whose addresses wrap around says so where it computes them.
-/

namespace Memory

/-- A byte for every address. -/
abbrev Bytes := Nat → BitVec 8

/-- The little-endian number in the `w` bytes from `a`. -/
def load (m : Bytes) (a : Nat) : Nat → Nat
  | 0 => 0
  | w + 1 => (m a).toNat + 256 * load m (a + 1) w

/-- Write `v` little-endian into the `w` bytes from `a`. -/
def store (m : Bytes) (a w v : Nat) : Bytes := fun b =>
  if a ≤ b ∧ b < a + w then BitVec.ofNat 8 (v / 256 ^ (b - a)) else m b

/-- A byte is not the next byte. -/
theorem byte_ne_succ (x : BitVec 8) : x + 1 ≠ x := by
  revert x
  decide

variable {m m' : Bytes}

/-- A load reads only its own bytes, wherever they stand. -/
theorem load_shift {a a' w : Nat} (same : ∀ i < w, m' (a' + i) = m (a + i)) :
    load m' a' w = load m a w := by
  induction w generalizing a a' with
  | zero => rfl
  | succ w ih =>
    have head : m' a' = m a := same 0 (Nat.succ_pos w)
    have tail : load m' (a' + 1) w = load m (a + 1) w := by
      apply ih
      intro i lt
      rw [Nat.add_assoc, Nat.add_assoc, Nat.add_comm 1]
      exact same (i + 1) (by omega)
    simp only [load, head, tail]

theorem load_congr {a w : Nat} (same : ∀ b, a ≤ b → b < a + w → m' b = m b) :
    load m' a w = load m a w :=
  load_shift fun i lt => same (a + i) (by omega) (by omega)

theorem load_lt (m : Bytes) (a w : Nat) : load m a w < 256 ^ w := by
  induction w generalizing a with
  | zero => exact Nat.one_pos
  | succ w ih =>
    have head : (m a).toNat < 256 := (m a).isLt
    have tail := ih (a + 1)
    rw [load, Nat.pow_succ]
    omega

/-- Zero bytes are the number zero. -/
theorem load_eq_zero {a w : Nat} (zero : ∀ b, a ≤ b → b < a + w → m b = 0) :
    load m a w = 0 := by
  induction w generalizing a with
  | zero => rfl
  | succ w ih =>
    have head : m a = 0 := zero a (Nat.le_refl a) (by omega)
    have tail : load m (a + 1) w = 0 := ih fun b low high => zero b (by omega) (by omega)
    rw [load, head, tail]
    rfl

/-- A load is the loads of its two parts. -/
theorem load_add (m : Bytes) (a w k : Nat) :
    load m a (w + k) = load m a w + 256 ^ w * load m (a + w) k := by
  induction w generalizing a with
  | zero => simp [load]
  | succ w ih =>
    rw [Nat.add_right_comm, load, ih, load, Nat.add_right_comm a 1 w, Nat.pow_succ', Nat.mul_add,
      Nat.mul_assoc, Nat.add_assoc, Nat.add_assoc]

/-- The upper part of a load. -/
theorem load_div (m : Bytes) (a w k : Nat) : load m a (w + k) / 256 ^ w = load m (a + w) k := by
  rw [load_add, Nat.add_mul_div_left _ _ (Nat.pow_pos (by decide)), Nat.div_eq_of_lt (load_lt m a w),
    Nat.zero_add]

/-- A store changes only its own bytes. -/
theorem store_outside {a w b : Nat} (v : Nat) (out : b < a ∨ a + w ≤ b) :
    store m a w v b = m b := by
  rw [store, if_neg]
  omega

/-- Its own bytes are those of the number. -/
theorem store_inside {a w v b : Nat} (low : a ≤ b) (high : b < a + w) :
    store m a w v b = BitVec.ofNat 8 (v / 256 ^ (b - a)) :=
  if_pos ⟨low, high⟩

theorem load_store_self (m : Bytes) (a w v : Nat) : load (store m a w v) a w = v % 256 ^ w := by
  induction w generalizing a v with
  | zero => simp [load, Nat.mod_one]
  | succ w ih =>
    have head : (store m a (w + 1) v a).toNat = v % 256 := by
      simp [store]
    have tail : load (store m a (w + 1) v) (a + 1) w =
        load (store m (a + 1) w (v / 256)) (a + 1) w := by
      apply load_congr
      intro b low high
      have shift : b - a = b - (a + 1) + 1 := by omega
      simp only [store]
      rw [if_pos (by omega), if_pos (by omega), shift, Nat.pow_succ, Nat.mul_comm,
        Nat.div_div_eq_div_mul]
    rw [load, head, tail, ih, Nat.pow_succ, Nat.mul_comm (256 ^ w) 256, Nat.mod_mul]

/-- A load sees what was stored at the same place, when it fits. -/
theorem load_store {a w v : Nat} (fits : v < 256 ^ w) : load (store m a w v) a w = v := by
  rw [load_store_self, Nat.mod_eq_of_lt fits]

/-- A load does not see a store it does not overlap. -/
theorem load_store_of_disjoint {a w b k : Nat} (v : Nat) (apart : b + k ≤ a ∨ a + w ≤ b) :
    load (store m a w v) b k = load m b k := by
  apply load_congr
  intro c low high
  apply store_outside
  omega

end Memory
