import Blackcomb.Fs.Ext2
import Blackcomb.Libc.String

/-!
# A comparison and its bound

The loop of `strncmp` ends where the strings differ or the first one has its NUL, whatever the count is by
then. So the count bounds the comparison only where the loop ends before it: behind a common prefix of `n`
bytes the next byte is read, and behind a longer one the difference that is found there is returned.

**What it does not establish.** Both strings end with a NUL somewhere; of bytes without one the loop
says nothing.
-/

namespace Blackcomb.Libc

open Memory Mm

variable {s1 s2 : List (BitVec 8)} {n p : Nat} {v : Int}

/-- The strings agree up to a NUL of the first one, or up to `n` bytes. -/
def Agree (s1 s2 : List (BitVec 8)) (n : Nat) : Prop :=
  ∀ i < n, (∀ j < i, s1[j]? ≠ some 0) → s1[i]? = s2[i]?

/-- A bounded comparison: it returns the same when nothing is behind the first `n` bytes, which is `0` if and
only if the strings agree, and else has the sign of the first difference. -/
structure BoundedComparison (s1 s2 : List (BitVec 8)) (n : Nat) (v : Int) : Prop where
  returned : strncmp s1 s2 n = .ok v
  bounded : strncmp (s1.take n) (s2.take n) n = .ok v
  zero : v = 0 ↔ Agree s1 s2 n
  sign : ∀ i < n, (∀ j < i, s1[j]? = s2[j]? ∧ s1[j]? ≠ some 0) → ∀ c d, s1[i]? = some c →
    s2[i]? = some d → c ≠ d → v.sign = ((c.toNat : Int) - d.toNat).sign

/-- The first position at which the strings differ or the first one has its NUL. -/
structure StopsAt (s1 s2 : List (BitVec 8)) (p : Nat) : Prop where
  before : ∀ j < p, s1[j]? = s2[j]? ∧ s1[j]? ≠ some 0
  here : s1[p]? = some 0 ∨ s1[p]? ≠ s2[p]?

namespace StopsAt

theorem tail {c d : BitVec 8} (stops : StopsAt (c :: s1) (d :: s2) (p + 1)) : StopsAt s1 s2 p :=
  ⟨fun j lt => stops.before (j + 1) (by omega), stops.here⟩

theorem cons {c : BitVec 8} (nonzero : c ≠ 0) (stops : StopsAt s1 s2 p) :
    StopsAt (c :: s1) (c :: s2) (p + 1) := by
  refine ⟨fun j lt => ?_, stops.here⟩
  cases j with
  | zero => exact ⟨rfl, fun absurd => nonzero (Option.some.inj absurd)⟩
  | succ j => exact stops.before j (by omega)

/-- There is one such position. -/
theorem unique {q : Nat} (stops : StopsAt s1 s2 p) (other : ∀ j < q, s1[j]? = s2[j]? ∧ s1[j]? ≠ some 0)
    (differ : s1[q]? ≠ s2[q]?) : q = p := by
  rcases Nat.lt_trichotomy q p with before | same | after
  · exact absurd (stops.before q before).1 differ
  · exact same
  · obtain ⟨equal, nonzero⟩ := other p after
    exact stops.here.elim (fun nul => absurd nul nonzero) fun ne => absurd equal ne

end StopsAt

/-! ## The loop -/

/-- The loop ends where the strings stop, and returns the difference there if the count has not run down. -/
theorem strncmp_stops (stops : StopsAt s1 s2 p) (below : p < n) (small : n < 2 ^ 64) {c d : BitVec 8}
    (first : s1[p]? = some c) (second : s2[p]? = some d) :
    strncmp s1 s2 n = .ok ((c.toNat : Int) - d.toNat) := by
  induction p generalizing s1 s2 n with
  | zero =>
    obtain ⟨s1, rfl⟩ := List.head?_eq_some_iff.mp (List.head?_eq_getElem? ▸ first)
    obtain ⟨s2, rfl⟩ := List.head?_eq_some_iff.mp (List.head?_eq_getElem? ▸ second)
    have differ : c = 0 ∨ c ≠ d := by simpa using stops.here
    have returns : strncmpReturn c (d :: s2) n = .ok ((c.toNat : Int) - d.toNat) :=
      if_neg (Nat.ne_of_gt below)
    rw [strncmp]
    split
    · exact returns
    · rename_i nonzero
      simp only [if_neg (differ.resolve_left nonzero)]
      exact returns
  | succ p ih =>
    cases s1 with
    | nil => cases first
    | cons e s1 =>
      cases s2 with
      | nil => cases second
      | cons f s2 =>
        have head : e = f ∧ e ≠ 0 := by simpa using stops.before 0 (Nat.succ_pos p)
        obtain ⟨rfl, nonzero⟩ := head
        have count : sub64 n 1 = n - 1 := by
          simp only [sub64]
          omega
        rw [strncmp, if_neg nonzero]
        simp only [if_true]
        rw [count]
        exact ih stops.tail (by omega) (by omega) first second

/-- A comparison that returns has stopped, at a byte that the first string has. -/
theorem stops_of_strncmp (returned : strncmp s1 s2 n = .ok v) : ∃ p < s1.length, StopsAt s1 s2 p := by
  induction s1 generalizing s2 n with
  | nil => cases returned
  | cons c s1 ih =>
    have first : ∀ j < 0, (c :: s1)[j]? = s2[j]? ∧ (c :: s1)[j]? ≠ some 0 := fun j absurd => (by omega)
    unfold strncmp at returned
    split at returned
    · rename_i nul
      exact ⟨0, Nat.succ_pos _, first, .inl (congrArg some nul)⟩
    · rename_i nonzero
      cases s2 with
      | nil => cases returned
      | cons d s2 =>
        simp only at returned
        split at returned
        · rename_i same
          subst same
          obtain ⟨p, lt, stops⟩ := ih returned
          exact ⟨p + 1, Nat.succ_lt_succ lt, stops.cons nonzero⟩
        · rename_i differ
          exact ⟨0, Nat.succ_pos _, first, .inr fun same => differ (Option.some.inj same)⟩

/-! ## The bound -/

theorem Agree.iff_stops (stops : StopsAt s1 s2 p) (below : p < n) : Agree s1 s2 n ↔ s1[p]? = s2[p]? := by
  constructor
  · intro agree
    exact agree p below fun j lt => (stops.before j lt).2
  · intro same i _ nonzero
    rcases Nat.lt_trichotomy i p with before | rfl | after
    · exact (stops.before i before).1
    · exact same
    · exact absurd (stops.here.resolve_right fun differ => differ same) (nonzero p after)

/-- A string that ends or is long enough has a byte where the comparison stops. -/
theorem StopsAt.byte {s : List (BitVec 8)} (valid : 0 ∈ s ∨ n ≤ s.length) (below : p < n)
    (before : ∀ j < p, s[j]? ≠ some 0) : ∃ c, s[p]? = some c := by
  suffices long : p < s.length from ⟨s[p], List.getElem?_eq_getElem long⟩
  rcases valid with ends | long
  · obtain ⟨i, nul⟩ := List.mem_iff_getElem?.mp ends
    obtain ⟨lt, _⟩ := List.getElem?_eq_some_iff.mp nul
    have late : ¬ i < p := fun early => before i early nul
    omega
  · omega

/-- Cutting the strings behind the place does not matter. -/
theorem StopsAt.take (stops : StopsAt s1 s2 p) (below : p < n) : StopsAt (s1.take n) (s2.take n) p := by
  refine ⟨fun j lt => ?_, ?_⟩
  · rw [List.getElem?_take_of_lt (by omega), List.getElem?_take_of_lt (by omega)]
    exact stops.before j lt
  · rw [List.getElem?_take_of_lt below, List.getElem?_take_of_lt below]
    exact stops.here

theorem StopsAt.of_take (stops : StopsAt (s1.take n) (s2.take n) p) (below : p < n) :
    StopsAt s1 s2 p := by
  refine ⟨fun j lt => ?_, ?_⟩
  · have before := stops.before j lt
    rwa [List.getElem?_take_of_lt (by omega), List.getElem?_take_of_lt (by omega)] at before
  · have here := stops.here
    rwa [List.getElem?_take_of_lt below, List.getElem?_take_of_lt below] at here

/-- **A bounded comparison.** For every two strings, each with a NUL or `n` bytes long at least, and every
count: `strncmp` is the bounded comparison if and only if they differ or end below `n`. -/
theorem strncmp_bounded_iff (s1 s2 : List (BitVec 8)) (n : Nat) (valid1 : 0 ∈ s1 ∨ n ≤ s1.length)
    (valid2 : 0 ∈ s2 ∨ n ≤ s2.length) (small : n < 2 ^ 64) :
    (∃ v, BoundedComparison s1 s2 n v) ↔ ∃ p < n, StopsAt s1 s2 p := by
  constructor
  · rintro ⟨v, compared⟩
    obtain ⟨p, lt, stops⟩ := stops_of_strncmp compared.bounded
    have below : p < n := Nat.lt_of_lt_of_le lt (List.length_take_le n s1)
    exact ⟨p, below, stops.of_take below⟩
  · rintro ⟨p, below, stops⟩
    obtain ⟨c, first⟩ := StopsAt.byte valid1 below fun j lt => (stops.before j lt).2
    obtain ⟨d, second⟩ := StopsAt.byte valid2 below fun j lt => by
      rw [← (stops.before j lt).1]
      exact (stops.before j lt).2
    refine ⟨(c.toNat : Int) - d.toNat, strncmp_stops stops below small first second, ?_, ?_, ?_⟩
    · apply strncmp_stops (stops.take below) below small
      · rwa [List.getElem?_take_of_lt below]
      · rwa [List.getElem?_take_of_lt below]
    · rw [Agree.iff_stops stops below, first, second, Option.some.injEq, ← BitVec.toNat_inj]
      omega
    · intro i _ before e f first' second' differ
      have place : i = p := stops.unique before (by rw [first', second']; simpa using differ)
      subst place
      rw [first] at first'
      rw [second] at second'
      cases first'
      cases second'
      rfl

/-- Two words that differ within the count. -/
theorem strncmp_bounded_iff_words : ∃ v, BoundedComparison [97, 98, 99, 0] [97, 98, 100, 0] 3 v := by
  refine (strncmp_bounded_iff [97, 98, 99, 0] [97, 98, 100, 0] 3 (by decide) (by decide) (by decide)).mpr
    ⟨2, by decide, ?_, by decide⟩
  decide

/-- Two words that agree up to the count: the comparison goes on behind it, to a difference. -/
theorem strncmp_past_count : Agree [97, 98, 99, 0] [97, 98, 100, 0] 1 ∧
    strncmp [97, 98, 99, 0] [97, 98, 100, 0] 1 = .ok (-1) ∧ strncmp [97] [97] 1 = .error .undefined ∧
    ¬ ∃ v, BoundedComparison [97, 98, 99, 0] [97, 98, 100, 0] 1 v := by
  have agree : Agree [97, 98, 99, 0] [97, 98, 100, 0] 1 := by
    unfold Agree
    decide
  have returned : strncmp [97, 98, 99, 0] [97, 98, 100, 0] 1 = .ok (-1) := by decide
  refine ⟨agree, returned, by decide, ?_⟩
  rintro ⟨v, compared⟩
  have zero := compared.zero.mpr agree
  have same := compared.returned
  rw [returned, zero] at same
  cases same

/-! ## Names in a directory -/

section Names

variable {m : Bytes} {comp : List (BitVec 8)} {c : BitVec 8} {a k : Nat}

/-- The bytes of a record, the first one and the others. -/
theorem bytes_succ (m : Bytes) (a k : Nat) : ((List.range (k + 1)).map fun i => m (a + i)) =
    m a :: (List.range k).map fun i => m (a + 1 + i) := by
  rw [List.range_succ_eq_map, List.map_cons, List.map_map]
  refine congrArg (m a :: ·) (List.map_congr_left fun i _ => ?_)
  simp only [Function.comp_apply]
  congr 1
  omega

theorem strncmpReturn_record
    (returned : strncmpReturn c ((List.range k).map fun i => m (a + i)) n = .ok v) :
    (if n = 0 then 0 else (c.toNat : Int) - (m a).toNat) = v := by
  unfold strncmpReturn at returned
  split at returned
  · rename_i zero
    rw [if_pos zero]
    exact Except.ok.inj returned
  · rename_i some
    rw [if_neg some]
    cases k with
    | zero => cases returned
    | succ k =>
      rw [bytes_succ] at returned
      exact Except.ok.inj returned

/-- The `strncmp` of `ext2_namei` is this one, of a component and the bytes of a record. -/
theorem strncmp_component
    (returned : strncmp (comp ++ [0]) ((List.range k).map fun i => m (a + i)) n = .ok v) :
    Fs.strncmp m comp a n = v := by
  induction comp generalizing a k n with
  | nil =>
    rw [List.nil_append] at returned
    unfold strncmp at returned
    rw [if_pos rfl] at returned
    exact strncmpReturn_record returned
  | cons c comp ih =>
    rw [List.cons_append] at returned
    unfold strncmp at returned
    rw [Fs.strncmp]
    split at returned
    · rename_i nul
      rw [if_neg fun both => both.1 nul]
      exact strncmpReturn_record returned
    · rename_i nonzero
      cases k with
      | zero => cases returned
      | succ k =>
        rw [bytes_succ] at returned
        simp only at returned
        split at returned
        · rename_i same
          rw [if_pos ⟨nonzero, same⟩]
          exact ih returned
        · rename_i differ
          rw [if_neg fun both => differ both.2]
          rw [← bytes_succ] at returned
          exact strncmpReturn_record returned

end Names

end Blackcomb.Libc
