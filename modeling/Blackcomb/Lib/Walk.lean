import Mathlib.Data.Nat.Basic

/-!
# Walks

A `while` with the condition `goes` and the body `next`. `Visits` says at which states the condition is
tested, and `stopsAt` in which state it fails, if it does so within a number of rounds. A walk may be
watched through a function of its state: what is seen is a walk again (`visits_map_iff`, `stopsAt_map`).

A walk on numbers that never goes back, and goes on below a bound only, ends exactly when no round stays
where it is; then it ends within as many rounds as there are numbers below the bound.

Nothing here names a program.
-/

namespace Walk

variable {σ τ : Type} {next : σ → σ} {goes : σ → Prop} {a s : σ} {n : Nat}

/-- The states at which the walk from one tests its condition. -/
inductive Visits (next : σ → σ) (goes : σ → Prop) (a : σ) : σ → Prop
  | start : Visits next goes a a
  | round {s : σ} : Visits next goes a s → goes s → Visits next goes a (next s)

/-- Where the walk stops, if it does so within a number of rounds. -/
def stopsAt (next : σ → σ) (goes : σ → Prop) [DecidablePred goes] : Nat → σ → Option σ
  | 0, s => if goes s then none else some s
  | n + 1, s => if goes s then stopsAt next goes n (next s) else some s

/-- A walk goes on from its second state as from its first. -/
theorem Visits.head (more : goes a) (visits : Visits next goes (next a) s) : Visits next goes a s := by
  induction visits with
  | start => exact .round .start more
  | round _ more ih => exact .round ih more

theorem visits_iff : Visits next goes a s ↔ s = a ∨ (goes a ∧ Visits next goes (next a) s) := by
  constructor
  · intro visits
    induction visits with
    | start => exact .inl rfl
    | round _ more ih =>
      rcases ih with rfl | ⟨first, rest⟩
      · exact .inr ⟨more, .start⟩
      · exact .inr ⟨first, .round rest more⟩
  · rintro (rfl | ⟨more, rest⟩)
    · exact .start
    · exact rest.head more

/-- A walk that stays where it is comes nowhere else. -/
theorem Visits.of_fixed (visits : Visits next goes a s) (fixed : next a = a) : s = a := by
  induction visits with
  | start => rfl
  | round _ _ ih => rw [ih, fixed]

/-- Watching a walk. -/
theorem visits_map_iff {next' : τ → τ} {goes' : τ → Prop} (f : σ → τ) (same : ∀ s, goes' (f s) ↔ goes s)
    (follows : ∀ s, goes s → f (next s) = next' (f s)) {t : τ} :
    Visits next' goes' (f a) t ↔ ∃ s, Visits next goes a s ∧ f s = t := by
  constructor
  · intro visits
    induction visits with
    | start => exact ⟨a, .start, rfl⟩
    | round _ more ih =>
      obtain ⟨s, visited, rfl⟩ := ih
      have more := (same s).mp more
      exact ⟨next s, .round visited more, follows s more⟩
  · rintro ⟨s, visits, rfl⟩
    induction visits with
    | start => exact .start
    | @round s _ more ih =>
      rw [follows s more]
      exact .round ih ((same s).mpr more)

section Stops

variable [DecidablePred goes]

/-- A walk that stays where it is does not stop. -/
theorem stopsAt_of_fixed (more : goes a) (fixed : next a = a) (n : Nat) :
    stopsAt next goes n a = none := by
  induction n with
  | zero => exact if_pos more
  | succ n ih => rw [stopsAt, if_pos more, fixed, ih]

theorem stopsAt_map {next' : τ → τ} {goes' : τ → Prop} [DecidablePred goes'] (f : σ → τ)
    (same : ∀ s, goes' (f s) ↔ goes s) (follows : ∀ s, goes s → f (next s) = next' (f s)) (n : Nat)
    (a : σ) : stopsAt next' goes' n (f a) = (stopsAt next goes n a).map f := by
  induction n generalizing a with
  | zero =>
    rw [stopsAt, stopsAt]
    by_cases more : goes a
    · rw [if_pos more, if_pos ((same a).mpr more), Option.map_none]
    · rw [if_neg more, if_neg (mt (same a).mp more), Option.map_some]
  | succ n ih =>
    rw [stopsAt, stopsAt]
    by_cases more : goes a
    · rw [if_pos more, if_pos ((same a).mpr more), ← follows a more, ih]
    · rw [if_neg more, if_neg (mt (same a).mp more), Option.map_some]

/-- A walk that does not go on stops where it is. -/
theorem stopsAt_of_done (done : ¬ goes a) (n : Nat) : stopsAt next goes n a = some a := by
  cases n with
  | zero => exact if_neg done
  | succ n => exact if_neg done

end Stops

/-- **Ending.** A walk on numbers that never goes back and goes on below a bound only, with a round for
every number up to there. -/
theorem stopsAt_isSome_iff {next : Nat → Nat} {goes : Nat → Prop} [DecidablePred goes] {stop a n : Nat}
    (rises : ∀ o, goes o → o ≤ next o) (below : ∀ o, goes o → o < stop) (enough : stop ≤ a + n) :
    (stopsAt next goes n a).isSome ↔ ∀ o, Visits next goes a o → goes o → next o ≠ o := by
  by_cases more : goes a
  case neg =>
    rw [stopsAt_of_done more]
    simp only [Option.isSome_some, true_iff]
    intro o visits going
    rcases visits_iff.mp visits with rfl | ⟨more', _⟩
    · exact absurd going more
    · exact absurd more' more
  have first : (∀ o, Visits next goes a o → goes o → next o ≠ o) ↔
      next a ≠ a ∧ ∀ o, Visits next goes (next a) o → goes o → next o ≠ o := by
    constructor
    · exact fun advances => ⟨advances a .start more, fun o visits => advances o (visits.head more)⟩
    · rintro ⟨here, later⟩ o visits
      rcases visits_iff.mp visits with rfl | ⟨_, rest⟩
      · exact fun _ => here
      · exact later o rest
  have le := rises a more
  have lt := below a more
  obtain ⟨n, rfl⟩ : ∃ k, n = k + 1 := ⟨n - 1, by omega⟩
  rw [first, stopsAt, if_pos more]
  by_cases fixed : next a = a
  · rw [fixed, stopsAt_of_fixed more fixed]
    simp
  · rw [and_iff_right fixed]
    exact stopsAt_isSome_iff rises below (by omega)

end Walk
