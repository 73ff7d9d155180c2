import Blackcomb.Lib.Budget

/-!
# What a program does to its state, whenever it returns

`Relates R x` says that the program `x`, whenever it returns, leaves a state that `R` relates to the
one it started in. Nothing is asked of that one and nothing is said of programs that do not return.
For a relation that is reflexive and transitive (`Closed`), the constructs of programs keep it, so it
is shown of the assignments of a program only. `Returns x` says that `x` does return, from any state,
and `ReturnsIn P x` that it does from any state with `P`, to one with `P`.
-/

namespace Budget

variable {σ ε α β : Type} {R : σ → σ → Prop}

/-- Whenever `x` returns, its last state is related to its first. -/
def Relates (R : σ → σ → Prop) (x : StateT σ (Except ε) α) : Prop :=
  ∀ s a s', x s = .ok (a, s') → R s s'

/-- A relation that programs can be built for. -/
structure Closed (R : σ → σ → Prop) : Prop where
  refl : ∀ s, R s s
  trans : ∀ {s t u}, R s t → R t u → R s u

/-- An error leaves no state to relate. -/
theorem Relates.throw (e : ε) : Relates R (throw e : StateT σ (Except ε) α) := by
  intro s a s' h
  cases h

/-- An update relates its states when the function does. -/
theorem Relates.modify {f : σ → σ} (each : ∀ s, R s (f s)) :
    Relates R (modify f : StateT σ (Except ε) PUnit) := by
  intro s a s' h
  cases h
  exact each s

/-- Both branches relate, whichever is taken. -/
theorem Relates.ite {c : Prop} [Decidable c] {x y : StateT σ (Except ε) α} (yes : Relates R x)
    (no : Relates R y) : Relates R (if c then x else y) := by
  split
  · exact yes
  · exact no

namespace Closed

variable (closed : Closed R) {x : StateT σ (Except ε) α} {f : α → StateT σ (Except ε) β}

include closed

/-- A value leaves the state, and the relation is reflexive. -/
theorem pure (a : α) : Relates R (pure a : StateT σ (Except ε) α) := by
  intro s b s' h
  cases h
  exact closed.refl s

/-- Two computations in a row, the relation being transitive. -/
theorem bind (first : Relates R x) (rest : ∀ a, Relates R (f a)) : Relates R (x >>= f) := by
  intro s b s' h
  obtain ⟨a, s₁, one, two⟩ := bind_eq_ok.mp h
  exact closed.trans (first s a s₁ one) (rest a s₁ b s' two)

/-- The state is read. -/
theorem of_get {g : σ → StateT σ (Except ε) β} (rest : ∀ s, Relates R (g s)) :
    Relates R (get >>= g) := by
  apply closed.bind _ rest
  intro s b s' h
  cases h
  exact closed.refl s

/-- A loop relates its states when every round does. -/
theorem forTo {n : Nat} {body : Nat → StateT σ (Except ε) PUnit} (each : ∀ i, Relates R (body i)) :
    Relates R (forTo n body) := by
  induction n with
  | zero => exact closed.pure ()
  | succ n ih => exact closed.bind ih fun _ => each n

end Closed

/-! ## Programs that return -/

/-- The program returns, whatever state it starts in. -/
def Returns (x : StateT σ (Except ε) α) : Prop := ∀ s, ∃ a s', x s = .ok (a, s')

namespace Returns

variable {x y : StateT σ (Except ε) α} {f : α → StateT σ (Except ε) β}

theorem pure (a : α) : Returns (pure a : StateT σ (Except ε) α) := fun s => ⟨a, s, rfl⟩

theorem modify (f : σ → σ) : Returns (modify f : StateT σ (Except ε) PUnit) := fun s =>
  ⟨⟨⟩, f s, rfl⟩

theorem bind (first : Returns x) (rest : ∀ a, Returns (f a)) : Returns (x >>= f) := by
  intro s
  obtain ⟨a, t, one⟩ := first s
  obtain ⟨b, u, two⟩ := rest a t
  exact ⟨b, u, bind_eq_ok.mpr ⟨a, t, one, two⟩⟩

theorem of_get {g : σ → StateT σ (Except ε) β} (rest : ∀ s, Returns (g s)) :
    Returns (get >>= g) := by
  intro s
  obtain ⟨b, u, two⟩ := rest s s
  exact ⟨b, u, bind_eq_ok.mpr ⟨s, s, rfl, two⟩⟩

theorem ite {c : Prop} [Decidable c] (yes : c → Returns x) (no : ¬ c → Returns y) :
    Returns (if c then x else y) := by
  split
  · exact yes ‹_›
  · exact no ‹_›

theorem forTo {n : Nat} {body : Nat → StateT σ (Except ε) PUnit}
    (each : ∀ i < n, Returns (body i)) : Returns (Budget.forTo n body) := by
  induction n with
  | zero => exact pure PUnit.unit
  | succ n ih =>
    exact bind (ih fun i lt => each i (Nat.lt_succ_of_lt lt)) fun _ => each n (Nat.lt_succ_self n)

end Returns

/-! ## Programs that return from some states -/

/-- From every state with `P` the program returns, in a state with `P`. -/
def ReturnsIn (P : σ → Prop) (x : StateT σ (Except ε) α) : Prop :=
  ∀ s, P s → ∃ a s', x s = .ok (a, s') ∧ P s'

namespace ReturnsIn

variable {P : σ → Prop} {x y : StateT σ (Except ε) α} {f : α → StateT σ (Except ε) β}

/-- A program that returns anyway and keeps `P`. -/
theorem of_returns (returns : Returns x) (keeps : Relates (fun s s' => P s → P s') x) :
    ReturnsIn P x := by
  intro s here
  obtain ⟨a, s', ran⟩ := returns s
  exact ⟨a, s', ran, keeps s a s' ran here⟩

theorem pure (a : α) : ReturnsIn P (pure a : StateT σ (Except ε) α) := fun s here =>
  ⟨a, s, rfl, here⟩

theorem modify {f : σ → σ} (keeps : ∀ s, P s → P (f s)) :
    ReturnsIn P (modify f : StateT σ (Except ε) PUnit) := fun s here =>
  ⟨⟨⟩, f s, rfl, keeps s here⟩

theorem bind (first : ReturnsIn P x) (rest : ∀ a, ReturnsIn P (f a)) : ReturnsIn P (x >>= f) := by
  intro s here
  obtain ⟨a, t, one, there⟩ := first s here
  obtain ⟨b, u, two, last⟩ := rest a t there
  exact ⟨b, u, bind_eq_ok.mpr ⟨a, t, one, two⟩, last⟩

theorem of_get {g : σ → StateT σ (Except ε) β} (rest : ∀ s, P s → ReturnsIn P (g s)) :
    ReturnsIn P (get >>= g) := by
  intro s here
  obtain ⟨b, u, two, last⟩ := rest s here s here
  exact ⟨b, u, bind_eq_ok.mpr ⟨s, s, rfl, two⟩, last⟩

theorem ite {c : Prop} [Decidable c] (yes : c → ReturnsIn P x) (no : ¬ c → ReturnsIn P y) :
    ReturnsIn P (if c then x else y) := by
  split
  · exact yes ‹_›
  · exact no ‹_›

theorem forTo {n : Nat} {body : Nat → StateT σ (Except ε) PUnit}
    (each : ∀ i < n, ReturnsIn P (body i)) : ReturnsIn P (Budget.forTo n body) := by
  induction n with
  | zero => exact pure PUnit.unit
  | succ n ih =>
    exact bind (ih fun i lt => each i (Nat.lt_succ_of_lt lt)) fun _ => each n (Nat.lt_succ_self n)

end ReturnsIn

end Budget
