import Mathlib.Tactic.Common

/-!
# Programs that may run out

A program is a state transformer `StateT σ (Except ε) α`. It draws on a resource the state meters:
`left s` is how much of it is free, and `out s` says that some request was not met. A program that
ran out goes on, with no promise about what it does, but it does not forget: it is `Sticky`.

`Runs M x n s Q` is the one judgement. From `s`, the program `x` draws at most `n` and returns with
`Q`; or less than `n` was free, and if it returns at all, the state says that it ran out. Read
forwards it is safety (`Runs.safe`: whatever returned without running out has `Q`), and with enough
of the resource it is totality (`Runs.total`). Budgets add up along `bind` and over loops.
-/

namespace Budget

variable {σ ε α β : Type}

/-- What a state says about the resource. -/
structure Meter (σ : Type) where
  out : σ → Prop
  left : σ → Nat

variable {M : Meter σ} {n k : Nat} {s : σ}

/-- A program does not forget that it ran out. -/
def Sticky (M : Meter σ) (x : StateT σ (Except ε) α) : Prop :=
  ∀ s a s', x s = .ok (a, s') → M.out s → M.out s'

/-- From `s`, `x` draws at most `n` and returns with `Q`, or runs out of less than `n`. -/
def Runs (M : Meter σ) (x : StateT σ (Except ε) α) (n : Nat) (s : σ) (Q : α → σ → Prop) : Prop :=
  (∃ a s', x s = .ok (a, s') ∧ ¬ M.out s' ∧ M.left s ≤ M.left s' + n ∧ Q a s') ∨
    (M.left s < n ∧ ∀ a s', x s = .ok (a, s') → M.out s')

/-! ## Programs that stick -/

section Sticky

variable {x : StateT σ (Except ε) α} {f : α → StateT σ (Except ε) β}

theorem get_bind_apply {f : σ → StateT σ (Except ε) β} (s : σ) : (get >>= f) s = f s s := rfl

/-- A sequence that returned is its first part and then its second. -/
theorem bind_eq_ok {b : β} {s s' : σ} :
    (x >>= f) s = .ok (b, s') ↔ ∃ a s₁, x s = .ok (a, s₁) ∧ f a s₁ = .ok (b, s') := by
  have unfolded : (x >>= f) s = (x s >>= fun p => f p.1 p.2) := rfl
  rw [unfolded]
  cases first : x s with
  | error e =>
    constructor
    · intro h
      cases h
    · intro ⟨a, s₁, h, _⟩
      cases h
  | ok p =>
    constructor
    · intro h
      exact ⟨p.1, p.2, rfl, h⟩
    · intro ⟨a, s₁, h, rest⟩
      cases h
      exact rest

theorem Sticky.pure (a : α) : Sticky M (pure a : StateT σ (Except ε) α) := by
  intro s b s' h out
  cases h
  exact out

theorem Sticky.get : Sticky M (get : StateT σ (Except ε) σ) := by
  intro s b s' h out
  cases h
  exact out

theorem Sticky.throw (e : ε) : Sticky M (throw e : StateT σ (Except ε) α) := by
  intro s b s' h
  cases h

/-- An update is sticky when its function is. -/
theorem Sticky.modify {f : σ → σ} (keeps : ∀ s, M.out s → M.out (f s)) :
    Sticky M (modify f : StateT σ (Except ε) PUnit) := by
  intro s b s' h out
  cases h
  exact keeps s out

theorem Sticky.bind (first : Sticky M x) (rest : ∀ a, Sticky M (f a)) : Sticky M (x >>= f) := by
  intro s b s' h out
  obtain ⟨a, s₁, one, two⟩ := bind_eq_ok.mp h
  exact rest a s₁ b s' two (first s a s₁ one out)

theorem Sticky.ite {c : Prop} [Decidable c] {y : StateT σ (Except ε) α} (yes : Sticky M x)
    (no : Sticky M y) : Sticky M (if c then x else y) := by
  split
  · exact yes
  · exact no

end Sticky

/-! ## Rules -/

namespace Runs

variable {x : StateT σ (Except ε) α} {f : α → StateT σ (Except ε) β} {Q : α → σ → Prop}
  {R : β → σ → Prop}

/-- Whatever returned without running out is as promised. -/
theorem safe (runs : Runs M x n s Q) {a : α} {s' : σ} (done : x s = .ok (a, s'))
    (met : ¬ M.out s') : Q a s' := by
  rcases runs with ⟨b, t, ran, _, _, post⟩ | ⟨_, short⟩
  · rw [ran] at done
    cases done
    exact post
  · exact absurd (short a s' done) met

/-- With enough free, the program returns as promised. -/
theorem total (runs : Runs M x n s Q) (enough : n ≤ M.left s) :
    ∃ a s', x s = .ok (a, s') ∧ ¬ M.out s' ∧ M.left s ≤ M.left s' + n ∧ Q a s' := by
  rcases runs with ran | ⟨short, _⟩
  · exact ran
  · exact absurd enough (Nat.not_le.mpr short)

/-- A returned value and state are enough to know, for a program that draws nothing. -/
theorem done {a : α} {s' : σ} (ran : x s = .ok (a, s')) (met : ¬ M.out s')
    (kept : M.left s ≤ M.left s' + n) (post : Q a s') : Runs M x n s Q :=
  .inl ⟨a, s', ran, met, kept, post⟩

/-- A smaller cost and a stronger result are enough. -/
theorem mono {Q' : α → σ → Prop} (runs : Runs M x n s Q) (le : n ≤ k)
    (weaker : ∀ a s', Q a s' → Q' a s') : Runs M x k s Q' := by
  rcases runs with ⟨a, s', ran, met, kept, post⟩ | ⟨short, out⟩
  · exact .inl ⟨a, s', ran, met, by omega, weaker a s' post⟩
  · exact .inr ⟨by omega, out⟩

/-- The same budget, a weaker promise. -/
theorem imp {Q' : α → σ → Prop} (runs : Runs M x n s Q) (weaker : ∀ a s', Q a s' → Q' a s') :
    Runs M x n s Q' :=
  runs.mono (Nat.le_refl n) weaker

/-- What is promised is promised of the run. -/
theorem ran (runs : Runs M x n s Q) : Runs M x n s fun a s' => x s = .ok (a, s') ∧ Q a s' := by
  rcases runs with ⟨a, s', ran, met, kept, post⟩ | short
  · exact .inl ⟨a, s', ran, met, kept, ran, post⟩
  · exact .inr short

/-- Two promises about one program. -/
theorem and {Q' : α → σ → Prop} (one : Runs M x n s Q) (two : Runs M x n s Q') :
    Runs M x n s fun a s' => Q a s' ∧ Q' a s' := by
  rcases one with ⟨a, s', ran, met, kept, post⟩ | short
  · refine .inl ⟨a, s', ran, met, kept, post, ?_⟩
    exact two.safe ran met
  · exact .inr short

theorem pure {a : α} (met : ¬ M.out s) (post : Q a s) :
    Runs M (Pure.pure a : StateT σ (Except ε) α) n s Q :=
  done rfl met (Nat.le_add_right _ _) post

/-- Budgets add up. -/
theorem bind (first : Runs M x n s fun a s₁ => ¬ M.out s₁ → Runs M (f a) k s₁ R)
    (sticky : ∀ a, Sticky M (f a)) : Runs M (x >>= f) (n + k) s R := by
  rcases first with ⟨a, s₁, ran, met, kept, rest⟩ | ⟨short, out⟩
  · rcases rest met with ⟨b, s', ran', met', kept', post⟩ | ⟨short, out⟩
    · exact .inl ⟨b, s', bind_eq_ok.mpr ⟨a, s₁, ran, ran'⟩, met', by omega, post⟩
    · refine .inr ⟨by omega, fun b s' h => ?_⟩
      obtain ⟨a', s₁', ran', two⟩ := bind_eq_ok.mp h
      rw [ran] at ran'
      cases ran'
      exact out b s' two
  · refine .inr ⟨by omega, fun b s' h => ?_⟩
    obtain ⟨a', s₁', ran', two⟩ := bind_eq_ok.mp h
    exact sticky a' s₁' b s' two (out a' s₁' ran')

/-- A first part that draws nothing. -/
theorem seq (first : Runs M x 0 s fun a s₁ => ¬ M.out s₁ → Runs M (f a) k s₁ R)
    (sticky : ∀ a, Sticky M (f a)) : Runs M (x >>= f) k s R := by
  have both := first.bind sticky
  rwa [Nat.zero_add] at both

/-- A first part that draws nothing and is known. -/
theorem step {a : α} {s₁ : σ} (ran : x s = .ok (a, s₁)) (kept : M.left s ≤ M.left s₁)
    (rest : Runs M (f a) n s₁ R) : Runs M (x >>= f) n s R := by
  rcases rest with ⟨b, s', ran', met', kept', post⟩ | ⟨short, out⟩
  · exact .inl ⟨b, s', bind_eq_ok.mpr ⟨a, s₁, ran, ran'⟩, met', by omega, post⟩
  · refine .inr ⟨by omega, fun b s' h => ?_⟩
    obtain ⟨a', s₁', ran', two⟩ := bind_eq_ok.mp h
    rw [ran] at ran'
    cases ran'
    exact out b s' two

/-- The state is read. -/
theorem of_get {f : σ → StateT σ (Except ε) β} (rest : Runs M (f s) n s R) :
    Runs M (get >>= f) n s R :=
  step (x := get) (a := s) rfl (Nat.le_refl _) rest

/-- The state is assigned. -/
theorem of_modify {f : PUnit → StateT σ (Except ε) β} {g : σ → σ} (kept : M.left s ≤ M.left (g s))
    (rest : Runs M (f ()) n (g s) R) : Runs M (modify g >>= f) n s R :=
  step (x := modify g) (a := ()) rfl kept rest

end Runs

/-! ## Loops -/

/-- `for (i = 0; i < n; i++) body(i)`. -/
def forTo (n : Nat) (body : Nat → StateT σ (Except ε) PUnit) : StateT σ (Except ε) PUnit :=
  match n with
  | 0 => pure ()
  | n + 1 => do
    forTo n body
    body n

/-- A loop is sticky when every round is. -/
theorem Sticky.forTo {body : Nat → StateT σ (Except ε) PUnit} (each : ∀ i, Sticky M (body i)) :
    Sticky M (forTo n body) := by
  induction n with
  | zero => exact .pure ()
  | succ n ih => exact ih.bind fun _ => each n

/-- The loop rule: an invariant of the number of rounds done, a budget for each round. -/
theorem Runs.forTo {body : Nat → StateT σ (Except ε) PUnit} (I : Nat → σ → Prop)
    (met : ¬ M.out s) (start : I 0 s)
    (round : ∀ i < n, ∀ t, ¬ M.out t → I i t → Runs M (body i) k t fun _ t' => I (i + 1) t')
    (each : ∀ i, Sticky M (body i)) : Runs M (Budget.forTo n body) (n * k) s fun _ s' => I n s' := by
  induction n with
  | zero => exact .pure met start
  | succ n ih =>
    rw [Nat.succ_mul]
    refine .bind (n := n * k) ((ih fun i lt => round i (by omega)).imp ?_) fun _ => each n
    intro _ t inv met
    exact round n (Nat.lt_succ_self n) t met inv

/-- What each round keeps where the rounds before it have led. -/
theorem Runs.forTo_along {body : Nat → StateT σ (Except ε) PUnit} (I : Nat → σ → Prop) (W : σ → Prop)
    (met : ¬ M.out s) (led : ∀ i ≤ n, Runs M (Budget.forTo i body) (i * k) s fun _ s' => I i s')
    (start : W s)
    (round : ∀ i < n, ∀ t, ¬ M.out t → I i t → W t → Runs M (body i) k t fun _ t' => W t')
    (each : ∀ i, Sticky M (body i)) : Runs M (Budget.forTo n body) (n * k) s fun _ s' => W s' := by
  induction n with
  | zero => exact .pure met start
  | succ n ih =>
    have before := ih (fun i le => led i (by omega)) fun i lt => round i (by omega)
    rw [Nat.succ_mul]
    refine .bind (n := n * k) (((led n (Nat.le_succ n)).and before).imp ?_) fun _ => each n
    intro _ t ⟨inv, kept⟩ met
    exact round n (Nat.lt_succ_self n) t met inv kept

end Budget
