import Blackcomb.Lib.Run

/-!
# Machines that follow a specification

A specification is a machine too, whose steps are a relation `next : Λ → τ → τ → Prop`: what may
follow what when something named by a label happens. `Leads next a ls b` is a run of it.

`Simulates step ok out next R` connects a fallible machine to it by a relation `R` between their
states: a step that is taken under the guard `ok`, in a state that is related to one of the
specification, is a step of the specification too. States with `out`, which no step undoes, are not
spoken of. Its rule is `Simulates.follow`: so is every run, from related states, that does not end
`out`. Where the specification is a function, `Simulates.follow_foldl` says where the run ends.
-/

namespace Run

variable {σ τ Λ ε : Type}

/-- A guarded run, step by step. -/
theorem Guarded.cons {step : Λ → σ → Except ε σ} {ok : Λ → σ → Prop} {s s' : σ} {l : Λ} {ls : List Λ}
    (taken : step l s = .ok s') (allowed : ok l s) (rest : Guarded step ok s' ls) :
    Guarded step ok s (l :: ls) := by
  intro t other
  rw [taken] at other
  obtain rfl := Except.ok.inj other
  exact ⟨allowed, rest⟩

/-- A guard that never refuses. -/
theorem guarded_of_forall {step : Λ → σ → Except ε σ} {ok : Λ → σ → Prop} (all : ∀ l s, ok l s) :
    ∀ (ls : List Λ) (s : σ), Guarded step ok s ls
  | [], _ => trivial
  | l :: ls, s => fun s' _ => ⟨all l s, guarded_of_forall all ls s'⟩

theorem follow_cons {step : Λ → σ → Except ε σ} {s s' : σ} {l : Λ} (taken : step l s = .ok s')
    (ls : List Λ) : Run.follow step s (l :: ls) = Run.follow step s' ls := by
  rw [Run.follow, taken]

/-- A run of two words is a run of one and a run of the other. -/
theorem follow_append {step : Λ → σ → Except ε σ} {s s' : σ} : ∀ {ls ms : List Λ},
    Run.follow step s (ls ++ ms) = .ok s' ↔
      ∃ t, Run.follow step s ls = .ok t ∧ Run.follow step t ms = .ok s'
  | [], ms => by simp [Run.follow]
  | l :: ls, ms => by
    rw [List.cons_append, Run.follow, Run.follow]
    cases step l s with
    | error e => simp
    | ok s₁ => exact follow_append

/-- The run of a word through a specification. -/
inductive Leads (next : Λ → τ → τ → Prop) : τ → List Λ → τ → Prop
  | nil (a : τ) : Leads next a [] a
  | cons {a b c : τ} {l : Λ} {ls : List Λ} : next l a b → Leads next b ls c →
      Leads next a (l :: ls) c

/-- What every step of the specification keeps, every run of it keeps. -/
theorem Leads.invariant {next : Λ → τ → τ → Prop} {a b : τ} {ls : List Λ} (I : τ → Prop)
    (keep : ∀ l a b, I a → next l a b → I b) (leads : Leads next a ls b) (start : I a) : I b := by
  induction leads with
  | nil a => exact start
  | cons first _ ih => exact ih (keep _ _ _ start first)

/-- A specification that is a function has one run of a word. -/
theorem Leads.eq_foldl {f : Λ → τ → τ} {a b : τ} {ls : List Λ}
    (leads : Leads (fun l a b => b = f l a) a ls b) : b = ls.foldl (fun a l => f l a) a := by
  induction leads with
  | nil a => rfl
  | cons first _ ih =>
    rw [ih, first]
    rfl

/-- The steps of a machine are steps of a specification. -/
structure Simulates (step : Λ → σ → Except ε σ) (ok : Λ → σ → Prop) (out : σ → Prop)
    (next : Λ → τ → τ → Prop) (R : σ → τ → Prop) : Prop where
  sticky : ∀ l s s', step l s = .ok s' → out s → out s'
  step : ∀ l s s' a, ¬ out s → ¬ out s' → R s a → ok l s → step l s = .ok s' →
    ∃ b, next l a b ∧ R s' b

namespace Simulates

variable {step : Λ → σ → Except ε σ} {ok : Λ → σ → Prop} {out : σ → Prop}
  {next : Λ → τ → τ → Prop} {R : σ → τ → Prop}

/-- What no step undoes did not hold before a run if it does not hold after it. -/
theorem before {s' : σ} (sim : Simulates step ok out next R) :
    ∀ {ls : List Λ} {s : σ}, follow step s ls = .ok s' → ¬ out s' → ¬ out s
  | [], s, ran, met => by
    cases ran
    exact met
  | l :: ls, s, ran, met => by
    unfold follow at ran
    split at ran
    · rename_i s₁ taken
      exact fun held => sim.before ran met (sim.sticky l s s₁ taken held)
    · cases ran

/-- The simulation rule. -/
theorem follow {s' : σ} (sim : Simulates step ok out next R) :
    ∀ {ls : List Λ} {s : σ} {a : τ}, Guarded step ok s ls → Run.follow step s ls = .ok s' →
      ¬ out s' → R s a → ∃ b, Leads next a ls b ∧ R s' b
  | [], s, a, _, ran, _, related => by
    cases ran
    exact ⟨a, .nil a, related⟩
  | l :: ls, s, a, guard, ran, met, related => by
    have whole := ran
    unfold Run.follow at ran
    split at ran
    · rename_i s₁ taken
      obtain ⟨allowed, rest⟩ := guard s₁ taken
      obtain ⟨b, first, related₁⟩ :=
        sim.step l s s₁ a (sim.before whole met) (sim.before ran met) related allowed taken
      obtain ⟨c, later, related'⟩ := sim.follow rest ran met related₁
      exact ⟨c, .cons first later, related'⟩
    · cases ran

/-- Where the specification is a function. -/
theorem follow_foldl {f : Λ → τ → τ} {ls : List Λ} {s s' : σ} {a : τ}
    (sim : Simulates step ok out (fun l a b => b = f l a) R) (guard : Guarded step ok s ls)
    (ran : Run.follow step s ls = .ok s') (met : ¬ out s') (related : R s a) :
    R s' (ls.foldl (fun a l => f l a) a) := by
  obtain ⟨b, leads, related'⟩ := sim.follow guard ran met related
  rwa [leads.eq_foldl] at related'

end Simulates

end Run
