import Mathlib.Data.List.Basic

/-!
# Runs of a fallible machine

A machine is a step function `Λ → σ → Except ε σ`: a label names what happens, a state is what it
happens to, and a failed step has no next state. Two readings of "every run" are kept apart here:

* `Reach step ok s₀` is the set of states the runs from `s₀` pass through, every step of which
  was taken in a state that meets the guard `ok`. Its rules are `Reach.invariant` and, for the runs
  that stay clear of what no step undoes, `Reach.avoiding`.
* `Along step P s ls` follows one run, the word `ls`, and says `P` of each of its states;
  `Guarded step ok s ls` follows the same run and says `ok` of each of its steps, and
  `Attempted step ok s ls` says it of the step that fails too. `guarded_iff_along` is the
  exchange: a guard that keeps a property, and whose every breach breaks it, is exactly the
  condition under which the property holds along the run. `follow` computes the run itself.

Nothing here names a program: σ, Λ and ε are arbitrary.
-/

namespace Run

variable {σ Λ ε : Type}

/-- The states that runs from `s₀` pass through, each step taken under the guard `ok`. -/
inductive Reach (step : Λ → σ → Except ε σ) (ok : Λ → σ → Prop) (s₀ : σ) : σ → Prop
  | start : Reach step ok s₀ s₀
  | step {s s' : σ} {l : Λ} : Reach step ok s₀ s → ok l s → step l s = .ok s' →
      Reach step ok s₀ s'

/-- The invariant rule: what holds at the start and survives every guarded step holds of every
state reached. -/
theorem Reach.invariant {step : Λ → σ → Except ε σ} {ok : Λ → σ → Prop} {s₀ s : σ}
    (I : σ → Prop) (start : I s₀)
    (keep : ∀ l s s', I s → ok l s → step l s = .ok s' → I s')
    (reach : Reach step ok s₀ s) : I s := by
  induction reach with
  | start => exact start
  | step _ guard taken ih => exact keep _ _ _ ih guard taken

section Avoiding

variable {step : Λ → σ → Except ε σ} {ok : Λ → σ → Prop} {s₀ s : σ} (out : σ → Prop)
  (sticky : ∀ l s s', step l s = .ok s' → out s → out s')

include sticky

/-- What no step undoes did not hold at the start if it does not hold at the end. -/
theorem Reach.start_avoids (reach : Reach step ok s₀ s) (met : ¬ out s) : ¬ out s₀ := fun h =>
  met (reach.invariant out h fun l s s' held _ taken => sticky l s s' taken held)

/-- The invariant rule for the runs that avoid it. -/
theorem Reach.avoiding (I : σ → Prop) (start : ¬ out s₀ → I s₀)
    (keep : ∀ l s s', ¬ out s → I s → ok l s → step l s = .ok s' → ¬ out s' → I s')
    (reach : Reach step ok s₀ s) (met : ¬ out s) : I s := by
  induction reach with
  | start => exact start met
  | step _ guard taken ih =>
    have before := fun held => met (sticky _ _ _ taken held)
    exact keep _ _ _ before (ih before) guard taken met

end Avoiding

/-- `P` holds of every state the run of a word passes through, the first one included. A step
that fails ends the run. -/
def Along (step : Λ → σ → Except ε σ) (P : σ → Prop) : σ → List Λ → Prop
  | s, [] => P s
  | s, l :: ls => P s ∧ ∀ s', step l s = .ok s' → Along step P s' ls

/-- Every step that the run of a word takes is taken in a state that meets the guard. -/
def Guarded (step : Λ → σ → Except ε σ) (ok : Λ → σ → Prop) : σ → List Λ → Prop
  | _, [] => True
  | s, l :: ls => ∀ s', step l s = .ok s' → ok l s ∧ Guarded step ok s' ls

theorem Along.head {step : Λ → σ → Except ε σ} {P : σ → Prop} {s : σ} :
    ∀ {ls : List Λ}, Along step P s ls → P s
  | [], h => h
  | _ :: _, h => h.1

/-- A guard under which an invariant survives carries whatever the invariant implies along the
whole run. -/
theorem along_of_guarded {step : Λ → σ → Except ε σ} {ok : Λ → σ → Prop} {I P : σ → Prop}
    (keep : ∀ l s s', I s → ok l s → step l s = .ok s' → I s') (implies : ∀ s, I s → P s) :
    ∀ {s : σ} {ls : List Λ}, I s → Guarded step ok s ls → Along step P s ls
  | s, [], inv, _ => implies s inv
  | s, l :: ls, inv, guard => by
    refine ⟨implies s inv, fun s' taken => ?_⟩
    obtain ⟨met, rest⟩ := guard s' taken
    exact along_of_guarded keep implies (keep l s s' inv met taken) rest

/-- The exchange. When the guard keeps the invariant, the invariant gives the property, and a
step taken outside the guard lands where the property fails, the guarded runs are exactly the
runs along which the property holds. -/
theorem guarded_iff_along {step : Λ → σ → Except ε σ} {ok : Λ → σ → Prop} {I P : σ → Prop}
    (keep : ∀ l s s', I s → ok l s → step l s = .ok s' → I s') (implies : ∀ s, I s → P s)
    (breach : ∀ l s s', I s → step l s = .ok s' → ¬ ok l s → ¬ P s')
    {s : σ} {ls : List Λ} (inv : I s) : Along step P s ls ↔ Guarded step ok s ls := by
  refine ⟨fun along => ?_, along_of_guarded keep implies inv⟩
  induction ls generalizing s with
  | nil => exact trivial
  | cons l ls ih =>
    intro s' taken
    have rest := along.2 s' taken
    have met : ok l s := by
      by_contra unmet
      exact breach l s s' inv taken unmet rest.head
    exact ⟨met, ih (keep l s s' inv met taken) rest⟩

/-- Every step that the run of a word attempts, one that fails included, is attempted in a state that
meets `ok`. -/
def Attempted (step : Λ → σ → Except ε σ) (ok : Λ → σ → Prop) : σ → List Λ → Prop
  | _, [] => True
  | s, l :: ls => ok l s ∧ ∀ s', step l s = .ok s' → Attempted step ok s' ls

/-- Two guards that agree wherever an invariant holds, which one of them keeps, are met by the same
runs. -/
theorem attempted_iff {step : Λ → σ → Except ε σ} {ok ok' : Λ → σ → Prop} {I : σ → Prop}
    (keep : ∀ l s s', I s → ok l s → step l s = .ok s' → I s')
    (agree : ∀ l s, I s → (ok' l s ↔ ok l s)) {s : σ} {ls : List Λ} (inv : I s) :
    Attempted step ok' s ls ↔ Attempted step ok s ls := by
  induction ls generalizing s with
  | nil => exact Iff.rfl
  | cons l ls ih =>
    have rest : ok l s → ∀ s', step l s = .ok s' →
        (Attempted step ok' s' ls ↔ Attempted step ok s' ls) := fun met s' taken =>
      ih (keep l s s' inv met taken)
    constructor
    · intro all
      have met := (agree l s inv).mp all.1
      exact ⟨met, fun s' taken => (rest met s' taken).mp (all.2 s' taken)⟩
    · intro all
      exact ⟨(agree l s inv).mpr all.1, fun s' taken => (rest all.1 s' taken).mpr (all.2 s' taken)⟩

/-- The run of a word, one step after the other. -/
def follow (step : Λ → σ → Except ε σ) : σ → List Λ → Except ε σ
  | s, [] => .ok s
  | s, l :: ls =>
    match step l s with
    | .ok s' => follow step s' ls
    | .error e => .error e

/-- What holds along a run holds at its end. -/
theorem Along.follow {step : Λ → σ → Except ε σ} {P : σ → Prop} {s' : σ} :
    ∀ {ls : List Λ} {s : σ}, Along step P s ls → Run.follow step s ls = .ok s' → P s'
  | [], _, along, h => by
    cases h
    exact along
  | l :: ls, s, along, h => by
    unfold Run.follow at h
    split at h
    · exact (along.2 _ ‹_›).follow h
    · cases h

/-- The attempt after a run. -/
theorem Attempted.follow {step : Λ → σ → Except ε σ} {ok : Λ → σ → Prop} {l : Λ} {s' : σ} :
    ∀ {ls : List Λ} {s : σ}, Attempted step ok s (ls ++ [l]) → Run.follow step s ls = .ok s' → ok l s'
  | [], _, all, h => by
    cases h
    exact all.1
  | l :: ls, s, all, h => by
    unfold Run.follow at h
    split at h
    · exact (all.2 _ ‹_›).follow h
    · cases h

/-- The last step of a run, from the run without it. -/
theorem step_of_follow {step : Λ → σ → Except ε σ} {l : Λ} {s₁ s' : σ} :
    ∀ {ls : List Λ} {s : σ}, follow step s ls = .ok s₁ → follow step s (ls ++ [l]) = .ok s' →
      step l s₁ = .ok s'
  | [], s, h, k => by
    cases h
    rw [List.nil_append, follow] at k
    split at k
    · rename_i s₂ taken
      cases k
      exact taken
    · cases k
  | m :: ls, s, h, k => by
    rw [List.cons_append] at k
    unfold follow at h k
    split at h
    · rename_i s₂ taken
      rw [taken] at k
      exact step_of_follow h k
    · cases h

/-- A run whose every label meets the guard in every state stays among the reachable states. -/
theorem Reach.of_follow {step : Λ → σ → Except ε σ} {ok : Λ → σ → Prop} {s₀ s' : σ} :
    ∀ {ls : List Λ} {s : σ}, Reach step ok s₀ s → (∀ l ∈ ls, ∀ s, ok l s) →
      Run.follow step s ls = .ok s' → Reach step ok s₀ s'
  | [], _, reach, _, h => by
    cases h
    exact reach
  | l :: ls, s, reach, guard, h => by
    unfold Run.follow at h
    split at h
    · rename_i s₁ taken
      exact (reach.step (guard l List.mem_cons_self s) taken).of_follow
        (fun m hm => guard m (List.mem_cons_of_mem l hm)) h
    · cases h

/-- A run that succeeds is known from what is observed of its last state. -/
theorem follow_of_observed {α : Type} (step : Λ → σ → Except ε σ) (s : σ) (ls : List Λ)
    (observe : σ → α) (a : α) (h : (follow step s ls).toOption.map observe = some a) :
    ∃ s', follow step s ls = .ok s' ∧ observe s' = a := by
  cases run : follow step s ls with
  | error e =>
    rw [run] at h
    cases h
  | ok s' =>
    rw [run] at h
    exact ⟨s', rfl, Option.some.inj h⟩

end Run
