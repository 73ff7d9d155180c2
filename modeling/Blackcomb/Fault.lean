import Mathlib.Tactic.Common

/-!
# How kernel code fails to return

A modelled function that can fail answers `Except Fault`. A failed call has no next state: `panic`
stops in its endless loop, and the other three are behaviours the C text gives no meaning to or
never finishes.
-/

namespace Blackcomb

/-- The ways a call does not return. -/
inductive Fault
  /-- `panic(msg)`: print and loop forever. -/
  | panic (msg : String)
  /-- A pointer that names no object was followed. -/
  | badPointer
  /-- The C text has no meaning here: an `int` overflow, an index outside its array. -/
  | undefined
  /-- A list walk ran past the number of nodes that exist. -/
  | diverge
  deriving DecidableEq, Repr

/-- A computation that binds and returns has run its first part. -/
theorem bind_eq_ok {α β : Type} {x : Except Fault α} {f : α → Except Fault β} {b : β} :
    x >>= f = .ok b ↔ ∃ a, x = .ok a ∧ f a = .ok b := by
  cases x with
  | error e =>
    refine ⟨fun h => (by cases h), ?_⟩
    rintro ⟨a, ha, _⟩
    cases ha
  | ok a =>
    refine ⟨fun h => ⟨a, rfl, h⟩, ?_⟩
    rintro ⟨a', ha, h⟩
    cases ha
    exact h

/-- A first part that returns is replaced by its value. -/
@[simp] theorem ok_bind {α β : Type} (a : α) (f : α → Except Fault β) : (.ok a >>= f) = f a := rfl

@[simp] theorem error_bind {α β : Type} (e : Fault) (f : α → Except Fault β) :
    (.error e >>= f) = .error e := rfl

@[simp] theorem pure_eq_ok {α : Type} (a : α) : (pure a : Except Fault α) = .ok a := rfl

end Blackcomb
