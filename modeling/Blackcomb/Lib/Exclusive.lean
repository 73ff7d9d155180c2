import Mathlib.Data.List.Nodup

/-!
# Exclusive ownership

Roles of an arbitrary type hold resources of an arbitrary type, one each or none, and some of the
resources are handed out. `Exclusive held taken` says that what is handed out has exactly one holder
and what is held is handed out. A program that hands out, takes back or passes on one resource at a
time keeps it: `gain`, `lose` and `pass`.
-/

namespace Ownership

variable {ρ α : Type} {held held' : ρ → Option α} {taken : List α} {r q : ρ} {f : α}

/-- What is handed out has exactly one holder, and what is held is handed out. -/
structure Exclusive (held : ρ → Option α) (taken : List α) : Prop where
  handed : ∀ r f, held r = some f → f ∈ taken
  holder : ∀ f ∈ taken, ∃ r, held r = some f
  unique : ∀ r q f, held r = some f → held q = some f → r = q

namespace Exclusive

/-- Only what the roles hold matters. -/
theorem congr (own : Exclusive held taken) (same : ∀ r, held' r = held r) :
    Exclusive held' taken := by
  obtain rfl : held' = held := funext same
  exact own

/-- A resource handed out to a role that had none. -/
theorem gain (own : Exclusive held taken) (fresh : f ∉ taken) (now : held' r = some f)
    (others : ∀ q, q ≠ r → held' q = held q) (none : held r = .none) :
    Exclusive held' (f :: taken) := by
  have back : ∀ {q g}, held' q = some g → q = r ∧ g = f ∨ held q = some g := by
    intro q g holds
    by_cases same : q = r
    · rw [same, now] at holds
      exact .inl ⟨same, (Option.some.inj holds).symm⟩
    · rw [others q same] at holds
      exact .inr holds
  refine ⟨fun q g holds => ?_, fun g mem => ?_, fun q p g left right => ?_⟩
  · rcases back holds with ⟨_, rfl⟩ | holds
    · exact List.mem_cons_self
    · exact List.mem_cons_of_mem f (own.handed q g holds)
  · rcases List.mem_cons.mp mem with rfl | mem
    · exact ⟨r, now⟩
    · obtain ⟨q, holds⟩ := own.holder g mem
      refine ⟨q, (others q ?_).trans holds⟩
      intro same
      rw [same, none] at holds
      cases holds
  · rcases back left with ⟨rfl, rfl⟩ | left
    · rcases back right with ⟨rfl, _⟩ | right
      · rfl
      · exact absurd (own.handed p g right) fresh
    · rcases back right with ⟨_, rfl⟩ | right
      · exact absurd (own.handed q g left) fresh
      · exact own.unique q p g left right

/-- A resource taken back from its holder. -/
theorem lose [DecidableEq α] (own : Exclusive held taken) (nodup : taken.Nodup)
    (was : held r = some f) (others : ∀ q, q ≠ r → held' q = held q) (none : held' r = .none) :
    Exclusive held' (taken.erase f) := by
  have back : ∀ {q g}, held' q = some g → q ≠ r ∧ held q = some g := by
    intro q g holds
    by_cases same : q = r
    · rw [same, none] at holds
      cases holds
    · exact ⟨same, (others q same) ▸ holds⟩
  refine ⟨fun q g holds => ?_, fun g mem => ?_, fun q p g left right => ?_⟩
  · obtain ⟨ne, holds⟩ := back holds
    rw [nodup.mem_erase_iff]
    refine ⟨?_, own.handed q g holds⟩
    rintro rfl
    exact ne (own.unique q r g holds was)
  · rw [nodup.mem_erase_iff] at mem
    obtain ⟨q, holds⟩ := own.holder g mem.2
    refine ⟨q, (others q ?_).trans holds⟩
    rintro rfl
    rw [was] at holds
    exact mem.1 (Option.some.inj holds).symm
  · exact own.unique q p g (back left).2 (back right).2

/-- A resource passed on from its holder `r` to a role `q` that had none. -/
theorem pass (own : Exclusive held taken) (was : held r = some f) (gone : held' r = .none)
    (none : held q = .none) (now : held' q = some f)
    (others : ∀ p, p ≠ r → p ≠ q → held' p = held p) : Exclusive held' taken := by
  have ne : q ≠ r := by
    rintro rfl
    rw [was] at none
    cases none
  have back : ∀ {p g}, held' p = some g → p = q ∧ g = f ∨ p ≠ r ∧ held p = some g := by
    intro p g holds
    by_cases here : p = q
    · rw [here, now] at holds
      exact .inl ⟨here, (Option.some.inj holds).symm⟩
    · by_cases there : p = r
      · rw [there, gone] at holds
        cases holds
      · exact .inr ⟨there, (others p there here) ▸ holds⟩
  refine ⟨fun p g holds => ?_, fun g mem => ?_, fun p p' g left right => ?_⟩
  · rcases back holds with ⟨_, rfl⟩ | ⟨_, holds⟩
    · exact own.handed r g was
    · exact own.handed p g holds
  · obtain ⟨p, holds⟩ := own.holder g mem
    by_cases there : p = r
    · rw [there, was] at holds
      exact ⟨q, now.trans holds⟩
    · refine ⟨p, (others p there ?_).trans holds⟩
      rintro rfl
      rw [none] at holds
      cases holds
  · rcases back left with ⟨rfl, rfl⟩ | ⟨leftNe, left⟩
    · rcases back right with ⟨rfl, _⟩ | ⟨rightNe, right⟩
      · rfl
      · exact absurd (own.unique p' r g right was) rightNe
    · rcases back right with ⟨rfl, rfl⟩ | ⟨_, right⟩
      · exact absurd (own.unique p r g left was) leftNe
      · exact own.unique p p' g left right

end Exclusive

end Ownership
