import Mathlib.Data.List.Basic

/-!
# Radix trees in a heap of tables

A table is named by a number and has an entry for every index of an arbitrary type `ι`. An entry is
a number, `0` for nothing, and `down e` names the table below the entry `e`. One tree hangs from
each root `root k`. A path lists indices from the deepest one up, so that what stands at `i :: p` is
entry `i` of the table below what stands at `p`; `slot` reads it, and is `0` below a `0`.

A program edits one slot at a time, of a tree or of its root. When the tables down to the depth in
question are different (`Apart`), and nothing hangs below the slot before and after, the edit changes
that slot and no other (`slot_store`, `slot_root`). Trees without empty tables and without leaves
are no trees (`slot_eq_zero_of_leaves`).
-/

namespace Radix

variable {ι κ : Type} (ent ent' : Nat → ι → Nat) (down : Nat → Nat) (root root' : κ → Nat)

/-- What stands at a path, `0` below a `0`. -/
def slot (k : κ) : List ι → Nat
  | [] => root k
  | i :: p => if slot k p = 0 then 0 else ent (down (slot k p)) i

/-- The tables above depth `d` are different. -/
def Apart (d : Nat) : Prop :=
  ∀ k p k' p', p.length < d → p'.length < d → slot ent down root k p ≠ 0 →
    slot ent down root k' p' ≠ 0 →
    down (slot ent down root k p) = down (slot ent down root k' p') → k = k' ∧ p = p'

variable {ent ent' down root root'} {k k' : κ} {p q : List ι} {i j : ι} {d : Nat}

theorem slot_cons (here : slot ent down root k p ≠ 0) :
    slot ent down root k (i :: p) = ent (down (slot ent down root k p)) i := by
  rw [slot, if_neg here]

theorem slot_cons_zero (here : slot ent down root k p = 0) :
    slot ent down root k (i :: p) = 0 := by
  rw [slot, if_pos here]

/-- What is above something is something. -/
theorem slot_above (here : slot ent down root k (i :: p) ≠ 0) : slot ent down root k p ≠ 0 := by
  intro zero
  exact here (slot_cons_zero zero)

theorem slot_suffix (part : q <:+ p) (here : slot ent down root k p ≠ 0) :
    slot ent down root k q ≠ 0 := by
  induction p with
  | nil =>
    rw [List.suffix_nil.mp part]
    exact here
  | cons i p ih =>
    rcases List.suffix_cons_iff.mp part with rfl | part
    · exact here
    · exact ih part (slot_above here)

/-- The slots down to depth `d` are read from the tables above it. -/
theorem slot_congr (roots : ∀ k, root' k = root k)
    (entries : ∀ k p, p.length < d → slot ent down root k p ≠ 0 → ∀ i,
      ent' (down (slot ent down root k p)) i = ent (down (slot ent down root k p)) i)
    (short : p.length ≤ d) : slot ent' down root' k p = slot ent down root k p := by
  induction p with
  | nil => exact roots k
  | cons i p ih =>
    have above := ih (Nat.le_of_succ_le short)
    rw [slot, slot, above]
    split
    · rfl
    · rename_i here
      exact entries k p short here i

/-- One entry of a table is set. Nothing hangs below it before and after. -/
theorem slot_store (apart : Apart ent down root d) (roots : ∀ k, root' k = root k)
    (here : slot ent down root k p ≠ 0) (short : p.length < d)
    (entries : ∀ k' q, q.length < d → slot ent down root k' q ≠ 0 → ∀ j,
      ¬ (down (slot ent down root k' q) = down (slot ent down root k p) ∧ j = i) →
      ent' (down (slot ent down root k' q)) j = ent (down (slot ent down root k' q)) j)
    (old : p.length + 1 < d → ∀ j, slot ent down root k (j :: i :: p) = 0)
    (new : p.length + 1 < d → ent' (down (slot ent down root k p)) i ≠ 0 →
      ∀ j, ent' (down (ent' (down (slot ent down root k p)) i)) j = 0) :
    slot ent' down root' k (i :: p) = ent' (down (slot ent down root k p)) i ∧
      ∀ k' q, q.length ≤ d → ¬ (k' = k ∧ q = i :: p) →
        slot ent' down root' k' q = slot ent down root k' q := by
  -- the two parts go down the paths together: an edited slot is read when the path goes through it
  have both : ∀ q k', q.length ≤ d →
      (k' = k ∧ q = i :: p → slot ent' down root' k' q = ent' (down (slot ent down root k p)) i) ∧
        (¬ (k' = k ∧ q = i :: p) → slot ent' down root' k' q = slot ent down root k' q) := by
    intro q
    induction q with
    | nil =>
      intro k' _
      refine ⟨fun same => (by cases same.2), fun _ => roots k'⟩
    | cons j q ih =>
      intro k' bound
      have shallow : q.length < d := bound
      obtain ⟨edited, same⟩ := ih k' (Nat.le_of_lt shallow)
      refine ⟨?_, fun ne => ?_⟩
      · rintro ⟨rfl, path⟩
        obtain ⟨rfl, rfl⟩ := List.cons.inj path
        have above := same fun loop => List.cons_ne_self j q loop.2.symm
        rw [← above] at here ⊢
        exact slot_cons here
      · by_cases through : k' = k ∧ q = i :: p
        · obtain ⟨rfl, rfl⟩ := through
          have value := edited ⟨rfl, rfl⟩
          rw [old shallow j, slot, value]
          split
          · rfl
          · rename_i nonzero
            exact new shallow nonzero j
        · have above := same through
          rw [slot, slot, above]
          split
          · rfl
          · rename_i there
            apply entries k' q shallow there
            rintro ⟨table, rfl⟩
            obtain ⟨rfl, rfl⟩ := apart k' q k p shallow short there here table
            exact ne ⟨rfl, rfl⟩
  refine ⟨(both (i :: p) k short).1 ⟨rfl, rfl⟩, fun k' q bound ne => (both q k' bound).2 ne⟩

/-- A root is set. Nothing hangs below it before and after. -/
theorem slot_root (others : ∀ k', k' ≠ k → root' k' = root k')
    (entries : ∀ k' q, q.length < d → slot ent down root k' q ≠ 0 → ¬ (k' = k ∧ q = []) → ∀ j,
      ent' (down (slot ent down root k' q)) j = ent (down (slot ent down root k' q)) j)
    (old : ∀ j, slot ent down root k [j] = 0) (new : root' k ≠ 0 → ∀ j, ent' (down (root' k)) j = 0)
    {q : List ι} (bound : q.length ≤ d) (ne : ¬ (k' = k ∧ q = [])) :
    slot ent' down root' k' q = slot ent down root k' q := by
  induction q with
  | nil => exact others k' fun same => ne ⟨same, rfl⟩
  | cons j q ih =>
    by_cases top : k' = k ∧ q = []
    · obtain ⟨rfl, rfl⟩ := top
      rw [old j, slot, slot]
      split
      · rfl
      · rename_i nonzero
        exact new nonzero j
    · have above := ih (Nat.le_of_succ_le bound) top
      rw [slot, slot, above]
      split
      · rfl
      · rename_i there
        exact entries k' q bound there top j

/-- Below every table of a tree without empty tables there is a leaf. -/
theorem exists_leaf
    (tight : ∀ p, p.length < d → slot ent down root k p ≠ 0 → ∃ i, slot ent down root k (i :: p) ≠ 0)
    (here : slot ent down root k p ≠ 0) (bound : p.length ≤ d) :
    ∃ v, v.length = d ∧ p <:+ v ∧ slot ent down root k v ≠ 0 := by
  generalize gap : d - p.length = n
  induction n generalizing p with
  | zero => exact ⟨p, by omega, List.suffix_refl p, here⟩
  | succ n ih =>
    obtain ⟨i, below⟩ := tight p (by omega) here
    have longer : (i :: p).length = p.length + 1 := rfl
    obtain ⟨v, long, part, leaf⟩ := ih below (by omega) (by omega)
    exact ⟨v, long, (List.suffix_cons i p).trans part, leaf⟩

/-- A tree without empty tables and without leaves is no tree. -/
theorem slot_eq_zero_of_leaves
    (tight : ∀ p, p.length < d → slot ent down root k p ≠ 0 → ∃ i, slot ent down root k (i :: p) ≠ 0)
    (leaves : ∀ p, p.length = d → slot ent down root k p = 0) (bound : p.length ≤ d) :
    slot ent down root k p = 0 := by
  by_contra here
  obtain ⟨v, long, _, leaf⟩ := exists_leaf tight here bound
  exact leaf (leaves v long)

end Radix
