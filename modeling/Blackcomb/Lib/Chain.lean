import Mathlib.Data.List.Basic

/-!
# Doubly linked lists

Nodes of an arbitrary type with a forward link `nx` and a backward link `pv`. What a link holds is
the code of a node or of nothing, `enc`: an optional node, an address with a null among the
addresses. `Seg enc nx pv p xs n` says that the nodes `xs` are linked in this order, entered from `p`
and left to `n`. A whole list is the segment from `none` to `none`. Segments split and join at any
node (`seg_append`); an edit of a program changes the links of few nodes, and the segments away from
it move along by `Seg.congr`, the one behind it by `Seg.relink`.
-/

namespace Chain

variable {α β : Type} {enc : Option α → β} {nx pv nx' pv' : α → β} {p p' n : Option α}
  {xs ys : List α}

/-- The nodes are linked both ways in order, entered from `p` and left to `n`. -/
def Seg (enc : Option α → β) (nx pv : α → β) : Option α → List α → Option α → Prop
  | _, [], _ => True
  | p, x :: xs, n => pv x = enc p ∧ nx x = enc (xs.head?.or n) ∧ Seg enc nx pv (some x) xs n

/-- A segment of a concatenation is two segments that meet at the seam. -/
theorem seg_append :
    Seg enc nx pv p (xs ++ ys) n ↔
      Seg enc nx pv p xs (ys.head?.or n) ∧ Seg enc nx pv (xs.getLast?.or p) ys n := by
  induction xs generalizing p with
  | nil => simp [Seg]
  | cons x xs ih =>
    have seam : (xs ++ ys).head?.or n = xs.head?.or (ys.head?.or n) := by
      cases xs <;> simp
    have last : (x :: xs).getLast?.or p = xs.getLast?.or (some x) := by
      rw [List.getLast?_cons]
      cases xs.getLast? <;> simp
    rw [List.cons_append, Seg, Seg, ih, seam, last]
    constructor
    · intro ⟨back, forth, here, rest⟩
      exact ⟨⟨back, forth, here⟩, rest⟩
    · intro ⟨⟨back, forth, here⟩, rest⟩
      exact ⟨back, forth, here, rest⟩

/-- A segment reads only the links of its nodes. -/
theorem Seg.congr (seg : Seg enc nx pv p xs n)
    (same : ∀ x ∈ xs, nx' x = nx x ∧ pv' x = pv x) : Seg enc nx' pv' p xs n := by
  induction xs generalizing p with
  | nil => exact trivial
  | cons x xs ih =>
    have here := same x List.mem_cons_self
    refine ⟨here.2.trans seg.1, here.1.trans seg.2.1, ih seg.2.2 ?_⟩
    exact fun y hy => same y (List.mem_cons_of_mem x hy)

/-- A segment left to another node of the same code. -/
theorem Seg.leave {n' : Option α} (seg : Seg enc nx pv p xs n) (same : enc n = enc n') :
    Seg enc nx pv p xs n' := by
  induction xs generalizing p with
  | nil => exact trivial
  | cons x xs ih =>
    refine ⟨seg.1, ?_, ih seg.2.2⟩
    cases xs with
    | nil => exact seg.2.1.trans same
    | cons y ys => exact seg.2.1

/-- A segment entered from elsewhere: the links of its nodes stay, but the backward link of the
first. -/
theorem Seg.relink (seg : Seg enc nx pv p xs n) (nodup : xs.Nodup)
    (forth : ∀ x ∈ xs, nx' x = nx x) (back : ∀ x ∈ xs, xs.head? ≠ some x → pv' x = pv x)
    (head : ∀ x, xs.head? = some x → pv' x = enc p') : Seg enc nx' pv' p' xs n := by
  cases xs with
  | nil => exact trivial
  | cons x xs =>
    refine ⟨head x rfl, (forth x List.mem_cons_self).trans seg.2.1, seg.2.2.congr ?_⟩
    intro y hy
    refine ⟨forth y (List.mem_cons_of_mem x hy), back y (List.mem_cons_of_mem x hy) ?_⟩
    intro same
    obtain rfl : x = y := Option.some.inj same
    exact (List.nodup_cons.mp nodup).1 hy

end Chain
