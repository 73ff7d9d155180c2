import Mathlib.Data.List.Chain
import Mathlib.Data.List.Nodup

/-!
# Circular doubly linked lists

A ring is read off two link fields, `next` and `prev`, each a partial function on nodes. `IsRing
next prev c qs` says that following `next` from `c` visits `qs` in order and comes back to `c`,
that `prev` undoes every one of those links, and that no node is visited twice. Three edits of a
ring are local: a node linked in after the head (`IsRing.insert`), the head unlinked
(`IsRing.remove`), and the head moved one node on (`IsRing.rotate`). Each edit is stated by what
the new link fields say at the touched nodes and by their agreement everywhere else, so it does
not matter in which order a program writes them.
-/

namespace Ring

variable {α : Type}

/-- One link, both ways. -/
def Link (next prev : α → Option α) (x y : α) : Prop := next x = some y ∧ prev y = some x

/-- The ring through `c` whose other nodes are `qs`, in `next` order. -/
structure IsRing (next prev : α → Option α) (c : α) (qs : List α) : Prop where
  links : (c :: (qs ++ [c])).IsChain (Link next prev)
  nodup : (c :: qs).Nodup

/-- A chain survives a change of relation that agrees on its consecutive pairs. -/
theorem isChain_of_pairs {R S : α → α → Prop} {l : List α} (chain : l.IsChain R)
    (agree : ∀ l₁ a b l₂, l = l₁ ++ a :: b :: l₂ → R a b → S a b) : l.IsChain S := by
  rw [List.isChain_iff_forall_rel_of_append_cons_cons] at chain ⊢
  intro a b l₁ l₂ split
  exact agree l₁ a b l₂ split (chain split)

/-- The first node of a consecutive pair is not the last node of the list. -/
theorem mem_of_pair_append {l l₁ l₂ : List α} {a b c : α} (split : l ++ [c] = l₁ ++ a :: b :: l₂) :
    a ∈ l := by
  rcases List.eq_nil_or_concat l₂ with rfl | ⟨init, last, rfl⟩
  · have same : l ++ [c] = (l₁ ++ [a]) ++ [b] := by simpa using split
    rw [(List.append_inj' same rfl).1]
    simp
  · have same : l ++ [c] = (l₁ ++ a :: b :: init) ++ [last] := by simpa using split
    rw [(List.append_inj' same rfl).1]
    simp

/-- The second node of a consecutive pair is not the first node of the list. -/
theorem mem_of_pair_cons {l l₁ l₂ : List α} {a b c : α} (split : c :: l = l₁ ++ a :: b :: l₂) :
    b ∈ l := by
  cases l₁ with
  | nil =>
    have tail : l = b :: l₂ := (List.cons.inj split).2
    rw [tail]
    exact List.mem_cons_self
  | cons d rest =>
    have tail : l = rest ++ a :: b :: l₂ := (List.cons.inj split).2
    rw [tail]
    simp

theorem IsRing.next_self {next prev : α → Option α} {c : α} (ring : IsRing next prev c []) :
    next c = some c := by
  have := ring.links
  simp only [List.nil_append, List.isChain_cons_cons, Link] at this
  exact this.1.1

theorem IsRing.next_head {next prev : α → Option α} {c q : α} {qs : List α}
    (ring : IsRing next prev c (q :: qs)) : next c = some q := by
  have := ring.links
  simp only [List.cons_append, List.isChain_cons_cons, Link] at this
  exact this.1.1

/-- Every node of a ring has a next node on the ring. -/
theorem IsRing.next_of_mem {next prev : α → Option α} {c x : α} {qs : List α}
    (ring : IsRing next prev c qs) (mem : x ∈ c :: qs) : ∃ y ∈ c :: qs, next x = some y := by
  obtain ⟨l₁, l₂, split⟩ := List.append_of_mem mem
  have chain := ring.links
  rw [← List.cons_append, split] at chain
  cases l₂ with
  | nil =>
    rw [List.append_assoc] at chain
    have link := (List.isChain_append_cons_cons.mp chain).2.1
    exact ⟨c, List.mem_cons_self, link.1⟩
  | cons y rest =>
    rw [List.append_assoc] at chain
    have link := (List.isChain_append_cons_cons.mp chain).2.1
    refine ⟨y, ?_, link.1⟩
    rw [split]
    simp

/-- The node after the one at place `j` is at the next place, the head coming after the last. -/
theorem IsRing.next_getElem? {next prev : α → Option α} {c x : α} {qs : List α} {j : Nat}
    (ring : IsRing next prev c qs) (here : (c :: qs)[j]? = some x) :
    ∃ y, (c :: qs)[(j + 1) % (qs.length + 1)]? = some y ∧ Link next prev x y := by
  obtain ⟨lt, rfl⟩ := List.getElem?_eq_some_iff.mp here
  rw [List.length_cons] at lt
  have link := ring.links.getElem j (by simpa using lt)
  simp only [← List.cons_append] at link
  rw [List.getElem_append_left (by simpa using lt)] at link
  by_cases last : j + 1 < qs.length + 1
  · rw [List.getElem_append_left (by simpa using last)] at link
    refine ⟨_, ?_, link⟩
    rw [Nat.mod_eq_of_lt last, List.getElem?_eq_getElem (by simpa using last)]
  · have end_ : j + 1 = qs.length + 1 := by omega
    rw [List.getElem_append_right (by simp; omega)] at link
    refine ⟨c, ?_, by simpa using link⟩
    rw [end_, Nat.mod_self]
    rfl

/-- The head has a node before it, the last one. -/
theorem IsRing.prev_mem {next prev : α → Option α} {c : α} {qs : List α}
    (ring : IsRing next prev c qs) : ∃ x ∈ c :: qs, prev c = some x := by
  have last : (c :: qs)[qs.length]? = some ((c :: qs)[qs.length]) := List.getElem?_eq_getElem _
  obtain ⟨y, here, link⟩ := ring.next_getElem? last
  rw [Nat.mod_self] at here
  obtain rfl : c = y := Option.some.inj here
  exact ⟨_, List.getElem_mem _, link.2⟩

/-- The links of a ring read only its own nodes. -/
theorem IsRing.congr {next prev next' prev' : α → Option α} {c : α} {qs : List α}
    (ring : IsRing next prev c qs) (nexts : ∀ x ∈ c :: qs, next' x = next x)
    (prevs : ∀ x ∈ c :: qs, prev' x = prev x) : IsRing next' prev' c qs := by
  refine ⟨isChain_of_pairs ring.links fun l₁ a b l₂ split link => ?_, ring.nodup⟩
  have ha : a ∈ c :: qs := mem_of_pair_append (l := c :: qs) (by simpa using split)
  have hb : b ∈ qs ++ [c] := mem_of_pair_cons split
  refine ⟨(nexts a ha).trans link.1, (prevs b ?_).trans link.2⟩
  rcases List.mem_append.mp hb with hb | hb
  · exact List.mem_cons_of_mem _ hb
  · rw [List.mem_singleton.mp hb]
    exact List.mem_cons_self

/-- **Link a node in after the head.** `z` is the node the head pointed to: the head itself in a
ring of one. -/
theorem IsRing.insert {next prev next' prev' : α → Option α} {c x z : α} {qs : List α}
    (ring : IsRing next prev c qs) (fresh : x ∉ c :: qs) (old : next c = some z)
    (nextHead : next' c = some x) (nextNew : next' x = some z) (prevNew : prev' x = some c)
    (prevOld : prev' z = some x) (nexts : ∀ y, y ≠ c → y ≠ x → next' y = next y)
    (prevs : ∀ y, y ≠ z → y ≠ x → prev' y = prev y) : IsRing next' prev' c (x :: qs) := by
  obtain ⟨rest, tail⟩ : ∃ rest, qs ++ [c] = z :: rest := by
    cases qs with
    | nil =>
      have := ring.next_self.symm.trans old
      exact ⟨[], by simpa using this⟩
    | cons q qs =>
      have := ring.next_head.symm.trans old
      exact ⟨qs ++ [c], by simpa using this⟩
  have chain := ring.links
  rw [tail, List.isChain_cons_cons] at chain
  have unique : (qs ++ [c]).Nodup := by
    have := ring.nodup
    rw [List.nodup_append_comm]
    simpa using this
  constructor
  · rw [List.cons_append, tail, List.isChain_cons_cons, List.isChain_cons_cons]
    refine ⟨⟨nextHead, prevNew⟩, ⟨nextNew, prevOld⟩, ?_⟩
    refine isChain_of_pairs chain.2 fun l₁ a b l₂ split link => ?_
    have ha : a ∈ qs := mem_of_pair_append (tail.trans split)
    have hb : b ∈ rest := mem_of_pair_cons split
    have bz : b ≠ z := by
      rw [tail] at unique
      rintro rfl
      exact (List.nodup_cons.mp unique).1 hb
    have bmem : b ∈ qs ++ [c] := by rw [tail]; exact List.mem_cons_of_mem _ hb
    have bx : b ≠ x := by
      rintro rfl
      apply fresh
      rcases List.mem_append.mp bmem with h | h
      · exact List.mem_cons_of_mem _ h
      · rw [List.mem_singleton.mp h]
        exact List.mem_cons_self
    have ac : a ≠ c := by
      rintro rfl
      exact (List.nodup_cons.mp ring.nodup).1 ha
    have ax : a ≠ x := by
      rintro rfl
      exact fresh (List.mem_cons_of_mem _ ha)
    exact ⟨(nexts a ac ax).trans link.1, (prevs b bz bx).trans link.2⟩
  · have := List.nodup_cons.mp ring.nodup
    have xc : x ≠ c := fun h => fresh (h ▸ List.mem_cons_self)
    have xqs : x ∉ qs := fun h => fresh (List.mem_cons_of_mem _ h)
    refine List.nodup_cons.mpr ⟨?_, List.nodup_cons.mpr ⟨xqs, this.2⟩⟩
    rw [List.mem_cons, not_or]
    exact ⟨xc.symm, this.1⟩

/-- The head's `prev` is the last node of the ring. -/
theorem IsRing.prev_head {next prev : α → Option α} {c q : α} {qs : List α}
    (ring : IsRing next prev c (q :: qs)) :
    ∃ init last, q :: qs = init ++ [last] ∧ prev c = some last ∧ next last = some c := by
  rcases List.eq_nil_or_concat (q :: qs) with nil | ⟨init, last, split⟩
  · cases nil
  · rw [List.concat_eq_append] at split
    refine ⟨init, last, split, ?_⟩
    have chain := ring.links
    have regroup : c :: (q :: qs ++ [c]) = (c :: init) ++ last :: c :: [] := by
      rw [split]
      simp
    rw [regroup, List.isChain_append_cons_cons] at chain
    exact ⟨chain.2.1.2, chain.2.1.1⟩

/-- **Unlink the head** of a ring of two or more: the last node is linked to the second. -/
theorem IsRing.remove {next prev next' prev' : α → Option α} {c q last : α} {qs : List α}
    (ring : IsRing next prev c (q :: qs)) (old : prev c = some last)
    (nextLast : next' last = some q) (prevSecond : prev' q = some last)
    (nexts : ∀ y, y ≠ last → y ≠ c → next' y = next y)
    (prevs : ∀ y, y ≠ q → y ≠ c → prev' y = prev y) : IsRing next' prev' q qs := by
  obtain ⟨init, last', split, back, _⟩ := ring.prev_head
  obtain rfl : last = last' := Option.some.inj (old.symm.trans back)
  have unique := List.nodup_cons.mp ring.nodup
  have chain : (q :: qs).IsChain (Link next prev) := by
    have := ring.links.tail
    rw [List.tail_cons] at this
    exact this.left_of_append
  refine ⟨?_, unique.2⟩
  have regroup : q :: (qs ++ [q]) = init ++ last :: q :: [] := by
    rw [← List.cons_append, split]
    simp
  rw [regroup, List.isChain_append_cons_cons]
  refine ⟨?_, ⟨nextLast, prevSecond⟩, List.isChain_singleton _⟩
  rw [← split]
  refine isChain_of_pairs chain fun l₁ a b l₂ pair link => ?_
  have ha : a ∈ init := mem_of_pair_append (split.symm.trans pair)
  have hb : b ∈ qs := mem_of_pair_cons pair
  have distinct : (init ++ [last]).Nodup := split ▸ unique.2
  have alast : a ≠ last := by
    rintro rfl
    rw [List.nodup_append_comm] at distinct
    exact (List.nodup_cons.mp distinct).1 ha
  have ac : a ≠ c := by
    rintro rfl
    exact unique.1 (split ▸ List.mem_append_left _ ha)
  have bq : b ≠ q := by
    rintro rfl
    exact (List.nodup_cons.mp unique.2).1 hb
  have bc : b ≠ c := by
    rintro rfl
    exact unique.1 (List.mem_cons_of_mem _ hb)
  exact ⟨(nexts a alast ac).trans link.1, (prevs b bq bc).trans link.2⟩

/-- **Move the head on by one**: the same ring, read from its second node. -/
theorem IsRing.rotate {next prev : α → Option α} {c q : α} {qs : List α}
    (ring : IsRing next prev c (q :: qs)) : IsRing next prev q (qs ++ [c]) := by
  have chain := ring.links
  rw [List.cons_append, List.isChain_cons_cons] at chain
  constructor
  · rw [List.append_assoc, ← List.cons_append, List.singleton_append,
      List.isChain_append_cons_cons]
    exact ⟨chain.2, chain.1, List.isChain_singleton _⟩
  · have := ring.nodup
    rw [← List.cons_append, List.nodup_append_comm]
    exact this

/-- The two-way membership of a rotated ring. -/
theorem mem_rotate {c q x : α} {qs : List α} : x ∈ q :: (qs ++ [c]) ↔ x ∈ c :: q :: qs := by
  simp only [List.mem_cons, List.mem_append, List.not_mem_nil, or_false]
  tauto

/-- What `next` visits until it comes back is one list. -/
theorem chain_unique {next prev : α → Option α} {c : α} : ∀ {x : α} {l l' : List α},
    (x :: (l ++ [c])).IsChain (Link next prev) → (x :: (l' ++ [c])).IsChain (Link next prev) →
    c ∉ l → c ∉ l' → l = l'
  | _, [], [], _, _, _, _ => rfl
  | x, [], z :: l', one, two, _, out' => by
    rw [List.nil_append, List.isChain_cons_cons] at one
    rw [List.cons_append, List.isChain_cons_cons] at two
    obtain rfl : c = z := Option.some.inj (one.1.1.symm.trans two.1.1)
    exact absurd List.mem_cons_self out'
  | x, y :: l, [], one, two, out, _ => by
    rw [List.cons_append, List.isChain_cons_cons] at one
    rw [List.nil_append, List.isChain_cons_cons] at two
    obtain rfl : c = y := Option.some.inj (two.1.1.symm.trans one.1.1)
    exact absurd List.mem_cons_self out
  | x, y :: l, z :: l', one, two, out, out' => by
    rw [List.cons_append, List.isChain_cons_cons] at one two
    obtain rfl : y = z := Option.some.inj (one.1.1.symm.trans two.1.1)
    rw [List.mem_cons, not_or] at out out'
    rw [chain_unique one.2 two.2 out.2 out'.2]

/-- The links determine the ring. -/
theorem IsRing.unique {next prev : α → Option α} {c : α} {qs qs' : List α}
    (ring : IsRing next prev c qs) (ring' : IsRing next prev c qs') : qs = qs' :=
  chain_unique ring.links ring'.links (List.nodup_cons.mp ring.nodup).1
    (List.nodup_cons.mp ring'.nodup).1

end Ring
