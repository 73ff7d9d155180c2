import Mathlib.Data.List.Chain
import Blackcomb.Laws.Mm.Blocks

/-!
# What kmalloc and free do to the list of blocks

One law per function of `kmalloc.c`. A block is marked, cut in two, joined with its neighbour, or
added at the end; `kmalloc_spec` and `free_spec` put these together and are all that the rest of the
development reads.

**What it does not establish.** The heap is one that the list describes. What the walk does on
overwritten headers is left open.
-/

namespace Blackcomb.Mm

open Memory Chain

/-- Without overflow the sum is the sum. -/
theorem add64_eq {a b : Nat} (fits : a + b < 2 ^ 64) : add64 a b = a + b :=
  Nat.mod_eq_of_lt fits

/-- Without borrow the difference is the difference. -/
theorem sub64_eq {a b : Nat} (le : b ≤ a) (fits : a < 2 ^ 64) : sub64 a b = a - b := by
  unfold sub64
  omega

variable {h h' : Heap} {xs ys bs : List Block} {a b : Block}

/-- Reading past `if (next) next->prev = v`. -/
theorem get_setPrevOf {h : Heap} {f : Field} {next v c : Nat} (fits : v < 2 ^ 64)
    (place : next = 0 ∨ c = next ∨ next + 32 ≤ c ∨ c + 32 ≤ next) :
    (setPrevOf h next v).get f c = if next ≠ 0 ∧ c = next ∧ f = .prev then v else h.get f c := by
  unfold setPrevOf
  by_cases zero : next = 0
  · simp [zero]
  · by_cases same : c = next
    · subst same
      rw [if_pos zero, Heap.get_set_same]
      by_cases e : f = .prev
      · rw [if_pos e, if_pos ⟨zero, rfl, e⟩]
        exact Nat.mod_eq_of_lt fits
      · rw [if_neg e, if_neg fun all => e all.2.2]
    · rw [if_pos zero, Heap.get_set_apart (by omega)]
      simp [same]

/-- Reading a header that `if (next) next->prev = v` does not reach. -/
theorem get_setPrevOf_apart {h : Heap} {f : Field} {next v c : Nat}
    (apart : next = 0 ∨ next + 32 ≤ c ∨ c + 32 ≤ next) :
    (setPrevOf h next v).get f c = h.get f c := by
  unfold setPrevOf
  split
  · exact Heap.get_set_apart (by omega)
  · rfl

@[simp] theorem setPrevOf_heapBase (h : Heap) (next v : Nat) :
    (setPrevOf h next v).heapBase = h.heapBase := by
  unfold setPrevOf
  split <;> rfl

@[simp] theorem setPrevOf_kernelBrk (h : Heap) (next v : Nat) :
    (setPrevOf h next v).kernelBrk = h.kernelBrk := by
  unfold setPrevOf
  split <;> rfl

/-- Linking back touches the next block's header, if there is a next block. -/
theorem touches_setPrevOf {h : Heap} {next v : Nat} {headers : List Nat}
    (hn : next ≠ 0 → next ∈ headers) : Touches headers h (setPrevOf h next v) := by
  unfold setPrevOf
  split
  · exact touches_set (hn ‹_›)
  · exact fun _ _ => rfl

/-- The link to the first of the blocks behind is `NULL` or an address behind. -/
theorem link_head {m : Nat} (behind : ∀ y ∈ ys, m ≤ y.addr) :
    link ys.head? = 0 ∨ m ≤ link ys.head? := by
  cases ys with
  | nil => exact .inl rfl
  | cons y ys => exact .inr (behind y List.mem_cons_self)

/-- The next block is one of the blocks. -/
theorem link_head_mem (ne : link ys.head? ≠ 0) : link ys.head? ∈ ys.map Block.addr := by
  cases ys with
  | nil => exact absurd rfl ne
  | cons y ys => exact List.mem_cons_self

namespace Rep

/-- A free block's flag is zero in memory. -/
theorem inUse_eq_zero (rep : Rep h bs) (hb : b ∈ bs) :
    h.get .inUse b.addr = 0 ↔ b.used = false := by
  have := (rep.headers b hb).used
  cases used : b.used <;> simp [used] at this ⊢ <;> exact this

/-- The `prev` field of the first block behind. -/
theorem back (rep : Rep h (xs ++ [b] ++ ys)) (ne : link ys.head? ≠ 0) :
    h.get .prev (link ys.head?) = b.addr := by
  cases ys with
  | nil => exact absurd rfl ne
  | cons y ys =>
    have split : xs ++ [b] ++ y :: ys = (xs ++ [b]) ++ [y] ++ ys := by simp
    rw [split] at rep
    have := rep.neighbours.2
    simpa [link] using this

/-- Assigning `in_use` marks the block. -/
theorem mark (rep : Rep h (xs ++ [b] ++ ys)) {v : Nat} (fits : v < 2 ^ 32) :
    Rep (h.set .inUse b.addr v) (xs ++ [{ b with used := decide (v ≠ 0) }] ++ ys) := by
  have hb : b ∈ xs ++ [b] ++ ys := by simp
  obtain ⟨left, _, right, _⟩ := rep.apart
  simp only [List.mem_singleton, forall_eq] at left right
  obtain ⟨next, prev⟩ := rep.neighbours
  have stored : (h.set .inUse b.addr v).get .inUse b.addr = v := by
    rw [Heap.get_set_same, if_pos rfl]
    exact Nat.mod_eq_of_lt fits
  refine rep.replace rfl rfl rfl (by simp) (by simp) left right ?_ ?_ ?_ ?_
  · exact fun _ _ tiles => tiles
  · intro f c place _
    simp only [Block.stop, sizeofBlock] at place
    rw [Heap.get_set_apart (by omega)]
    split
    · rename_i here
      obtain ⟨ne, rfl, rfl⟩ := here
      exact rep.back ne
    · rfl
  · intro w hw
    obtain rfl := List.mem_singleton.mp hw
    constructor
    · simpa [Heap.get_set_same] using (rep.headers b hb).size
    · simp [stored]
  · refine ⟨?_, ?_, trivial⟩
    · simpa [Heap.prevOf, Heap.get_set_same] using prev
    · simpa [Heap.nextOf, Heap.get_set_same] using next

end Rep

/-! ## Cutting -/

/-- The two blocks that `split_block` makes of one. -/
def cut (n : Nat) (b : Block) (used : Bool) : List Block :=
  [⟨b.addr, n, used⟩, ⟨b.addr + 32 + n, b.size - n - 32, false⟩]

/-- `split_block` cuts a free block with room for another header and payload. -/
theorem splitBlock_spec {n : Nat} (rep : Rep h (xs ++ [b] ++ ys)) (unused : b.used = false)
    (pos : 0 < n) (room : n + 32 < b.size) : ∃ h', splitBlock h n b.addr = (b.addr, h') ∧
      Rep h' (xs ++ cut n b false ++ ys) ∧ Touches ((xs ++ cut n b false ++ ys).map Block.addr) h h' := by
  have hb : b ∈ xs ++ [b] ++ ys := by simp
  obtain ⟨low, _, high, top⟩ := rep.bounds hb
  obtain ⟨left, _, right, _⟩ := rep.apart
  simp only [List.mem_singleton, forall_eq] at left right
  have size := (rep.headers b hb).size
  have flag := (rep.inUse_eq_zero hb).mpr unused
  obtain ⟨next, prev⟩ := rep.neighbours
  have above : link ys.head? = 0 ∨ b.addr + 32 + b.size ≤ link ys.head? := link_head right
  have linkLt : link ys.head? < 2 ^ 64 := next ▸ h.get_lt .next b.addr
  have less : ¬ sub64 b.size n ≤ sizeofBlock := by
    rw [sub64_eq (by omega) (by omega), sizeofBlock]
    omega
  have new : add64 (add64 b.addr sizeofBlock) n = b.addr + 32 + n := by
    rw [sizeofBlock, add64_eq (a := b.addr) (by omega), add64_eq (by omega)]
  have rest : sub64 (sub64 b.size n) sizeofBlock = b.size - n - 32 := by
    rw [sizeofBlock, sub64_eq (a := b.size) (by omega) (by omega), sub64_eq (by omega) (by omega)]
  unfold splitBlock
  rw [size, if_neg less, new, rest]
  refine ⟨_, rfl, rep.replace ?_ ?_ rfl (by simp) (by simp [cut]) left right ?_ ?_ ?_ ?_, ?_⟩
  · simp
  · simp
  · intro s e tiles
    simp only [Tiles, cut, Block.stop, sizeofBlock] at tiles ⊢
    exact ⟨tiles.1, pos, trivial, by omega, by omega⟩
  · intro f c place near
    simp only [Block.stop, sizeofBlock] at place
    simp (disch := omega) only [Heap.get_set_apart, get_setPrevOf, Heap.get_set_same, next,
      reduceCtorEq, if_false]
    rfl
  · intro w hw
    simp only [cut, List.mem_cons, List.not_mem_nil, or_false] at hw
    rcases hw with rfl | rfl
    · constructor
      · simp (disch := omega) [Heap.get_set_apart, get_setPrevOf_apart, Heap.get_set_same,
          Field.width, next]
        omega
      · simp (disch := omega) [Heap.get_set_apart, get_setPrevOf_apart, Heap.get_set_same, next,
          flag]
    · constructor
      · simp (disch := omega) [Heap.get_set_apart, get_setPrevOf_apart, Heap.get_set_same,
          Field.width, next]
        omega
      · simp (disch := omega) [Heap.get_set_apart, get_setPrevOf_apart, Heap.get_set_same,
          Field.width, next]
  · refine ⟨?_, ?_, ?_, ?_, trivial⟩
    · simp (disch := omega) [Heap.prevOf, Heap.get_set_apart, get_setPrevOf_apart,
        Heap.get_set_same, next, prev]
    · simp (disch := omega) [Heap.nextOf, Heap.get_set_apart, Heap.get_set_same, Field.width, next]
      omega
    · simp (disch := omega) [Heap.prevOf, Heap.get_set_apart, get_setPrevOf_apart,
        Heap.get_set_same, Field.width, next]
      omega
    · simp (disch := omega) [Heap.nextOf, Heap.get_set_apart, get_setPrevOf_apart,
        Heap.get_set_same, Field.width, next]
      exact linkLt
  · have old : b.addr ∈ (xs ++ cut n b false ++ ys).map Block.addr := by simp [cut]
    have made : b.addr + 32 + n ∈ (xs ++ cut n b false ++ ys).map Block.addr := by simp [cut]
    refine (touches_set made).trans <| (touches_set made).trans <| (touches_set made).trans <|
      (touches_set made).trans <| (touches_set old).trans <| (touches_setPrevOf ?_).trans
        (touches_set old)
    simp (disch := omega) only [Heap.get_set_apart, Heap.get_set_same, reduceCtorEq, if_false, next]
    intro ne
    rw [List.map_append]
    exact List.mem_append_right _ (link_head_mem ne)

/-! ## Joining -/

/-- Two neighbours as one block. -/
def join (a b : Block) : Block := { a with size := a.size + b.size + 32 }

/-- The assignments with which `free` joins the block at `a` with the one at `b` behind it. -/
def joined (h : Heap) (a b : Nat) : Heap :=
  setPrevOf ((h.set .size a (add64 (h.get .size a) (add64 (h.get .size b) sizeofBlock))).set
    .next a (h.get .next b)) (h.get .next b) a

/-- Joining two neighbours makes one block of both and touches headers only. -/
theorem joined_spec (rep : Rep h (xs ++ [a, b] ++ ys)) :
    Rep (joined h a.addr b.addr) (xs ++ [join a b] ++ ys) ∧
      Touches ((xs ++ [a, b] ++ ys).map Block.addr) h (joined h a.addr b.addr) := by
  have ha : a ∈ xs ++ [a, b] ++ ys := by simp
  have hb : b ∈ xs ++ [a, b] ++ ys := by simp
  have first : Rep h (xs ++ [a] ++ b :: ys) := by simpa using rep
  have second : Rep h ((xs ++ [a]) ++ [b] ++ ys) := by simpa using rep
  obtain ⟨low, _, high, top⟩ := rep.bounds ha
  obtain ⟨_, _, high', _⟩ := rep.bounds hb
  obtain ⟨left, _, right, _⟩ := rep.apart
  have adjacent : b.addr = a.addr + 32 + a.size := by
    have tiles := rep.tiles
    rw [tiles_append] at tiles
    obtain ⟨m, tiles, _⟩ := tiles
    rw [tiles_append] at tiles
    obtain ⟨k, _, tiles⟩ := tiles
    exact tiles.2.2.1
  have sizeA := (rep.headers a ha).size
  have sizeB := (rep.headers b hb).size
  have prev := first.neighbours.2
  have next := second.neighbours.1
  have above : link ys.head? = 0 ∨ b.addr + 32 + b.size ≤ link ys.head? :=
    link_head (right b (by simp))
  have linkLt : link ys.head? < 2 ^ 64 := next ▸ h.get_lt .next b.addr
  have sum : add64 a.size (add64 b.size sizeofBlock) = a.size + b.size + 32 := by
    rw [sizeofBlock, add64_eq (a := b.size) (by omega), add64_eq (by omega)]
    omega
  unfold joined
  rw [sizeA, sizeB, sum, next]
  refine ⟨rep.replace ?_ ?_ rfl (by simp) (by simp) (fun x hx => left x hx a (by simp))
    (right b (by simp)) ?_ ?_ ?_ ?_, ?_⟩
  · simp
  · simp
  · intro s e tiles
    simp only [Tiles, join, Block.stop, sizeofBlock] at tiles ⊢
    omega
  · intro f c place near
    simp only [Block.stop, sizeofBlock] at place
    simp (disch := omega) only [get_setPrevOf, Heap.get_set_apart]
    rfl
  · intro w hw
    obtain rfl := List.mem_singleton.mp hw
    have flag := (rep.headers a ha).used
    constructor
    · simp (disch := omega) [join, get_setPrevOf_apart, Heap.get_set_same, Field.width]
      omega
    · simpa (disch := omega) [join, get_setPrevOf_apart, Heap.get_set_same] using flag
  · refine ⟨?_, ?_, trivial⟩
    · simp (disch := omega) [Heap.prevOf, join, get_setPrevOf_apart, Heap.get_set_same, prev]
    · simp (disch := omega) [Heap.nextOf, join, get_setPrevOf_apart, Heap.get_set_same, Field.width]
      exact linkLt
  · have mem : a.addr ∈ (xs ++ [a, b] ++ ys).map Block.addr := by simp
    refine (touches_set mem).trans <| (touches_set mem).trans (touches_setPrevOf fun ne => ?_)
    rw [List.map_append]
    exact List.mem_append_right _ (link_head_mem ne)

/-- `free` merges with a free block before. -/
theorem coalesceBack_joins (rep : Rep h (xs ++ [a, b] ++ ys)) (unused : a.used = false) :
    coalesceBack h b.addr = (a.addr, joined h a.addr b.addr) := by
  have ha : a ∈ xs ++ [a, b] ++ ys := by simp
  have second : Rep h ((xs ++ [a]) ++ [b] ++ ys) := by simpa using rep
  obtain ⟨low, _⟩ := rep.bounds ha
  obtain ⟨left, _, right, _⟩ := second.apart
  have apart : a.addr + 32 + a.size ≤ b.addr := left a (by simp) b (by simp)
  have prev : h.get .prev b.addr = a.addr := by simpa using second.neighbours.2
  have next := second.neighbours.1
  have above : link ys.head? = 0 ∨ b.addr + 32 + b.size ≤ link ys.head? :=
    link_head (right b (by simp))
  have flag := (rep.inUse_eq_zero ha).mpr unused
  unfold coalesceBack joined
  rw [prev, if_pos ⟨by omega, flag⟩]
  simp (disch := omega) only [Heap.get_set_apart, get_setPrevOf_apart, prev, next]

/-- `free` leaves a block before alone that is in use or not there. -/
theorem coalesceBack_skips (rep : Rep h (xs ++ [b] ++ ys))
    (inUse : ∀ a, xs.getLast? = some a → a.used = true) : coalesceBack h b.addr = (b.addr, h) := by
  have prev := rep.neighbours.2
  unfold coalesceBack
  rw [prev]
  cases last : xs.getLast? with
  | none => simp
  | some a =>
    have ha : a ∈ xs ++ [b] ++ ys := by simp [List.mem_of_getLast? last]
    have flag := (rep.headers a ha).used
    rw [inUse a last] at flag
    rw [if_neg]
    intro both
    exact flag.mpr rfl both.2

/-- `free` merges with a free block behind. -/
theorem coalesceForward_joins (rep : Rep h (xs ++ [a, b] ++ ys)) (unused : b.used = false) :
    coalesceForward h a.addr = joined h a.addr b.addr := by
  have hb : b ∈ xs ++ [a, b] ++ ys := by simp
  have first : Rep h (xs ++ [a] ++ b :: ys) := by simpa using rep
  obtain ⟨low, _, high, top⟩ := rep.bounds hb
  obtain ⟨_, _, right, _⟩ := first.apart
  have apart : a.addr + 32 + a.size ≤ b.addr := right a (by simp) b (by simp)
  have next : h.get .next a.addr = b.addr := by simpa using first.neighbours.1
  have flag := (rep.inUse_eq_zero hb).mpr unused
  have value : h.get .next b.addr % 256 ^ 8 = h.get .next b.addr :=
    Nat.mod_eq_of_lt (h.get_lt .next b.addr)
  unfold coalesceForward joined
  rw [next, if_pos ⟨by omega, flag⟩]
  simp (disch := omega) only [Heap.get_set_apart, Heap.get_set_same, next, reduceCtorEq, if_false,
    if_true, Field.width, value]

/-- `free` leaves a block behind alone that is in use or not there. -/
theorem coalesceForward_skips (rep : Rep h (xs ++ [b] ++ ys))
    (inUse : ∀ c, ys.head? = some c → c.used = true) : coalesceForward h b.addr = h := by
  have next := rep.neighbours.1
  unfold coalesceForward
  rw [next]
  cases head : ys.head? with
  | none => simp
  | some c =>
    have hc : c ∈ xs ++ [b] ++ ys := by simp [List.mem_of_mem_head? head]
    have flag := (rep.headers c hc).used
    rw [inUse c head] at flag
    rw [if_neg]
    intro both
    exact flag.mpr rfl both.2

/-! ## free -/

/-- No two neighbours are both free. -/
def Coalesced (bs : List Block) : Prop := bs.IsChain fun a b => a.used = true ∨ b.used = true

/-- The first half of `free`: the block takes in a free block before it, and the one before that
is in use. -/
theorem coalesceBack_spec (rep : Rep h (xs ++ [b] ++ ys)) (unused : b.used = false)
    (apart : Coalesced xs) : ∃ xs' b' h', coalesceBack h b.addr = (b'.addr, h') ∧
      Rep h' (xs' ++ [b'] ++ ys) ∧ Touches ((xs ++ [b] ++ ys).map Block.addr) h h' ∧
      b'.used = false ∧ Coalesced xs' ∧ (∀ a, xs'.getLast? = some a → a.used = true) ∧
      (∀ c, c.used = true → (c ∈ xs' ↔ c ∈ xs)) ∧
      (xs' ++ [b'] ++ ys).map Block.addr ⊆ (xs ++ [b] ++ ys).map Block.addr ∧
      (b'.size = b.size ∨ b.size + 32 ≤ b'.size) := by
  rcases List.eq_nil_or_concat' xs with rfl | ⟨zs, a, rfl⟩
  · refine ⟨[], b, h, coalesceBack_skips rep (by simp), rep, fun _ _ => rfl, unused, apart, by simp,
      fun _ _ => Iff.rfl, fun _ mem => mem, .inl rfl⟩
  · cases used : a.used with
    | true =>
      have last : ∀ c, (zs ++ [a]).getLast? = some c → c.used = true := by simp [used]
      exact ⟨zs ++ [a], b, h, coalesceBack_skips rep last, rep, fun _ _ => rfl, unused, apart, last,
        fun _ _ => Iff.rfl, fun _ mem => mem, .inl rfl⟩
    | false =>
      have split : zs ++ [a] ++ [b] ++ ys = zs ++ [a, b] ++ ys := by simp
      rw [split] at rep ⊢
      obtain ⟨rep', touches⟩ := joined_spec rep
      have chain := List.isChain_append.mp apart
      have joins := coalesceBack_joins rep used
      refine ⟨zs, join a b, _, joins, rep', touches, used, chain.1, ?_, ?_, ?_, .inr ?_⟩
      · intro c last
        have := chain.2.2 c last a (by simp)
        simpa [used] using this
      · intro c inUse
        have : c ≠ a := by
          rintro rfl
          rw [used] at inUse
          cases inUse
        simp [this]
      · intro x hx
        simp only [join, List.map_append, List.map_cons, List.map_nil, List.mem_append,
          List.mem_singleton] at hx
        simp only [List.map_append, List.map_cons, List.map_nil, List.mem_append, List.mem_cons]
        rcases hx with (hz | here) | hy
        · exact .inl (.inl hz)
        · exact .inl (.inr (.inl here))
        · exact .inr hy
      · simp only [join]
        omega

/-- The second half of `free`: the block takes in a free block behind it. -/
theorem coalesceForward_spec (rep : Rep h (xs ++ [b] ++ ys)) (unused : b.used = false)
    (apart : Coalesced ys) : ∃ b' ys', Rep (coalesceForward h b.addr) (xs ++ [b'] ++ ys') ∧
      Touches ((xs ++ [b] ++ ys).map Block.addr) h (coalesceForward h b.addr) ∧
      b'.used = false ∧ Coalesced ys' ∧ (∀ c, ys'.head? = some c → c.used = true) ∧
      (∀ c, c.used = true → (c ∈ ys' ↔ c ∈ ys)) ∧ (b'.size = b.size ∨ b.size + 32 ≤ b'.size) := by
  cases ys with
  | nil =>
    have same := coalesceForward_skips rep (by simp)
    rw [same]
    exact ⟨b, [], rep, fun _ _ => rfl, unused, apart, by simp, fun _ _ => Iff.rfl, .inl rfl⟩
  | cons d ys =>
    cases used : d.used with
    | true =>
      have head : ∀ c, (d :: ys).head? = some c → c.used = true := by simp [used]
      rw [coalesceForward_skips rep head]
      exact ⟨b, d :: ys, rep, fun _ _ => rfl, unused, apart, head, fun _ _ => Iff.rfl, .inl rfl⟩
    | false =>
      have split : xs ++ [b] ++ d :: ys = xs ++ [b, d] ++ ys := by simp
      rw [split] at rep ⊢
      rw [coalesceForward_joins rep used]
      obtain ⟨rep', touches⟩ := joined_spec rep
      refine ⟨join b d, ys, rep', touches, unused, apart.tail, ?_, ?_, .inr ?_⟩
      · intro c head
        cases ys with
        | nil => cases head
        | cons e ys =>
          obtain rfl : e = c := Option.some.inj head
          have := (List.isChain_cons_cons.mp apart).1
          simpa [used] using this
      · intro c inUse
        have : c ≠ d := by
          rintro rfl
          rw [used] at inUse
          cases inUse
        simp [this]
      · simp only [join]
        omega

/-- The heap after `free`, with the free block that the freed one has become or has gone into. -/
theorem free_gives (rep : Rep h (xs ++ [b] ++ ys)) (apart : Coalesced (xs ++ [b] ++ ys)) :
    ∃ bs, Rep (free h (b.addr + 32)) bs ∧ Coalesced bs ∧
      Touches ((xs ++ [b] ++ ys).map Block.addr) h (free h (b.addr + 32)) ∧
      (∀ c, c.used = true → (c ∈ bs ↔ c ∈ xs ++ ys)) ∧
      ∃ c ∈ bs, c.used = false ∧ (c.size = b.size ∨ b.size + 32 ≤ c.size) := by
  have hb : b ∈ xs ++ [b] ++ ys := by simp
  obtain ⟨low, _, high, top⟩ := rep.bounds hb
  have block : sub64 (b.addr + 32) sizeofBlock = b.addr := by
    rw [sizeofBlock, sub64_eq (by omega) (by omega)]
    omega
  have marked := rep.mark (v := 0) (by decide)
  obtain ⟨front, _⟩ := List.isChain_append.mp apart
  obtain ⟨left, _⟩ := List.isChain_append.mp front
  obtain ⟨_, right, _⟩ := List.isChain_append.mp apart
  obtain ⟨xs', b', h', back, rep', touches', unused', left', last', used', sub', larger'⟩ :=
    coalesceBack_spec marked (by simp) left
  obtain ⟨b'', ys', rep'', touches'', unused'', right'', head'', used'', larger''⟩ :=
    coalesceForward_spec rep' unused' right
  have eq : free h (b.addr + 32) = coalesceForward h' b'.addr := by
    unfold free
    rw [block]
    have back : coalesceBack (h.set .inUse b.addr 0) b.addr = (b'.addr, h') := back
    simp only [back]
  rw [eq]
  refine ⟨xs' ++ [b''] ++ ys', rep'', ?_, ?_, ?_, b'', by simp, unused'', ?_⟩
  · refine List.isChain_append.mpr ⟨List.isChain_append.mpr ⟨left', List.isChain_singleton _, ?_⟩,
      right'', ?_⟩
    · intro x hx y _
      exact .inl (last' x hx)
    · intro x _ y hy
      exact .inr (head'' y hy)
  · have addrs : (xs ++ [{ b with used := decide (0 ≠ 0) }] ++ ys).map Block.addr =
        (xs ++ [b] ++ ys).map Block.addr := by simp
    rw [addrs] at touches' sub'
    exact (touches_set (List.mem_map_of_mem hb)).trans <| touches'.trans (touches''.mono sub')
  · intro c inUse
    have ne : c ≠ b'' := by
      rintro rfl
      rw [unused''] at inUse
      cases inUse
    simp [ne, used' c inUse, used'' c inUse]
  · dsimp only at larger'
    rcases larger' with same | more
    · rw [← same]
      exact larger''
    · right
      omega

/-- **free.** The block goes, with free neighbours it becomes one free block, no two neighbours are
free, and the blocks in use are the others. Only headers change. -/
theorem free_spec (rep : Rep h (xs ++ [b] ++ ys)) (apart : Coalesced (xs ++ [b] ++ ys)) :
    ∃ bs, Rep (free h (b.addr + 32)) bs ∧ Coalesced bs ∧
      Touches ((xs ++ [b] ++ ys).map Block.addr) h (free h (b.addr + 32)) ∧
      ∀ c, c.used = true → (c ∈ bs ↔ c ∈ xs ++ ys) := by
  obtain ⟨bs, rep', apart', touches, others, _⟩ := free_gives rep apart
  exact ⟨bs, rep', apart', touches, others⟩

/-- Nothing but `sbrk` moves the break. -/
@[simp] theorem kernelBrk_setPrevOf (h : Heap) (next v : Nat) :
    (setPrevOf h next v).kernelBrk = h.kernelBrk := by
  unfold setPrevOf
  split <;> rfl

/-- Splitting moves no break. -/
theorem kernelBrk_splitBlock (h : Heap) (size victim : Nat) :
    (splitBlock h size victim).2.kernelBrk = h.kernelBrk := by
  unfold splitBlock
  split
  · rfl
  · simp

/-- Freeing moves no break. -/
theorem kernelBrk_free (h : Heap) (ptr : Nat) : (free h ptr).kernelBrk = h.kernelBrk := by
  have back : ∀ (h : Heap) (block : Nat), (coalesceBack h block).2.kernelBrk = h.kernelBrk := by
    intro h block
    unfold coalesceBack
    split
    · simp
    · rfl
  have forward : ∀ (h : Heap) (block : Nat), (coalesceForward h block).kernelBrk = h.kernelBrk := by
    intro h block
    unfold coalesceForward
    split
    · simp
    · rfl
  have kept := back (h.set .inUse (sub64 ptr sizeofBlock) 0) (sub64 ptr sizeofBlock)
  unfold free
  cases merged : coalesceBack (h.set .inUse (sub64 ptr sizeofBlock) 0) (sub64 ptr sizeofBlock) with
  | mk block h' =>
    rw [merged] at kept
    simp only [merged, forward]
    exact kept

/-! ## kmalloc -/

/-- What the kernel says when the heap's pages are used up. -/
def heapExhausted : Fault := .panic "kernel heap exhausted"

/-- `sbrk` of a positive number of bytes succeeds exactly when the new break is in the heap's pages. -/
theorem sbrk_eq (inc : Nat) (low : kernelBrkStart ≤ h.kernelBrk)
    (limit : h.kernelBrk < kernelBrkStart + heapBytes) (pos : 0 < inc) (fits : inc < 2 ^ 40) :
    sbrk h inc = if h.kernelBrk + inc < kernelBrkStart + heapBytes then
      .ok (h.kernelBrk, { h with kernelBrk := h.kernelBrk + inc }) else .error heapExhausted := by
  have nowrap : h.kernelBrk + inc < 2 ^ 64 := by
    simp only [kernelBrkStart, heapBytes, kernelBrkPages, pageSize] at limit
    omega
  unfold sbrk
  rw [if_neg (by omega)]
  simp only [add64_eq nowrap, sub64_eq (Nat.le_add_left inc h.kernelBrk) nowrap, Nat.add_sub_cancel]
  split
  · omega
  · rw [heapBytes]
    split
    · rw [if_neg (by omega)]
      rfl
    · rw [if_pos (by omega)]

/-- `sbrk` of a positive number of bytes returns the old break, or panics. -/
theorem sbrk_spec {inc : Nat} (low : kernelBrkStart ≤ h.kernelBrk)
    (limit : h.kernelBrk < kernelBrkStart + heapBytes) (pos : 0 < inc) (fits : inc < 2 ^ 63) :
    (∃ msg, sbrk h inc = .error (.panic msg)) ∨
      (h.kernelBrk + inc < kernelBrkStart + heapBytes ∧
        sbrk h inc = .ok (h.kernelBrk, { h with kernelBrk := h.kernelBrk + inc })) := by
  simp only [kernelBrkStart, heapBytes, kernelBrkPages, pageSize] at low limit ⊢
  cases result : sbrk h inc with
  | error e =>
    unfold sbrk at result
    rw [if_neg (by omega)] at result
    simp only at result
    split at result
    · exact .inl ⟨_, result.symm⟩
    · split at result
      · exact .inl ⟨_, result.symm⟩
      · cases result
  | ok grown =>
    unfold sbrk at result
    rw [if_neg (by omega)] at result
    simp only at result
    split at result
    · cases result
    rename_i above
    split at result
    · cases result
    rename_i below
    simp only [kernelBrkStart, kernelBrkPages, pageSize] at above below
    -- an increment below 2^63 that wrapped around would land below the start of the heap
    have sum : add64 h.kernelBrk inc = h.kernelBrk + inc := by
      unfold add64 at above below ⊢
      omega
    rw [sum] at below result
    rw [sub64_eq (by omega) (by omega), Nat.add_sub_cancel] at result
    exact .inr ⟨by omega, result.symm⟩

/-- An extended heap has a new last block, in use. -/
theorem extendHeap_spec {n : Nat} (rep : Rep h (xs ++ [a])) (pos : 0 < n) (fits : n < 2 ^ 63 - 32) :
    (∃ msg, extendHeap h n a.addr = .error (.panic msg)) ∨
      ∃ h' b, b = ⟨h.kernelBrk, n, true⟩ ∧ extendHeap h n a.addr = .ok (b.addr, h') ∧
        Rep h' (xs ++ [a, b]) ∧ Touches ((xs ++ [a, b]).map Block.addr) h h' := by
  have ha : a ∈ xs ++ [a] := by simp
  obtain ⟨low, _, high, top⟩ := rep.bounds ha
  have size : add64 sizeofBlock n = 32 + n := by
    rw [sizeofBlock, add64_eq (by omega)]
  have start : kernelBrkStart ≤ h.kernelBrk := by
    rw [kernelBrkStart]
    omega
  have tail : Rep h (xs ++ [a] ++ []) := by simpa using rep
  obtain ⟨next, prev⟩ := tail.neighbours
  unfold extendHeap
  rw [size]
  have positive : 0 < 32 + n := by omega
  rcases sbrk_spec start rep.limit positive (by omega) with
    ⟨msg, failed⟩ | ⟨room, grown⟩
  · rw [failed]
    exact .inl ⟨msg, rfl⟩
  rw [grown]
  simp only [kernelBrkStart, heapBytes, kernelBrkPages, pageSize] at room
  obtain ⟨left, _⟩ := tail.apart
  simp only [List.mem_singleton, forall_eq] at left
  have header := rep.headers a ha
  have edit : Splice h ((((({ h with kernelBrk := h.kernelBrk + (32 + n) } : Heap).set .size
      h.kernelBrk n).set .inUse h.kernelBrk 1).set .next h.kernelBrk 0).set .prev h.kernelBrk
      a.addr |>.set .next a.addr h.kernelBrk) xs [a] [a, ⟨h.kernelBrk, n, true⟩] [] := by
    constructor
    case base => rfl
    case limit =>
      simp only [kernelBrkStart, heapBytes, kernelBrkPages, pageSize]
      exact room
    case tiles =>
      have tiles := rep.tiles
      rw [tiles_append] at tiles
      obtain ⟨m, before, here, size, stop⟩ := tiles
      rw [List.append_nil, tiles_append]
      refine ⟨m, before, here, size, stop.symm, pos, ?_⟩
      show h.kernelBrk + 32 + n = h.kernelBrk + (32 + n)
      omega
    case start => rfl
    case replaced => simp
    case nonempty => simp
    case before =>
      intro x hx f
      have := left x hx
      simp only [Block.stop, sizeofBlock] at this
      simp (disch := omega) only [Heap.get_set_apart]
      rfl
    case after => simp
    case seam => simp
    case headers =>
      intro w hw
      simp only [List.mem_cons, List.not_mem_nil, or_false] at hw
      rcases hw with rfl | rfl
      · constructor
        · simp (disch := omega) only [Heap.get_set_apart, Heap.get_set_same, reduceCtorEq, if_false]
          exact header.size
        · simp (disch := omega) only [Heap.get_set_apart, Heap.get_set_same, reduceCtorEq, if_false]
          exact header.used
      · constructor
        · simp (disch := omega) [Heap.get_set_apart, Heap.get_set_same, Field.width]
          omega
        · simp (disch := omega) [Heap.get_set_apart, Heap.get_set_same, Field.width]
    case links =>
      refine ⟨?_, ?_, ?_, ?_, trivial⟩
      · simp (disch := omega) only [Heap.prevOf, Heap.get_set_apart, Heap.get_set_same, reduceCtorEq,
          if_false]
        exact prev
      · simp [Heap.nextOf, Heap.get_set_same, Field.width]
        omega
      · simp (disch := omega) [Heap.prevOf, Heap.get_set_apart, Heap.get_set_same, Field.width]
        omega
      · simp (disch := omega) [Heap.nextOf, Heap.get_set_apart, Heap.get_set_same, Field.width]
  refine .inr ⟨_, ⟨h.kernelBrk, n, true⟩, rfl, rfl, ?_, ?_⟩
  · simpa using tail.splice edit
  · have old : a.addr ∈ (xs ++ [a, ⟨h.kernelBrk, n, true⟩]).map Block.addr := by simp
    have new : h.kernelBrk ∈ (xs ++ [a, ⟨h.kernelBrk, n, true⟩]).map Block.addr := by simp
    exact (touches_set (h := { h with kernelBrk := h.kernelBrk + (32 + n) }) new).trans <|
      (touches_set new).trans <| (touches_set new).trans <| (touches_set new).trans
        (touches_set old)

/-- A free block that a request for `n` bytes is served from. -/
def Fits (n : Nat) (b : Block) : Prop := b.used = false ∧ (b.size = n ∨ n + 32 ≤ b.size)

/-- The walk of `kmalloc` from a block on: it stops at a free block of the right size, or cuts one
that is large enough, or reaches the end. -/
theorem findBlock_spec {n fuel : Nat} (rep : Rep h (xs ++ ys)) (fits : n < 2 ^ 63 - 32)
    (enough : ys.length ≤ fuel) :
    (∃ zs b ws, ys = zs ++ [b] ++ ws ∧ b.used = false ∧
      ((b.size = n ∧ findBlock n h fuel (link xs.getLast?) (link ys.head?) =
          .ok (link (xs ++ zs).getLast?, b.addr, h)) ∨
        (n + 32 ≤ b.size ∧ findBlock n h fuel (link xs.getLast?) (link ys.head?) =
          .ok (link (xs ++ zs).getLast?, splitBlock h n b.addr)))) ∨
    (∀ b ∈ ys, ¬ Fits n b) ∧ findBlock n h fuel (link xs.getLast?) (link ys.head?) =
      .ok (link (xs ++ ys).getLast?, 0, h) := by
  induction ys generalizing xs fuel with
  | nil =>
    refine .inr ⟨by simp, ?_⟩
    cases fuel <;> simp [findBlock]
  | cons y ys ih =>
    obtain ⟨fuel, rfl⟩ : ∃ k, fuel = k + 1 := ⟨fuel - 1, by simp at enough; omega⟩
    have rest : Rep h ((xs ++ [y]) ++ ys) := by simpa using rep
    have here : y ∈ xs ++ y :: ys := by simp
    have header := rep.headers y here
    have notNull : y.addr ≠ 0 := by
      have := (rep.bounds here).1
      omega
    have next : h.get .next y.addr = link ys.head? :=
      (Rep.neighbours (b := y) (by simpa using rep)).1
    have sum : add64 n sizeofBlock = n + 32 := by
      rw [sizeofBlock, add64_eq (by omega)]
    -- going on past `y` is the walk of the rest, with `y` among the blocks passed
    have skip : ¬ Fits n y → findBlock n h (fuel + 1) (link xs.getLast?) y.addr =
        findBlock n h fuel (link (xs ++ [y]).getLast?) (link ys.head?) →
        (∃ zs b ws, y :: ys = zs ++ [b] ++ ws ∧ b.used = false ∧
          ((b.size = n ∧ findBlock n h (fuel + 1) (link xs.getLast?) y.addr =
              .ok (link (xs ++ zs).getLast?, b.addr, h)) ∨
            (n + 32 ≤ b.size ∧ findBlock n h (fuel + 1) (link xs.getLast?) y.addr =
              .ok (link (xs ++ zs).getLast?, splitBlock h n b.addr)))) ∨
        (∀ b ∈ y :: ys, ¬ Fits n b) ∧ findBlock n h (fuel + 1) (link xs.getLast?) y.addr =
          .ok (link (xs ++ y :: ys).getLast?, 0, h) := by
      intro small same
      rw [same]
      rcases ih rest (by simpa using enough) with ⟨zs, b, ws, rfl, unused, found⟩ | ⟨none, nothing⟩
      · exact .inl ⟨y :: zs, b, ws, rfl, unused, by simpa using found⟩
      · refine .inr ⟨?_, by simpa using nothing⟩
        intro b hb
        rcases List.mem_cons.mp hb with rfl | hb
        · exact small
        · exact none b hb
    rw [List.head?_cons, link_some]
    cases used : y.used with
    | true =>
      apply skip (fun fits => by simp [Fits, used] at fits)
      have flag : h.get .inUse y.addr ≠ 0 := header.used.mpr used
      rw [findBlock, if_neg notNull, if_pos flag, next]
      simp
    | false =>
      have flag := (rep.inUse_eq_zero here).mpr used
      by_cases exact_ : y.size = n
      · refine .inl ⟨[], y, ys, rfl, used, .inl ⟨exact_, ?_⟩⟩
        rw [findBlock, if_neg notNull, if_neg (by simp [flag]), header.size, if_pos exact_]
        simp
      by_cases room : n + 32 ≤ y.size
      · refine .inl ⟨[], y, ys, rfl, used, .inr ⟨room, ?_⟩⟩
        rw [findBlock, if_neg notNull, if_neg (by simp [flag]), header.size, if_neg exact_, sum,
          if_pos room]
        simp
      · apply skip (fun fits => fits.2.elim exact_ room)
        rw [findBlock, if_neg notNull, if_neg (by simp [flag]), header.size, if_neg exact_, sum,
          if_neg room, next]
        simp

/-- The number of blocks is bounded by the number of bytes. -/
theorem Tiles.length_le {s e : Nat} (tiles : Tiles s bs e) : s + bs.length ≤ e := by
  induction bs generalizing s with
  | nil => exact Nat.le_of_eq tiles
  | cons b bs ih =>
    have rest := ih tiles.2.2
    have start := tiles.1
    simp only [Block.stop, sizeofBlock] at rest
    rw [List.length_cons]
    omega

/-- What a `kmalloc` of `n` bytes makes of the list: one block more in use, of the right size, and
the other blocks in use as they were. -/
structure Allocates (n : Nat) (h : Heap) (bs : List Block) (h' : Heap) (bs' : List Block)
    (b : Block) : Prop where
  rep : Rep h' bs'
  apart : Coalesced bs'
  mem : b ∈ bs'
  used : b.used = true
  size : b.size = n ∨ b.size = n + 32
  others : ∀ c, c.used = true → (c ∈ bs' ↔ c ∈ bs ∨ c = b)
  fresh : b ∉ bs
  touches : Touches (bs'.map Block.addr) h h'

/-- Marking a free block of the right size allocates it. -/
theorem Allocates.mark {n : Nat} (rep : Rep h (xs ++ [b] ++ ys))
    (apart : Coalesced (xs ++ [b] ++ ys)) (unused : b.used = false)
    (size : b.size = n ∨ b.size = n + 32) :
    Allocates n h (xs ++ [b] ++ ys) (h.set .inUse b.addr 1) (xs ++ [{ b with used := true }] ++ ys)
      { b with used := true } := by
  have hb : b ∈ xs ++ [b] ++ ys := by simp
  constructor
  case rep => exact rep.mark (v := 1) (by decide)
  case apart =>
    obtain ⟨front, right, _⟩ := List.isChain_append.mp apart
    obtain ⟨left, _, _⟩ := List.isChain_append.mp front
    refine List.isChain_append.mpr ⟨List.isChain_append.mpr ⟨left, List.isChain_singleton _, ?_⟩,
      right, ?_⟩
    · intro x _ y hy
      obtain rfl : { b with used := true } = y := Option.some.inj hy
      exact .inr rfl
    · intro x hx y _
      rw [List.getLast?_append] at hx
      obtain rfl : { b with used := true } = x := Option.some.inj hx
      exact .inl rfl
  case mem => simp
  case used => rfl
  case size => exact size
  case others =>
    intro c inUse
    have : c ≠ b := by
      rintro rfl
      rw [unused] at inUse
      cases inUse
    simp only [List.mem_append, List.mem_singleton, this, or_false]
    tauto
  case fresh =>
    intro mem
    have same := rep.tiles.addr_inj mem hb rfl
    rw [← same] at unused
    cases unused
  case touches =>
    have same : (xs ++ [{ b with used := true }] ++ ys).map Block.addr =
        (xs ++ [b] ++ ys).map Block.addr := by simp
    rw [same]
    exact touches_set (List.mem_map_of_mem hb)

/-- A free block cut in two, neither half beside another free block but the other half. -/
theorem Coalesced.cut {n : Nat} (apart : Coalesced (xs ++ [b] ++ ys)) (unused : b.used = false) :
    Coalesced (xs ++ Mm.cut n b true ++ ys) := by
  obtain ⟨front, right, behind⟩ := List.isChain_append.mp apart
  obtain ⟨left, _, _⟩ := List.isChain_append.mp front
  refine List.isChain_append.mpr ⟨List.isChain_append.mpr ⟨left, ?_, ?_⟩, right, ?_⟩
  · exact List.isChain_cons_cons.mpr ⟨.inl rfl, List.isChain_singleton _⟩
  · intro x _ y hy
    obtain rfl := Option.some.inj hy
    exact .inr rfl
  · intro x _ y hy
    have := behind b (by simp) y hy
    simp only [unused, Bool.false_eq_true, false_or] at this
    exact .inr this

/-- A block that is cut: the first half is allocated. -/
theorem Allocates.cut {n : Nat} (rep : Rep h (xs ++ [b] ++ ys))
    (apart : Coalesced (xs ++ [b] ++ ys)) (unused : b.used = false)
    (rep' : Rep h' (xs ++ Mm.cut n b false ++ ys))
    (touches : Touches ((xs ++ Mm.cut n b false ++ ys).map Block.addr) h h') :
    Allocates n h (xs ++ [b] ++ ys) (h'.set .inUse b.addr 1)
      (xs ++ Mm.cut n b true ++ ys) ⟨b.addr, n, true⟩ := by
  have first : Rep h' (xs ++ [⟨b.addr, n, false⟩] ++
      ⟨b.addr + 32 + n, b.size - n - 32, false⟩ :: ys) := by
    simpa [Mm.cut] using rep'
  constructor
  case rep => simpa [Mm.cut] using first.mark (v := 1) (by decide)
  case apart => exact apart.cut unused
  case mem => simp [Mm.cut]
  case used => rfl
  case size => exact .inl rfl
  case others =>
    intro c inUse
    have old : c ≠ b := by
      rintro rfl
      rw [unused] at inUse
      cases inUse
    have rest : c ≠ ⟨b.addr + 32 + n, b.size - n - 32, false⟩ := by
      rintro rfl
      cases inUse
    simp only [Mm.cut, List.mem_append, List.mem_cons, List.not_mem_nil, old, rest, or_false]
    tauto
  case fresh =>
    intro mem
    have same := rep.tiles.addr_inj mem (c := b) (by simp) rfl
    rw [← same] at unused
    cases unused
  case touches =>
    have same : (xs ++ Mm.cut n b true ++ ys).map Block.addr =
        (xs ++ Mm.cut n b false ++ ys).map Block.addr := by simp [Mm.cut]
    rw [same]
    exact touches.trans (touches_set (by simp [Mm.cut]))

/-- A new last block is allocated. -/
theorem Allocates.extend {n : Nat} (rep : Rep h (xs ++ [a])) (apart : Coalesced (xs ++ [a]))
    (new : b = ⟨h.kernelBrk, n, true⟩) (rep' : Rep h' (xs ++ [a, b]))
    (touches : Touches ((xs ++ [a, b]).map Block.addr) h h') :
    Allocates n h (xs ++ [a]) (h'.set .inUse b.addr 1) (xs ++ [a, b]) b := by
  subst new
  have last : Rep h' (xs ++ [a] ++ [⟨h.kernelBrk, n, true⟩] ++ []) := by simpa using rep'
  constructor
  case rep => simpa using last.mark (v := 1) (by decide)
  case apart =>
    have whole : Coalesced (xs ++ [a] ++ [⟨h.kernelBrk, n, true⟩]) := by
      refine List.isChain_append.mpr ⟨apart, List.isChain_singleton _, ?_⟩
      intro x _ y hy
      obtain rfl := Option.some.inj hy
      exact .inr rfl
    simpa using whole
  case mem => simp
  case used => rfl
  case size => exact .inl rfl
  case others =>
    intro c _
    simp only [List.mem_append, List.mem_cons, List.not_mem_nil, or_false]
    tauto
  case fresh =>
    intro mem
    have := (rep.bounds mem).2.2.1
    simp only at this
    omega
  case touches => exact touches.trans (touches_set (by simp))

/-- A request that no free block serves is served at the break, when there is room, and else nothing
is left. -/
theorem extendHeap_cases {n : Nat} (rep : Rep h (xs ++ [a])) (pos : 0 < n) (fits : n < 2 ^ 39) :
    (kernelBrkStart + heapBytes ≤ h.kernelBrk + 32 + n ∧
      extendHeap h n a.addr = .error heapExhausted) ∨
      ∃ h' b, b = ⟨h.kernelBrk, n, true⟩ ∧ extendHeap h n a.addr = .ok (b.addr, h') ∧
        Rep h' (xs ++ [a, b]) ∧ Touches ((xs ++ [a, b]).map Block.addr) h h' ∧
        h'.kernelBrk = h.kernelBrk + 32 + n := by
  have start : kernelBrkStart ≤ h.kernelBrk := by
    have := rep.tiles.le
    rwa [rep.base] at this
  have size : add64 sizeofBlock n = 32 + n := by
    rw [sizeofBlock, add64_eq (by omega)]
  have grown := sbrk_eq (32 + n) start rep.limit (by omega) (by omega)
  by_cases room : h.kernelBrk + (32 + n) < kernelBrkStart + heapBytes
  · rw [if_pos room] at grown
    rcases extendHeap_spec rep pos (by omega) with ⟨msg, failed⟩ | ⟨h', b, new, done, rep', touches⟩
    · unfold extendHeap at failed
      rw [size, grown] at failed
      cases failed
    · refine .inr ⟨h', b, new, done, rep', touches, ?_⟩
      unfold extendHeap at done
      rw [size, grown] at done
      obtain ⟨_, rfl⟩ := Prod.mk.inj (Except.ok.inj done)
      show h.kernelBrk + (32 + n) = h.kernelBrk + 32 + n
      omega
  · rw [if_neg room] at grown
    refine .inl ⟨by omega, ?_⟩
    unfold extendHeap
    rw [size, grown]
    rfl

/-- What `kmalloc` does: it takes a free block that fits, or a new one at the break; or the new one
fails, and so does it. -/
theorem kmalloc_gives {n : Nat} (rep : Rep h bs) (apart : Coalesced bs) (pos : 0 < n)
    (fits : n < 2 ^ 63 - 32) :
    (∃ xs a msg, bs = xs ++ [a] ∧ (∀ b ∈ bs, ¬ Fits n b) ∧
      extendHeap h n a.addr = .error (.panic msg) ∧ kmalloc h n = .error (.panic msg)) ∨
      ∃ h' bs' b, kmalloc h n = .ok (b.addr + 32, h') ∧ Allocates n h bs h' bs' b ∧
        ((∃ b ∈ bs, Fits n b) ∧ h'.kernelBrk = h.kernelBrk ∨
          (∀ b ∈ bs, ¬ Fits n b) ∧ ∃ xs a h'', bs = xs ++ [a] ∧
            extendHeap h n a.addr = .ok (b.addr, h'') ∧ h'.kernelBrk = h''.kernelBrk) := by
  have enough : bs.length ≤ heapBytes := by
    have bound := rep.tiles.length_le
    have limit := rep.limit
    rw [rep.base] at bound
    omega
  have head : h.heapBase = link bs.head? := by
    obtain ⟨b, bs', rfl⟩ := List.exists_cons_of_ne_nil rep.nonempty
    exact rep.tiles.1.symm
  have payload : ∀ {h' : Heap} {bs' : List Block} {b : Block}, Rep h' bs' → b ∈ bs' →
      add64 b.addr sizeofBlock = b.addr + 32 := by
    intro h' bs' b rep' hb
    obtain ⟨_, _, high, top⟩ := rep'.bounds hb
    rw [sizeofBlock, add64_eq (by omega)]
  have notNull : ∀ {b : Block}, b ∈ bs → b.addr ≠ 0 := by
    intro b hb
    have := (rep.bounds hb).1
    omega
  unfold kmalloc
  rw [if_neg (by omega), head]
  have whole : Rep h ([] ++ bs) := rep
  rcases findBlock_spec whole fits enough with
    ⟨xs, b, ys, rfl, unused, ⟨size, found⟩ | ⟨room, found⟩⟩ | ⟨none, nothing⟩
  · -- an exact fit
    right
    have marked := Allocates.mark rep apart unused (.inl size)
    refine ⟨_, _, _, ?_, marked, .inl ⟨⟨b, by simp, unused, .inl size⟩, rfl⟩⟩
    rw [List.getLast?_nil, link_none] at found
    rw [found]
    simp only [ok_bind, if_neg (notNull (b := b) (by simp)), pure_eq_ok]
    rw [payload rep (b := b) (by simp)]
  · right
    rw [List.getLast?_nil, link_none] at found
    rw [found]
    by_cases spare : b.size = n + 32
    · -- the remainder is exactly a header: the whole block is used
      have whole : splitBlock h n b.addr = (b.addr, h) := by
        have size := (rep.headers b (by simp)).size
        have high := rep.bounds (b := b) (by simp)
        unfold splitBlock
        rw [size, if_pos]
        rw [sub64_eq (by omega) (by omega), sizeofBlock]
        omega
      have marked := Allocates.mark rep apart unused (.inr spare)
      refine ⟨_, _, _, ?_, marked, .inl ⟨⟨b, by simp, unused, .inr room⟩, rfl⟩⟩
      rw [whole]
      simp only [ok_bind, if_neg (notNull (b := b) (by simp)), pure_eq_ok]
      rw [payload rep (b := b) (by simp)]
    · obtain ⟨h', split, rep', touches⟩ := splitBlock_spec rep unused pos (by omega)
      have brk := kernelBrk_splitBlock h n b.addr
      rw [split] at brk
      refine ⟨_, _, _, ?_, Allocates.cut rep apart unused rep' touches,
        .inl ⟨⟨b, by simp, unused, .inr room⟩, brk⟩⟩
      rw [split]
      simp only [ok_bind, if_neg (notNull (b := b) (by simp)), pure_eq_ok]
      rw [payload rep (b := b) (by simp)]
  · -- no free block is large enough
    obtain ⟨xs, a, rfl⟩ := (List.eq_nil_or_concat' bs).resolve_left rep.nonempty
    rw [List.getLast?_nil, link_none, List.nil_append, List.getLast?_append] at nothing
    rw [nothing]
    rcases extendHeap_spec rep pos fits with ⟨msg, failed⟩ | ⟨h', b, new, grown, rep', touches⟩
    · left
      refine ⟨xs, a, msg, rfl, none, failed, ?_⟩
      simp only [ok_bind, if_true]
      rw [show link ([a].getLast?.or xs.getLast?) = a.addr from rfl, failed]
      rfl
    · right
      refine ⟨_, _, b, ?_, Allocates.extend rep apart new rep' touches,
        .inr ⟨none, xs, a, h', rfl, grown, rfl⟩⟩
      simp only [ok_bind, if_true]
      rw [show link ([a].getLast?.or xs.getLast?) = a.addr from rfl, grown]
      simp only [ok_bind, pure_eq_ok]
      rw [payload rep' (b := b) (by simp)]

/-- **kmalloc.** With a well-formed heap, a `kmalloc` of a positive size below `2 ^ 63 - 32` returns
the payload of a newly allocated block, or panics when no free block fits. -/
theorem kmalloc_spec {n : Nat} (rep : Rep h bs) (apart : Coalesced bs) (pos : 0 < n)
    (fits : n < 2 ^ 63 - 32) :
    ((∀ b ∈ bs, ¬ Fits n b) ∧ ∃ msg, kmalloc h n = .error (.panic msg)) ∨
      ∃ h' bs' b, kmalloc h n = .ok (b.addr + 32, h') ∧ Allocates n h bs h' bs' b := by
  rcases kmalloc_gives rep apart pos fits with
    ⟨_, _, msg, _, none, _, failed⟩ | ⟨h', bs', b, done, alloc, _⟩
  · exact .inl ⟨none, msg, failed⟩
  · exact .inr ⟨h', bs', b, done, alloc⟩

/-- A `kmalloc` that fails has found no free block that fits, and no room at the break; one that
succeeds has moved the break only when it found no free block. -/
theorem kmalloc_cases {n : Nat} (rep : Rep h bs) (apart : Coalesced bs) (pos : 0 < n)
    (fits : n < 2 ^ 39) :
    ((∀ b ∈ bs, ¬ Fits n b) ∧ kernelBrkStart + heapBytes ≤ h.kernelBrk + 32 + n ∧
      kmalloc h n = .error heapExhausted) ∨
      ∃ h' bs' b, kmalloc h n = .ok (b.addr + 32, h') ∧ Allocates n h bs h' bs' b ∧
        ((∃ b ∈ bs, Fits n b) ∧ h'.kernelBrk = h.kernelBrk ∨
          (∀ b ∈ bs, ¬ Fits n b) ∧ h'.kernelBrk = h.kernelBrk + 32 + n) := by
  rcases kmalloc_gives rep apart pos (by omega) with
    ⟨xs, a, msg, rfl, none, failed, same⟩ | ⟨h', bs', b, done, alloc, brk⟩
  · rcases extendHeap_cases rep pos fits with ⟨full, exhausted⟩ | ⟨_, _, _, grown, _⟩
    · refine .inl ⟨none, full, ?_⟩
      rw [same, ← failed, exhausted]
    · rw [failed] at grown
      cases grown
  · refine .inr ⟨h', bs', b, done, alloc, brk.imp_right ?_⟩
    rintro ⟨none, xs, a, h'', rfl, grown, same⟩
    rcases extendHeap_cases rep pos fits with ⟨_, exhausted⟩ | ⟨h₁, c, _, grown', _, _, brk'⟩
    · rw [grown] at exhausted
      cases exhausted
    · obtain ⟨_, rfl⟩ := Prod.mk.inj (Except.ok.inj (grown.symm.trans grown'))
      exact ⟨none, same.trans brk'⟩

end Blackcomb.Mm
