import Mathlib.Data.Set.Basic
import Blackcomb.Laws.Mm.Clients

/-!
# The shape of the heap

The list of blocks carries no history. A tiling without two free neighbours is determined by its ends
and its blocks in use (`Tiles.eq_of_used`): whatever lies between two blocks in use is one free
block. Hence the list that `kmalloc` and `free` walk is a function of the break and of the blocks in
use, two pointers can be freed in either order, and a block taken without growing the heap leaves no
trace once it is freed.

**What it does not establish.** Which block `kmalloc` takes is a matter of the list's order; nothing
is said of how well it fills the heap.
-/

namespace Blackcomb.Mm

open Memory Chain Run

/-! ## The list in memory -/

/-- A header as it stands in the heap. -/
@[ext] structure Header where
  block : Block
  next : Nat
  prev : Nat
  deriving DecidableEq, Repr

namespace Heap

/-- The header at an address. -/
def header (h : Heap) (b : Nat) : Header where
  block := ⟨b, h.get .size b, decide (h.get .inUse b ≠ 0)⟩
  next := h.get .next b
  prev := h.get .prev b

/-- The headers from an address along `next`, up to a bound on their number. -/
def headersFrom (h : Heap) : Nat → Nat → List Header
  | 0, _ => []
  | fuel + 1, b => if b = 0 then [] else h.header b :: h.headersFrom fuel (h.get .next b)

/-- The block list reached from `heap_base`. -/
def blockList (h : Heap) : List Header := h.headersFrom heapBytes h.heapBase

/-- The address and the size of every block in use of the list. -/
def inUseBlocks (h : Heap) : Set (Nat × Nat) :=
  { x | ∃ c ∈ h.blockList, c.block.used = true ∧ c.block.addr = x.1 ∧ c.block.size = x.2 }

end Heap

section List

variable {h h' : Heap} {bs bs' xs ys : List Block} {b : Block}

theorem Holds.header (holds : Holds h b) : (h.header b.addr).block = b := by
  have flag : decide (h.get .inUse b.addr ≠ 0) = b.used := by
    rw [Bool.eq_iff_iff, decide_eq_true_eq]
    exact holds.used
  unfold Heap.header
  rw [holds.size, flag]

/-- A walk into a list of blocks comes to all of them. -/
theorem Rep.headersFrom (rep : Rep h (xs ++ ys)) {fuel : Nat} (enough : ys.length ≤ fuel) :
    h.headersFrom fuel (link ys.head?) = ys.map fun b => h.header b.addr := by
  induction ys generalizing xs fuel with
  | nil => cases fuel <;> simp [Heap.headersFrom]
  | cons b ys ih =>
    have here : Rep h (xs ++ [b] ++ ys) := by simpa using rep
    have notNull : b.addr ≠ 0 := by
      have := (rep.bounds (b := b) (by simp)).1
      omega
    cases fuel with
    | zero => cases enough
    | succ fuel =>
      rw [List.head?_cons, link_some, Heap.headersFrom, if_neg notNull, here.neighbours.1,
        ih here (by simpa using enough), List.map_cons]

theorem Rep.blockList (rep : Rep h bs) : h.blockList = bs.map fun b => h.header b.addr := by
  have head : h.heapBase = link bs.head? := by
    obtain ⟨b, rest, rfl⟩ := List.exists_cons_of_ne_nil rep.nonempty
    exact rep.tiles.1.symm
  have bound := rep.tiles.length_le
  have limit := rep.limit
  rw [rep.base] at bound
  unfold Heap.blockList
  rw [head]
  have whole : Rep h ([] ++ bs) := rep
  exact whole.headersFrom (by omega)

/-- The walk is not cut short: its last header has no successor. -/
theorem Rep.blockList_last (rep : Rep h bs) :
    ∃ c, h.blockList.getLast? = some c ∧ c.next = 0 := by
  obtain ⟨xs, b, rfl⟩ := (List.eq_nil_or_concat' bs).resolve_left rep.nonempty
  have last : Rep h (xs ++ [b] ++ []) := by simpa using rep
  refine ⟨h.header b.addr, ?_, last.neighbours.1⟩
  rw [rep.blockList, List.getLast?_map, List.getLast?_append]
  rfl

/-- Two heaps that hold the same blocks have the same headers. -/
theorem Rep.header_eq (rep : Rep h bs) (rep' : Rep h' bs) (hb : b ∈ bs) :
    h.header b.addr = h'.header b.addr := by
  obtain ⟨xs, ys, rfl⟩ := List.append_of_mem hb
  rw [← List.singleton_append, ← List.append_assoc] at rep rep'
  have block : (h.header b.addr).block = (h'.header b.addr).block := by
    rw [(rep.headers b (by simp)).header, (rep'.headers b (by simp)).header]
  have next : h.get .next b.addr = h'.get .next b.addr := by
    rw [rep.neighbours.1, rep'.neighbours.1]
  have prev : h.get .prev b.addr = h'.get .prev b.addr := by
    rw [rep.neighbours.2, rep'.neighbours.2]
  ext1
  · exact block
  · exact next
  · exact prev

theorem Rep.blockList_eq (rep : Rep h bs) (rep' : Rep h' bs) : h.blockList = h'.blockList := by
  rw [rep.blockList, rep'.blockList]
  apply List.map_congr_left
  intro b hb
  exact rep.header_eq rep' hb

/-- The blocks in use that the walk meets are those of the list. -/
theorem Rep.mem_inUseBlocks (rep : Rep h bs) (used : b.used = true) :
    (b.addr, b.size) ∈ h.inUseBlocks ↔ b ∈ bs := by
  unfold Heap.inUseBlocks
  rw [Set.mem_ofPred_eq, rep.blockList]
  constructor
  · intro found
    obtain ⟨c, hc, inUse, addr, size⟩ := found
    obtain ⟨d, hd, rfl⟩ := List.mem_map.mp hc
    rw [(rep.headers d hd).header] at inUse addr size
    have same : d = b := by
      cases d
      cases b
      simp_all
    exact same ▸ hd
  · intro hb
    refine ⟨h.header b.addr, List.mem_map_of_mem hb, ?_⟩
    rw [(rep.headers b hb).header]
    exact ⟨used, rfl, rfl⟩

end List

/-! ## A tiling is determined by its blocks in use -/

section Tiling

variable {a e : Nat} {bs cs : List Block} {b c : Block}

/-- A block of a tiling that begins where the first one does is the first one. -/
theorem Tiles.eq_head (tiles : Tiles a (b :: bs) e) (hc : c ∈ b :: bs) (start : c.addr = a) :
    c = b :=
  tiles.addr_inj hc List.mem_cons_self (start.trans tiles.1.symm)

/-- A free block at the front of a coalesced tiling ends no later than a free block at the front of
another with the same blocks in use: behind it stands a block in use, or nothing. -/
theorem Tiles.front_le (left : Tiles a (b :: bs) e) (apart : Coalesced (b :: bs))
    (right : Tiles a (c :: cs) e) (unusedB : b.used = false) (unusedC : c.used = false)
    (same : ∀ x : Block, x.used = true → x ∈ b :: bs → x ∈ c :: cs) : c.stop ≤ b.stop := by
  cases bs with
  | nil =>
    have stop : b.stop = e := left.2.2
    rw [stop]
    exact right.2.2.le
  | cons d ds =>
    have used : d.used = true := by
      have pair := (List.isChain_cons_cons.mp apart).1
      rw [unusedB] at pair
      exact pair.resolve_left (by decide)
    have mem : d ∈ c :: cs := same d used (by simp)
    rcases List.mem_cons.mp mem with rfl | behind
    · rw [used] at unusedC
      cases unusedC
    · rw [← left.2.2.1]
      exact (right.2.2.bounds behind).1

/-- **Uniqueness.** Two coalesced tilings of the same addresses with the same blocks in use are the
same list. -/
theorem Tiles.eq_of_used (left : Tiles a bs e) (right : Tiles a cs e) (apartL : Coalesced bs)
    (apartR : Coalesced cs) (same : ∀ x : Block, x.used = true → (x ∈ bs ↔ x ∈ cs)) : bs = cs := by
  -- along both lists at once: the front blocks agree, and the rest tiles what they leave
  induction bs generalizing a cs with
  | nil =>
    cases cs with
    | nil => rfl
    | cons c cs =>
      have ends : a = e := left
      have bound := right.bounds List.mem_cons_self
      unfold Block.stop at bound
      omega
  | cons b bs ih =>
    cases cs with
    | nil =>
      have ends : a = e := right
      have bound := left.bounds List.mem_cons_self
      unfold Block.stop at bound
      omega
    | cons c cs =>
      have front : b = c := by
        cases usedB : b.used with
        | true =>
          exact right.eq_head ((same b usedB).mp List.mem_cons_self) left.1
        | false =>
          cases usedC : c.used with
          | true =>
            exact (left.eq_head ((same c usedC).mpr List.mem_cons_self) right.1).symm
          | false =>
            have one := left.front_le apartL right usedB usedC fun x used => (same x used).mp
            have two := right.front_le apartR left usedC usedB fun x used => (same x used).mpr
            have start : b.addr = c.addr := left.1.trans right.1.symm
            have size : b.size = c.size := by
              unfold Block.stop at one two
              omega
            cases b
            cases c
            simp_all
      subst front
      have behind : ∀ {ds : List Block}, Tiles a (b :: ds) e → b ∉ ds := by
        intro ds tiles mem
        have := (tiles.2.2.bounds mem).1
        unfold Block.stop sizeofBlock at this
        omega
      rw [ih left.2.2 right.2.2 apartL.tail apartR.tail]
      intro x used
      have here := same x used
      rw [List.mem_cons, List.mem_cons] at here
      by_cases first : x = b
      · subst first
        exact iff_of_false (behind left) (behind right)
      · simpa [first] using here

end Tiling

/-! ## Every run -/

/-- `free` does not move the break. -/
theorem free_kernelBrk (h : Heap) (p : Nat) : (free h p).kernelBrk = h.kernelBrk := by
  unfold free coalesceForward coalesceBack
  dsimp only
  split
  · split
    · simp
    · simp
  · split
    · simp
    · simp

namespace Served

variable {s s' : Clients} {bs bs' : List Block}

/-- The block list is determined by the break and the blocks in use. -/
theorem blockList_eq (inv : Served s bs) (inv' : Served s' bs')
    (brk : s.heap.kernelBrk = s'.heap.kernelBrk)
    (same : ∀ x : Block, x.used = true → (x ∈ bs ↔ x ∈ bs')) :
    s.heap.blockList = s'.heap.blockList := by
  have tiles := inv.rep.tiles
  rw [inv.rep.base, brk, ← inv'.rep.base] at tiles
  have equal : bs = bs' := tiles.eq_of_used inv'.rep.tiles inv.apart inv'.apart same
  subst equal
  exact inv.rep.blockList_eq inv'.rep

/-- After a live pointer is freed the blocks in use are the others, and the break is as it was. -/
theorem freed {p : Nat} (inv : Served s bs) (allowed : Clients.Allowed (.free p) s) :
    ∃ h' bs', Mm.free s.heap p = h' ∧ Served ⟨h', s.live.filter fun x => x.1 ≠ p⟩ bs' ∧
      h'.kernelBrk = s.heap.kernelBrk ∧
      ∀ c : Block, c.used = true → (c ∈ bs' ↔ c ∈ bs ∧ c.addr + 32 ≠ p) := by
  obtain ⟨n, live⟩ := allowed
  obtain ⟨b, hb, used, start, _⟩ := inv.block _ live
  obtain rfl : p = b.addr + 32 := start
  obtain ⟨xs, ys, split⟩ := List.append_of_mem hb
  rw [← List.singleton_append, ← List.append_assoc] at split
  subst split
  obtain ⟨bs', rep', apart', _, others⟩ := free_spec inv.rep inv.apart
  refine ⟨_, bs', rfl, inv.release rep' apart' others, free_kernelBrk _ _, ?_⟩
  intro c usedC
  rw [others c usedC]
  constructor
  · intro hc
    have nodup := inv.rep.tiles.nodup
    rw [List.append_assoc, List.singleton_append, List.nodup_middle, List.nodup_cons] at nodup
    have old : c ∈ xs ++ [b] ++ ys := by
      rcases List.mem_append.mp hc with hx | hy
      · simp [hx]
      · simp [hy]
    refine ⟨old, fun same => nodup.1 ?_⟩
    exact inv.rep.tiles.addr_inj old hb (by omega) ▸ hc
  · intro ⟨hc, ne⟩
    have other : c ≠ b := by
      rintro rfl
      exact ne rfl
    simpa [other] using hc

/-- Two live pointers can be freed in either order. -/
theorem free_comm {p q : Nat} (inv : Served s bs) (ne : p ≠ q)
    (heldP : Clients.Allowed (.free p) s) (heldQ : Clients.Allowed (.free q) s) :
    (Mm.free (Mm.free s.heap p) q).blockList = (Mm.free (Mm.free s.heap q) p).blockList := by
  have still : ∀ {h' : Heap} {p q : Nat}, p ≠ q → Clients.Allowed (.free q) s →
      Clients.Allowed (.free q) ⟨h', s.live.filter fun x => x.1 ≠ p⟩ := by
    intro h' p q ne held
    obtain ⟨n, live⟩ := held
    exact ⟨n, List.mem_filter.mpr ⟨live, by simpa using ne.symm⟩⟩
  obtain ⟨hP, _, doneP, invP, brkP, usedP⟩ := inv.freed heldP
  obtain ⟨hQ, _, doneQ, invQ, brkQ, usedQ⟩ := inv.freed heldQ
  obtain ⟨hPQ, _, donePQ, invPQ, brkPQ, usedPQ⟩ := invP.freed (still ne heldQ)
  obtain ⟨hQP, _, doneQP, invQP, brkQP, usedQP⟩ := invQ.freed (still ne.symm heldP)
  rw [doneP, donePQ, doneQ, doneQP]
  apply invPQ.blockList_eq invQP
  · exact (brkPQ.trans brkP).trans (brkQP.trans brkQ).symm
  · intro c used
    rw [usedPQ c used, usedP c used, usedQP c used, usedQ c used]
    exact and_right_comm

/-- A block taken without growing the heap leaves no trace once it is freed. -/
theorem kmalloc_free {n p : Nat} {h' : Heap} (inv : Served s bs)
    (allowed : Clients.Allowed (.kmalloc n) s) (done : Mm.kmalloc s.heap n = .ok (p, h'))
    (brk : h'.kernelBrk = s.heap.kernelBrk) : (Mm.free h' p).blockList = s.heap.blockList := by
  rcases kmalloc_spec inv.rep inv.apart allowed.1 allowed.2 with
    ⟨_, msg, failed⟩ | ⟨h₁, bs', b, made, alloc⟩
  · rw [failed] at done
    cases done
  · rw [made] at done
    cases done
    have held : Clients.Allowed (.free (b.addr + 32)) ⟨h', (b.addr + 32, n) :: s.live⟩ :=
      ⟨n, List.mem_cons_self⟩
    obtain ⟨h'', bs'', freed, inv', brk', used'⟩ := (inv.allocate alloc).freed held
    have same : ∀ c : Block, c.used = true → (c ∈ bs'' ↔ c ∈ bs) := by
      intro c used
      rw [used' c used, alloc.others c used]
      constructor
      · intro ⟨mem, ne⟩
        refine mem.resolve_right ?_
        rintro rfl
        exact ne rfl
      · intro old
        refine ⟨.inl old, fun same => alloc.fresh ?_⟩
        have mem : c ∈ bs' := (alloc.others c used).mpr (.inl old)
        exact alloc.rep.tiles.addr_inj mem alloc.mem (by omega) ▸ old
    rw [freed]
    exact inv'.blockList_eq inv (brk'.trans brk) same

end Served

/-- **The shape of the heap.** After any allowed calls the block list reached from `heap_base`, which
ends at `NULL`, is the one of every other run that has come to the same break and the same blocks in
use. Two live pointers freed in either order leave the same list, and a `kmalloc` that has not moved
the break is undone by freeing its result. -/
theorem shape_of_in_use (mem : Bytes) (h₀ : Heap) (init : kmallocInit (unstarted mem) = .ok h₀)
    (s : Clients) (reached : Reach Clients.step Clients.Allowed ⟨h₀, []⟩ s) :
    (∃ c, s.heap.blockList.getLast? = some c ∧ c.next = 0) ∧
    (∀ mem' h₀' s', kmallocInit (unstarted mem') = .ok h₀' →
      Reach Clients.step Clients.Allowed ⟨h₀', []⟩ s' → s.heap.kernelBrk = s'.heap.kernelBrk →
      s.heap.inUseBlocks = s'.heap.inUseBlocks → s.heap.blockList = s'.heap.blockList) ∧
    (∀ p q, p ≠ q → Clients.Allowed (.free p) s → Clients.Allowed (.free q) s →
      (free (free s.heap p) q).blockList = (free (free s.heap q) p).blockList) ∧
    (∀ n p h', Clients.Allowed (.kmalloc n) s → kmalloc s.heap n = .ok (p, h') →
      h'.kernelBrk = s.heap.kernelBrk → (free h' p).blockList = s.heap.blockList) := by
  obtain ⟨bs, inv⟩ := Served.reach init reached
  refine ⟨inv.rep.blockList_last, ?_, ?_, ?_⟩
  · intro mem' h₀' s' init' reached' brk same
    obtain ⟨bs', inv'⟩ := Served.reach init' reached'
    apply inv.blockList_eq inv' brk
    intro x used
    rw [← inv.rep.mem_inUseBlocks used, ← inv'.rep.mem_inUseBlocks used, same]
  · intro p q ne heldP heldQ
    exact inv.free_comm ne heldP heldQ
  · intro n p h' allowed done brk
    exact inv.kmalloc_free allowed done brk

/-- Two allocations freed in either order, and a third one made and undone without `sbrk`. -/
theorem shape_of_in_use_two : ∃ (s : Clients) (p q r : Nat) (h' : Heap),
    s.live = [(q, 200), (p, 100)] ∧ p ≠ q ∧
    (free (free s.heap p) q).blockList = (free (free s.heap q) p).blockList ∧
    kmalloc s.heap 300 = .ok (r, h') ∧ (free h' r).blockList = s.heap.blockList := by
  have sizes : ∀ call ∈ [HeapCall.kmalloc 100, .kmalloc 200], ∀ s, Clients.Allowed call s := by
    intro call mem s
    simp only [List.mem_cons, List.not_mem_nil, or_false] at mem
    rcases mem with rfl | rfl
    · exact ⟨by decide, by decide⟩
    · exact ⟨by decide, by decide⟩
  obtain ⟨s, run, seen⟩ := follow_of_observed Clients.step ⟨zeroedHeap, []⟩
    [.kmalloc 100, .kmalloc 200]
    (fun s => (s.live, (kmalloc s.heap 300).toOption.map fun x =>
      decide (x.2.kernelBrk = s.heap.kernelBrk)))
    ([(18446683600570024100, 200), (18446683600570023968, 100)], some true) (by decide +kernel)
  obtain ⟨live, room⟩ := Prod.mk.inj seen
  obtain ⟨_, _, commute, undone⟩ := shape_of_in_use (fun _ => 0) zeroedHeap kmallocInit_zeroed s
    (Reach.start.of_follow sizes run)
  have heldP : Clients.Allowed (.free 18446683600570023968) s := ⟨100, by simp [live]⟩
  have heldQ : Clients.Allowed (.free 18446683600570024100) s := ⟨200, by simp [live]⟩
  cases third : kmalloc s.heap 300 with
  | error e =>
    rw [third] at room
    cases room
  | ok x =>
    rw [third] at room
    have brk : x.2.kernelBrk = s.heap.kernelBrk := of_decide_eq_true (Option.some.inj room)
    refine ⟨s, _, _, x.1, x.2, live, by decide, commute _ _ (by decide) heldP heldQ, third, ?_⟩
    exact undone 300 x.1 x.2 ⟨by decide, by decide⟩ third brk

end Blackcomb.Mm
