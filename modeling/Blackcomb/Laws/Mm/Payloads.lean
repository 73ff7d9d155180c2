import Blackcomb.Laws.Mm.Areas
import Blackcomb.Laws.Mm.Clients

/-!
# What a client of the heap owns

A kernel function that allocates, copies and frees is a client of the heap. It owns the payloads that
are live and every byte outside the heap's pages. Each of its calls is described by what it does to
the owned bytes: an allocation leaves them alone and adds new ones, `free` leaves them alone, and
writing to them is all that a copy does. `Serves` says of a whole computation that it gives a result
with some property, or that the heap's pages are used up, which does not happen while there is room.
-/

namespace Blackcomb.Mm

open Memory

variable {α β : Type} {room : Prop} {s : Clients} {bs : List Block} {n p : Nat}

/-! ## Computations that may exhaust the heap -/

/-- The computation gives a result with a property, or finds the heap's pages used up; with room for it
they are not. -/
def Serves (room : Prop) (x : Except Fault α) (post : α → Prop) : Prop :=
  (x = .error heapExhausted ∧ ¬ room) ∨ ∃ a, x = .ok a ∧ post a

namespace Serves

variable {x : Except Fault α} {f : α → Except Fault β} {P P' : α → Prop} {Q : β → Prop}

theorem ok {a : α} (h : P a) : Serves room (.ok a) P := .inr ⟨a, rfl, h⟩

theorem imp (h : Serves room x P) (more : ∀ a, P a → P' a) : Serves room x P' :=
  h.imp_right fun ⟨a, ran, post⟩ => ⟨a, ran, more a post⟩

theorem room_mono {room' : Prop} (h : Serves room x P) (more : room' → room) : Serves room' x P :=
  h.imp_left fun ⟨ran, full⟩ => ⟨ran, mt more full⟩

/-- What follows may know which result it follows. -/
theorem bind_eq (h : Serves room x P) (next : ∀ a, x = .ok a → P a → Serves room (f a) Q) :
    Serves room (x >>= f) Q := by
  rcases h with ⟨ran, full⟩ | ⟨a, ran, post⟩
  · rw [ran]
    exact .inl ⟨rfl, full⟩
  · rw [ran]
    exact next a ran post

theorem bind (h : Serves room x P) (next : ∀ a, P a → Serves room (f a) Q) :
    Serves room (x >>= f) Q :=
  h.bind_eq fun a _ => next a

/-- A computation that is known not to exhaust the heap gives its result. -/
theorem run (h : Serves room x P) (held : x ≠ .error heapExhausted) : ∃ a, x = .ok a ∧ P a :=
  h.resolve_left fun failed => held failed.1

end Serves

/-! ## Owned bytes -/

/-- The bytes that a client may read and write. -/
def Clients.Owns (s : Clients) (a : Nat) : Prop :=
  (∃ x ∈ s.live, x.1 ≤ a ∧ a < x.1 + x.2) ∨ a < kernelBrkStart ∨ kernelBrkStart + heapBytes ≤ a

/-- A free block serves a request for `n` bytes. -/
def Ready (n : Nat) (bs : List Block) : Prop := ∃ b ∈ bs, Fits n b

/-- A free block that serves a request can be cut for a smaller one. -/
theorem Ready.smaller {k : Nat} (ready : Ready n bs) (less : k + 32 ≤ n) : Ready k bs := by
  obtain ⟨b, mem, free, size⟩ := ready
  exact ⟨b, mem, free, .inr (by omega)⟩

/-- An owned byte is in no header, also not in one of a list that still has the blocks in use. -/
theorem Served.owned_outside {h' : Heap} {bs' : List Block} {a : Nat} (inv : Served s bs)
    (rep : Rep h' bs') (sub : ∀ b ∈ bs, b.used = true → b ∈ bs') (owns : s.Owns a) :
    ∀ b ∈ bs'.map Block.addr, a < b ∨ b + 32 ≤ a := by
  intro addr mem
  obtain ⟨c, hc, rfl⟩ := List.mem_map.mp mem
  obtain ⟨low, _, high, top⟩ := rep.bounds hc
  rcases owns with ⟨x, hx, first, last⟩ | below | above
  · obtain ⟨b, hb, used, start, size⟩ := inv.block x hx
    have := Served.payload_outside rep (sub b hb used) hc start size
    omega
  · rw [kernelBrkStart] at below
    omega
  · simp only [kernelBrkStart, heapBytes, kernelBrkPages, pageSize] at above
    omega

/-- What an allocation of `n` bytes at `p` has done. -/
structure Allotted (s : Clients) (bs : List Block) (n p : Nat) (h' : Heap) : Prop where
  served : ∃ bs', Served ⟨h', (p, n) :: s.live⟩ bs'
  kept : ∀ a, s.Owns a → h'.mem a = s.heap.mem a
  low : kernelBrkStart < p
  high : p + n ≤ kernelBrkStart + heapBytes
  brk : h'.kernelBrk ≤ s.heap.kernelBrk + 32 + n
  still : Ready n bs → h'.kernelBrk = s.heap.kernelBrk

/-- There is room for a request: a free block, or bytes behind the break. -/
def Room (s : Clients) (bs : List Block) (n : Nat) : Prop :=
  Ready n bs ∨ s.heap.kernelBrk + 32 + n < kernelBrkStart + heapBytes

theorem Served.serves_kmalloc (inv : Served s bs) (pos : 0 < n) (fits : n < 2 ^ 39) :
    Serves (Room s bs n) (Mm.kmalloc s.heap n) fun r => Allotted s bs n r.1 r.2 := by
  rcases kmalloc_cases inv.rep inv.apart pos fits with
    ⟨none, full, failed⟩ | ⟨h', bs', b, done, alloc, brk⟩
  · refine .inl ⟨failed, ?_⟩
    rintro (⟨b, hb, fit⟩ | room)
    · exact none b hb fit
    · omega
  · refine .inr ⟨(b.addr + 32, h'), done, ⟨bs', inv.allocate alloc⟩, ?_, ?_, ?_, ?_, ?_⟩
    · intro a owns
      apply alloc.touches
      exact inv.owned_outside alloc.rep (fun c hc used => (alloc.others c used).mpr (.inl hc)) owns
    · have := (alloc.rep.bounds alloc.mem).1
      rw [kernelBrkStart]
      omega
    · obtain ⟨_, _, high, top⟩ := alloc.rep.bounds alloc.mem
      have := alloc.size
      simp only [kernelBrkStart, heapBytes, kernelBrkPages, pageSize]
      omega
    · show h'.kernelBrk ≤ _
      rcases brk with ⟨_, same⟩ | ⟨_, grown⟩ <;> omega
    · rintro ⟨c, hc, fit⟩
      exact (brk.resolve_right fun grown => grown.1 c hc fit).2

/-- A request that is served had room. -/
theorem Served.room_of_kmalloc {r : Nat × Heap} (inv : Served s bs) (pos : 0 < n) (fits : n < 2 ^ 39)
    (done : Mm.kmalloc s.heap n = .ok r) : Room s bs n := by
  rcases kmalloc_cases inv.rep inv.apart pos fits with
    ⟨_, _, failed⟩ | ⟨h', bs', b, done', alloc, brk⟩
  · rw [failed] at done
    cases done
  · rcases brk with ⟨ready, _⟩ | ⟨_, grown⟩
    · exact .inl ready
    · have limit := alloc.rep.limit
      exact .inr (by omega)

/-- A newly allocated byte was not owned. -/
theorem Allotted.fresh {h' : Heap} {a : Nat} (allotted : Allotted s bs n p h') (low : p ≤ a)
    (high : a < p + n) : ¬ s.Owns a := by
  obtain ⟨bs', inv⟩ := allotted.served
  have := allotted.low
  have := allotted.high
  rintro (⟨x, hx, first, last⟩ | below | above)
  · have := List.rel_of_pairwise_cons inv.disjoint hx
    dsimp only at this
    omega
  · omega
  · omega

/-- Owning is having among the live payloads, so the owner of more payloads owns more. -/
theorem Clients.Owns.mono {s' : Clients} {a : Nat} (owns : s.Owns a) (sub : s.live ⊆ s'.live) :
    s'.Owns a :=
  owns.imp_left fun ⟨x, hx, inside⟩ => ⟨x, sub hx, inside⟩

/-- The latest payload is owned. -/
theorem Clients.owns_head (h : Heap) (live : List (Nat × Nat)) :
    ∀ i < n, Clients.Owns ⟨h, (p, n) :: live⟩ (p + i) := by
  intro i lt
  exact .inl ⟨_, List.mem_cons_self, Nat.le_add_right _ _, Nat.add_lt_add_left lt p⟩

/-- What was owned before an allocation is owned after it. -/
theorem Clients.Owns.cons {a : Nat} (owns : s.Owns a) (h : Heap) (x : Nat × Nat) :
    Clients.Owns ⟨h, x :: s.live⟩ a :=
  owns.mono fun _ mem => List.mem_cons_of_mem _ mem

/-- Writing to owned bytes leaves the heap in order. -/
theorem Served.rewrite {m : Bytes} (inv : Served s bs)
    (only : ∀ a, ¬ s.Owns a → m a = s.heap.mem a) :
    Served ⟨{ s.heap with mem := m }, s.live⟩ bs := by
  refine ⟨inv.rep.congr rfl rfl ?_, inv.apart, inv.block, inv.owner, inv.nodup⟩
  intro b hb a low high
  apply only
  intro owns
  have := inv.owned_outside inv.rep (fun c hc _ => hc) owns b.addr (List.mem_map_of_mem hb)
  omega

/-- Freeing what was allocated last but for writes to owned bytes. -/
theorem Served.frees {h : Heap} {live : List (Nat × Nat)} (inv : Served ⟨h, (p, n) :: live⟩ bs) :
    ∃ bs', Served ⟨Mm.free h p, live⟩ bs' ∧ Ready n bs' ∧
      (∀ a, Clients.Owns ⟨h, (p, n) :: live⟩ a → (Mm.free h p).mem a = h.mem a) ∧
      (Mm.free h p).kernelBrk = h.kernelBrk := by
  have mem : (p, n) ∈ (⟨h, (p, n) :: live⟩ : Clients).live := List.mem_cons_self
  obtain ⟨b, hb, _, start, size⟩ := inv.block _ mem
  obtain rfl : p = b.addr + 32 := start
  obtain ⟨xs, ys, split⟩ := List.append_of_mem hb
  rw [← List.singleton_append, ← List.append_assoc] at split
  subst split
  have rep : Rep h (xs ++ [b] ++ ys) := inv.rep
  obtain ⟨bs', rep', apart', touches, others, c, hc, unused, larger⟩ := free_gives rep inv.apart
  have rest : (((b.addr + 32, n) :: live).filter fun x => x.1 ≠ b.addr + 32) = live := by
    have fresh := (List.nodup_cons.mp inv.nodup).1
    rw [List.filter_cons_of_neg (by simp)]
    apply List.filter_eq_self.mpr
    intro x hx
    have : x.1 ≠ b.addr + 32 := fun same => fresh (List.mem_map.mpr ⟨x, hx, same⟩)
    simpa using this
  have released := inv.release rep' apart' others
  rw [rest] at released
  refine ⟨bs', released, ⟨c, hc, unused, ?_⟩, ?_, kernelBrk_free _ _⟩
  · dsimp only at size
    omega
  · intro a owns
    have out := inv.owned_outside rep (fun c hc _ => hc) owns
    exact touches a out

/-- The order of the live payloads says nothing about the heap. -/
theorem Served.perm {h : Heap} {live live' : List (Nat × Nat)} (inv : Served ⟨h, live⟩ bs)
    (same : live.Perm live') : Served ⟨h, live'⟩ bs where
  rep := inv.rep
  apart := inv.apart
  block := fun x hx => inv.block x (same.mem_iff.mpr hx)
  owner := by
    intro b hb used
    obtain ⟨n, live⟩ := inv.owner b hb used
    exact ⟨n, same.mem_iff.mp live⟩
  nodup := (same.map Prod.fst).nodup_iff.mp inv.nodup

/-- `kcalloc` allocates as `kmalloc` does. -/
theorem Served.serves_kcalloc (inv : Served s bs) (pos : 0 < n) (fits : n < 2 ^ 39) :
    Serves (Room s bs n) (kcalloc s.heap 1 n) fun r => Allotted s bs n r.1 r.2 := by
  have size : 1 * n % 2 ^ 64 = n := by omega
  unfold kcalloc
  simp only [size]
  refine (inv.serves_kmalloc pos fits).bind ?_
  intro r allotted
  obtain ⟨p, h⟩ := r
  have outside : ∀ a, ¬ (p ≤ a ∧ a < p + n) → memset h.mem p 0 n a = h.mem a := by
    intro a out
    rw [memset_apply, if_neg out]
  obtain ⟨bs', inv'⟩ := allotted.served
  apply Serves.ok
  constructor
  case served =>
    refine ⟨bs', inv'.rewrite ?_⟩
    intro a not
    apply outside
    exact fun here => not (.inl ⟨_, List.mem_cons_self, here⟩)
  case kept =>
    intro a owns
    refine (outside a ?_).trans (allotted.kept a owns)
    exact fun here => allotted.fresh here.1 here.2 owns
  case low => exact allotted.low
  case high => exact allotted.high
  case brk => exact allotted.brk
  case still => exact allotted.still

/-! ## A heap to begin with -/

/-- The first pages are not the heap's. -/
theorem owns_below (s : Clients) {a : Nat} (low : a < 65536) : s.Owns a :=
  .inr (.inl (by rw [kernelBrkStart]; omega))

/-- A heap in which nothing is live yet. -/
theorem fresh_heap : ∃ (s : Clients) (bs : List Block), Served s bs ∧
    s.heap.kernelBrk + 65536 < kernelBrkStart + heapBytes := by
  obtain ⟨h₀, init, _⟩ := kmallocInit_spec fun _ => 0
  have started := Served.start init
  have brk : h₀.kernelBrk = kernelBrkStart + initHeapSize := started.rep.tiles.2.2.symm
  refine ⟨_, _, started, ?_⟩
  rw [brk]
  decide

end Blackcomb.Mm
