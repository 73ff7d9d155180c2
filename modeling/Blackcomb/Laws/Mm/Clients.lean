import Mathlib.Data.List.Nodup
import Blackcomb.Lib.Run
import Blackcomb.Laws.Mm.Kmalloc

/-!
# The kernel heap under its clients

The invariant of the heap with the pointers its clients hold: the blocks tile the heap, no two
neighbours are free, and the blocks in use are the live allocations. From it, over every sequence of
calls: the representation invariant (`heap_tiled`) and what clients may rely on (`payloads_safe`).

**What it does not establish.** A client frees what it was given, once, and writes inside it. Of a
client that does not, nothing is said; nor is the panic of an exhausted heap excluded.
-/

namespace Blackcomb.Mm

open Memory Chain Run

/-- The blocks in use are exactly the live allocations, each of the size asked for or one header
more. -/
structure Served (s : Clients) (bs : List Block) : Prop where
  rep : Rep s.heap bs
  apart : Coalesced bs
  block : ∀ x ∈ s.live, ∃ b ∈ bs, b.used = true ∧ x.1 = b.addr + 32 ∧
    (b.size = x.2 ∨ b.size = x.2 + 32)
  owner : ∀ b ∈ bs, b.used = true → ∃ n, (b.addr + 32, n) ∈ s.live
  nodup : (s.live.map Prod.fst).Nodup

/-- The representation reads only the headers. -/
theorem Rep.congr {h h' : Heap} {bs : List Block} (rep : Rep h bs)
    (base : h'.heapBase = h.heapBase) (brk : h'.kernelBrk = h.kernelBrk)
    (same : ∀ b ∈ bs, ∀ a, b.addr ≤ a → a < b.addr + 32 → h'.mem a = h.mem a) : Rep h' bs := by
  have get : ∀ b ∈ bs, ∀ f, h'.get f b.addr = h.get f b.addr := by
    intro b hb f
    apply load_congr
    intro a low high
    apply same b hb
    · omega
    · cases f <;> simp [Field.offset, Field.width] at high <;> omega
  constructor
  case base => exact base.trans rep.base
  case nonempty => exact rep.nonempty
  case tiles => rw [base, brk]; exact rep.tiles
  case limit => rw [brk]; exact rep.limit
  case headers =>
    intro b hb
    exact ⟨(get b hb .size).trans (rep.headers b hb).size,
      by rw [get b hb]; exact (rep.headers b hb).used⟩
  case links => exact rep.links.congr fun b hb => ⟨get b hb .next, get b hb .prev⟩

namespace Served

variable {s s' : Clients} {bs : List Block}

/-- A live payload overlaps no header, also not one of a later list that still has its block. -/
theorem payload_outside {h : Heap} (rep : Rep h bs) {b c : Block} {x : Nat × Nat} (hb : b ∈ bs)
    (hc : c ∈ bs) (start : x.1 = b.addr + 32) (size : b.size = x.2 ∨ b.size = x.2 + 32) :
    x.1 + x.2 ≤ c.addr ∨ c.addr + 32 ≤ x.1 := by
  by_cases same : b = c
  · subst same
    omega
  · have := rep.tiles.apart hb hc same
    simp only [Block.stop, sizeofBlock] at this
    omega

/-- Two live payloads do not overlap. -/
theorem disjoint (inv : Served s bs) :
    s.live.Pairwise fun x y => x.1 + x.2 ≤ y.1 ∨ y.1 + y.2 ≤ x.1 := by
  refine (List.pairwise_map.mp inv.nodup).imp_of_mem ?_
  intro x y hx hy ne
  obtain ⟨b, hb, _, startX, sizeX⟩ := inv.block x hx
  obtain ⟨c, hc, _, startY, sizeY⟩ := inv.block y hy
  have other : b ≠ c := by
    rintro rfl
    omega
  have := inv.rep.tiles.apart hb hc other
  simp only [Block.stop, sizeofBlock] at this
  omega

theorem kmalloc {n : Nat} (inv : Served s bs) (allowed : Clients.Allowed (.kmalloc n) s) :
    ((∀ b ∈ bs, ¬ Fits n b) ∧ ∃ msg, Clients.step (.kmalloc n) s = .error (.panic msg)) ∨
      ∃ h' bs' b, Clients.step (.kmalloc n) s = .ok ⟨h', (b.addr + 32, n) :: s.live⟩ ∧
        Allocates n s.heap bs h' bs' b := by
  have call : Clients.step (.kmalloc n) s =
      (Mm.kmalloc s.heap n >>= fun r => .ok ⟨r.2, (r.1, n) :: s.live⟩) := rfl
  rw [call]
  rcases kmalloc_spec inv.rep inv.apart allowed.1 allowed.2 with
    ⟨none, msg, failed⟩ | ⟨h', bs', b, done, alloc⟩
  · rw [failed]
    exact .inl ⟨none, msg, rfl⟩
  · rw [done]
    exact .inr ⟨h', bs', b, rfl, alloc⟩

/-- The invariant after an allocation. -/
theorem allocate {n : Nat} {h' : Heap} {bs' : List Block} {b : Block} (inv : Served s bs)
    (alloc : Allocates n s.heap bs h' bs' b) : Served ⟨h', (b.addr + 32, n) :: s.live⟩ bs' where
  rep := alloc.rep
  apart := alloc.apart
  block := by
    intro x hx
    rcases List.mem_cons.mp hx with rfl | hx
    · exact ⟨b, alloc.mem, alloc.used, rfl, alloc.size⟩
    · obtain ⟨c, hc, used, start, size⟩ := inv.block x hx
      exact ⟨c, (alloc.others c used).mpr (.inl hc), used, start, size⟩
  owner := by
    intro c hc used
    rcases (alloc.others c used).mp hc with old | rfl
    · obtain ⟨k, live⟩ := inv.owner c old used
      exact ⟨k, List.mem_cons_of_mem _ live⟩
    · exact ⟨n, List.mem_cons_self⟩
  nodup := by
    refine List.nodup_cons.mpr ⟨?_, inv.nodup⟩
    intro mem
    obtain ⟨x, hx, same⟩ := List.mem_map.mp mem
    obtain ⟨c, hc, used, start, _⟩ := inv.block x hx
    have hc' : c ∈ bs' := (alloc.others c used).mpr (.inl hc)
    have : c = b := alloc.rep.tiles.addr_inj hc' alloc.mem (by simp only at same; omega)
    exact alloc.fresh (this ▸ hc)

/-- The invariant after a block in use has become free. -/
theorem release {h' : Heap} {bs' xs ys : List Block} {b : Block} (inv : Served s (xs ++ [b] ++ ys))
    (rep' : Rep h' bs') (apart' : Coalesced bs')
    (others : ∀ c, c.used = true → (c ∈ bs' ↔ c ∈ xs ++ ys)) :
    Served ⟨h', s.live.filter fun x => x.1 ≠ b.addr + 32⟩ bs' := by
  have tiles := inv.rep.tiles
  have hb : b ∈ xs ++ [b] ++ ys := by simp
  have rest : ∀ c ∈ xs ++ ys, c ∈ xs ++ [b] ++ ys ∧ c ≠ b := by
    intro c hc
    have nodup := tiles.nodup
    rw [List.append_assoc, List.singleton_append, List.nodup_middle, List.nodup_cons] at nodup
    refine ⟨?_, fun same => nodup.1 (same ▸ hc)⟩
    rcases List.mem_append.mp hc with hx | hy
    · simp [hx]
    · simp [hy]
  refine ⟨rep', apart', ?_, ?_, ?_⟩
  · intro x hx
    obtain ⟨hx, ne⟩ := List.mem_filter.mp hx
    obtain ⟨c, hc, usedC, startC, sizeC⟩ := inv.block x hx
    refine ⟨c, (others c usedC).mpr ?_, usedC, startC, sizeC⟩
    have other : c ≠ b := by
      rintro rfl
      simp [startC] at ne
    simpa [other] using hc
  · intro c hc usedC
    obtain ⟨old, other⟩ := rest c ((others c usedC).mp hc)
    obtain ⟨k, liveC⟩ := inv.owner c old usedC
    refine ⟨k, List.mem_filter.mpr ⟨liveC, ?_⟩⟩
    have ne : c.addr ≠ b.addr := fun same => other (tiles.addr_inj old hb same)
    simp only [decide_eq_true_eq]
    omega
  · exact inv.nodup.sublist (List.filter_sublist.map _)

/-- The heap after a live pointer is freed. -/
theorem free {p : Nat} (inv : Served s bs) (allowed : Clients.Allowed (.free p) s) :
    ∃ h' bs', Clients.step (.free p) s = .ok ⟨h', s.live.filter fun x => x.1 ≠ p⟩ ∧
      Served ⟨h', s.live.filter fun x => x.1 ≠ p⟩ bs' ∧
      Touches (bs.map Block.addr) s.heap h' := by
  obtain ⟨n, live⟩ := allowed
  obtain ⟨b, hb, used, start, _⟩ := inv.block _ live
  obtain rfl : p = b.addr + 32 := start
  obtain ⟨xs, ys, split⟩ := List.append_of_mem hb
  rw [← List.singleton_append, ← List.append_assoc] at split
  subst split
  obtain ⟨bs', rep', apart', touches, others⟩ := free_spec inv.rep inv.apart
  exact ⟨_, bs', rfl, inv.release rep' apart' others, touches⟩

/-- A write inside a payload changes no header. -/
theorem write {a : Nat} {byte : BitVec 8} (inv : Served s bs)
    (allowed : Clients.Allowed (.write a byte) s) :
    Served { s with heap := { s.heap with mem := Function.update s.heap.mem a byte } } bs := by
  obtain ⟨p, n, live, low, high⟩ := allowed
  obtain ⟨b, hb, _, start, size⟩ := inv.block _ live
  refine ⟨inv.rep.congr rfl rfl ?_, inv.apart, inv.block, inv.owner, inv.nodup⟩
  intro c hc x first last
  have := payload_outside inv.rep hb hc start size
  simp only at this
  exact Function.update_of_ne (by omega) _ _

theorem step {call : HeapCall} (inv : Served s bs) (allowed : Clients.Allowed call s)
    (h : Clients.step call s = .ok s') : ∃ bs', Served s' bs' := by
  cases call with
  | kmalloc n =>
    rcases inv.kmalloc allowed with ⟨_, msg, failed⟩ | ⟨h', bs', b, done, alloc⟩
    · rw [failed] at h
      cases h
    · rw [done] at h
      cases h
      exact ⟨bs', inv.allocate alloc⟩
  | free p =>
    obtain ⟨h', bs', done, inv', _⟩ := inv.free allowed
    rw [done] at h
    cases h
    exact ⟨bs', inv'⟩
  | write a byte =>
    rw [← Except.ok.inj h]
    exact ⟨bs, inv.write allowed⟩

end Served

/-! ## Every run -/

/-- The heap before `kmalloc_init`: `kernel_brk` as it is linked, and any bytes in its pages. -/
def unstarted (mem : Bytes) : Heap := ⟨mem, 0, kernelBrkStart⟩

/-- `kmalloc_init` leaves one free block. -/
theorem kmallocInit_spec (mem : Bytes) : ∃ h, kmallocInit (unstarted mem) = .ok h ∧
    Rep h [⟨kernelBrkStart, initHeapSize - sizeofBlock, false⟩] := by
  have grown : sbrk (unstarted mem) initHeapSize =
      .ok (kernelBrkStart, ⟨mem, 0, kernelBrkStart + initHeapSize⟩) := by
    simp [sbrk, unstarted, add64, sub64, kernelBrkStart, kernelBrkPages, initHeapSize, pageSize]
  unfold kmallocInit
  rw [grown]
  refine ⟨_, rfl, ?_⟩
  constructor
  case base => rfl
  case nonempty => simp
  case tiles =>
    refine ⟨rfl, by decide, ?_⟩
    rfl
  case limit =>
    show kernelBrkStart + initHeapSize < kernelBrkStart + heapBytes
    decide
  case headers =>
    intro b hb
    obtain rfl := List.mem_singleton.mp hb
    constructor
    · simp [Heap.get_set_same, Field.width, initHeapSize, pageSize, sizeofBlock]
    · simp [Heap.get_set_same, Field.width]
  case links =>
    refine ⟨?_, ?_, trivial⟩
    · simp [Heap.prevOf, Heap.get_set_same, Field.width]
    · simp [Heap.nextOf, Heap.get_set_same, Field.width]

/-- The invariant after `kmalloc_init`. -/
theorem Served.start {mem : Bytes} {h₀ : Heap} (init : kmallocInit (unstarted mem) = .ok h₀) :
    Served ⟨h₀, []⟩ [⟨kernelBrkStart, initHeapSize - sizeofBlock, false⟩] := by
  obtain ⟨h, started, rep⟩ := kmallocInit_spec mem
  obtain rfl : h = h₀ := Except.ok.inj (started.symm.trans init)
  refine ⟨rep, List.isChain_singleton _, by simp, ?_, List.nodup_nil⟩
  intro b hb used
  obtain rfl := List.mem_singleton.mp hb
  cases used

/-- The invariant in every state of every run of allowed calls. -/
theorem Served.reach {mem : Bytes} {h₀ : Heap} {s : Clients}
    (init : kmallocInit (unstarted mem) = .ok h₀)
    (reached : Reach Clients.step Clients.Allowed ⟨h₀, []⟩ s) : ∃ bs, Served s bs := by
  refine reached.invariant (fun s => ∃ bs, Served s bs) ?_ ?_
  · exact ⟨_, Served.start init⟩
  · intro call s s' ⟨bs, inv⟩ allowed taken
    exact inv.step allowed taken

/-- A block whose header `kmalloc` and `free` come to by following `next` from `heap_base`. -/
inductive Heap.Reaches (h : Heap) : Nat → Prop
  | base : h.Reaches h.heapBase
  | next {b : Nat} : h.Reaches b → h.get .next b ≠ 0 → h.Reaches (h.get .next b)

/-- The headers reached are those of the list. -/
theorem Rep.reaches {h : Heap} {bs : List Block} (rep : Rep h bs) {a : Nat} (reached : h.Reaches a) :
    ∃ b ∈ bs, b.addr = a := by
  induction reached with
  | base =>
    obtain ⟨b, bs', rfl⟩ := List.exists_cons_of_ne_nil rep.nonempty
    exact ⟨b, List.mem_cons_self, rep.tiles.1⟩
  | next _ ne ih =>
    obtain ⟨b, hb, rfl⟩ := ih
    obtain ⟨xs, ys, rfl⟩ := List.append_of_mem hb
    have link : h.get .next b.addr = link ys.head? :=
      (Rep.neighbours (b := b) (by simpa using rep)).1
    rw [link] at ne ⊢
    obtain ⟨c, hc, same⟩ := List.mem_map.mp (link_head_mem ne)
    exact ⟨c, by simp [hc], same⟩

/-- The heap that `kmalloc_init` makes of zeroed pages. -/
def zeroedHeap : Heap :=
  (kmallocInit (unstarted fun _ => 0)).toOption.getD (unstarted fun _ => 0)

theorem kmallocInit_zeroed : kmallocInit (unstarted fun _ => 0) = .ok zeroedHeap := by
  obtain ⟨h, started, _⟩ := kmallocInit_spec fun _ => 0
  unfold zeroedHeap
  rw [started]
  rfl

/-- Three payloads are allocated and the first is freed: the run on which the results below are not
vacuous. -/
theorem exists_freed : ∃ s, Reach Clients.step Clients.Allowed ⟨zeroedHeap, []⟩ s ∧
    s.live = [(18446683600570024332, 300), (18446683600570024100, 200)] := by
  have sizes : ∀ call ∈ [HeapCall.kmalloc 100, .kmalloc 200, .kmalloc 300],
      ∀ s, Clients.Allowed call s := by
    intro call mem s
    simp only [List.mem_cons, List.not_mem_nil, or_false] at mem
    rcases mem with rfl | rfl | rfl
    · exact ⟨by decide, by decide⟩
    · exact ⟨by decide, by decide⟩
    · exact ⟨by decide, by decide⟩
  obtain ⟨s, run, live⟩ := follow_of_observed Clients.step ⟨zeroedHeap, []⟩
    [.kmalloc 100, .kmalloc 200, .kmalloc 300] Clients.live
    [(18446683600570024332, 300), (18446683600570024100, 200), (18446683600570023968, 100)]
    (by decide +kernel)
  have reached : Reach Clients.step Clients.Allowed ⟨zeroedHeap, []⟩ s := Reach.start.of_follow sizes run
  obtain ⟨bs, inv⟩ := Served.reach kmallocInit_zeroed reached
  have held : Clients.Allowed (.free 18446683600570023968) s := ⟨100, by simp [live]⟩
  obtain ⟨h', _, freed, _⟩ := inv.free held
  refine ⟨_, reached.step held freed, ?_⟩
  simp [live]

/-- **Heap representation.** After any allowed calls the list of blocks tiles the heap exactly from
`heap_base` to the break, linked both ways with `NULL` at its ends, every block with a payload, and no
two neighbours free; the break stays in the heap's pages. When nothing is live the list is one free
block over the whole heap. -/
theorem heap_tiled (mem : Bytes) (h₀ : Heap) (init : kmallocInit (unstarted mem) = .ok h₀)
    (s : Clients) (reached : Reach Clients.step Clients.Allowed ⟨h₀, []⟩ s) :
    ∃ bs : List Block, bs ≠ [] ∧ Tiles s.heap.heapBase bs s.heap.kernelBrk ∧
      Seg link s.heap.nextOf s.heap.prevOf none bs none ∧
      (∀ b ∈ bs, Holds s.heap b ∧ 0 < b.size) ∧
      (bs.IsChain fun a b => a.used = true ∨ b.used = true) ∧
      s.heap.heapBase = kernelBrkStart ∧
      s.heap.kernelBrk < kernelBrkStart + kernelBrkPages * pageSize ∧
      (s.live = [] → ∃ b, bs = [b] ∧ b.used = false ∧ b.addr = s.heap.heapBase ∧
        b.addr + sizeofBlock + b.size = s.heap.kernelBrk) := by
  obtain ⟨bs, inv⟩ := Served.reach init reached
  have rep := inv.rep
  refine ⟨bs, rep.nonempty, rep.tiles, rep.links,
    fun b hb => ⟨rep.headers b hb, (rep.bounds hb).2.1⟩, inv.apart, rep.base, rep.limit,
    fun empty => ?_⟩
  have unused : ∀ b ∈ bs, b.used = false := by
    intro b hb
    by_contra used
    obtain ⟨n, live⟩ := inv.owner b hb (by simpa using used)
    rw [empty] at live
    cases live
  have apart := inv.apart
  have tiles := rep.tiles
  match bs, rep.nonempty with
  | [b], _ => exact ⟨b, rfl, unused b (by simp), tiles.1, tiles.2.2⟩
  | a :: b :: bs, _ =>
    have := (List.isChain_cons_cons.mp apart).1
    rw [unused a (by simp), unused b (by simp)] at this
    simp at this

/-- The heap with a free block between its start and two payloads, over zeroed pages. -/
theorem heap_tiled_freed : ∃ s, Reach Clients.step Clients.Allowed ⟨zeroedHeap, []⟩ s ∧
    s.live = [(18446683600570024332, 300), (18446683600570024100, 200)] ∧
    ∃ bs : List Block, Tiles s.heap.heapBase bs s.heap.kernelBrk ∧
      Seg link s.heap.nextOf s.heap.prevOf none bs none ∧
      bs.IsChain fun a b => a.used = true ∨ b.used = true := by
  obtain ⟨s, reached, live⟩ := exists_freed
  obtain ⟨bs, _, tiles, links, _, apart, _⟩ := heap_tiled (fun _ => 0) zeroedHeap kmallocInit_zeroed s reached
  exact ⟨s, reached, live, bs, tiles, links, apart⟩

/-- **Heap clients.** After any allowed calls the live payloads are pairwise disjoint, lie inside the
heap, overlap no header reached from `heap_base`, and have blocks of the size asked for or one header
more; the next `kmalloc` or `free` changes no byte of a live payload but the one it frees. -/
theorem payloads_safe (mem : Bytes) (h₀ : Heap) (init : kmallocInit (unstarted mem) = .ok h₀)
    (s : Clients) (reached : Reach Clients.step Clients.Allowed ⟨h₀, []⟩ s) :
    (s.live.Pairwise fun x y => x.1 + x.2 ≤ y.1 ∨ y.1 + y.2 ≤ x.1) ∧
    (∀ x ∈ s.live, s.heap.heapBase ≤ x.1 ∧ x.1 + x.2 ≤ s.heap.kernelBrk) ∧
    (∀ x ∈ s.live, ∀ b, s.heap.Reaches b → x.1 + x.2 ≤ b ∨ b + sizeofBlock ≤ x.1) ∧
    (∀ x ∈ s.live, s.heap.get .size (x.1 - sizeofBlock) = x.2 ∨
      s.heap.get .size (x.1 - sizeofBlock) = x.2 + sizeofBlock) ∧
    (∀ n s', Clients.Allowed (.kmalloc n) s → Clients.step (.kmalloc n) s = .ok s' →
      ∀ x ∈ s.live, ∀ a, x.1 ≤ a → a < x.1 + x.2 → s'.heap.mem a = s.heap.mem a) ∧
    (∀ p s', Clients.Allowed (.free p) s → Clients.step (.free p) s = .ok s' →
      ∀ x ∈ s.live, ∀ a, x.1 ≠ p → x.1 ≤ a → a < x.1 + x.2 → s'.heap.mem a = s.heap.mem a) ∧
    (∀ call, Clients.Allowed call s → (∃ s', Clients.step call s = .ok s') ∨
      ∃ msg, Clients.step call s = .error (.panic msg)) := by
  obtain ⟨bs, inv⟩ := Served.reach init reached
  have rep := inv.rep
  refine ⟨inv.disjoint, fun x hx => ?_, fun x hx b hb => ?_, fun x hx => ?_, ?_, ?_, ?_⟩
  · obtain ⟨b, hb, _, start, size⟩ := inv.block x hx
    obtain ⟨low, _, high, _⟩ := rep.bounds hb
    rw [rep.base, kernelBrkStart]
    omega
  · obtain ⟨c, hc, _, start, size⟩ := inv.block x hx
    obtain ⟨d, hd, rfl⟩ := rep.reaches hb
    exact Served.payload_outside rep hc hd start size
  · obtain ⟨b, hb, _, start, size⟩ := inv.block x hx
    rw [start, sizeofBlock, Nat.add_sub_cancel, (rep.headers b hb).size]
    exact size
  · intro n s' allowed taken x hx a low high
    rcases inv.kmalloc allowed with ⟨_, msg, failed⟩ | ⟨h', bs', b, done, alloc⟩
    · rw [failed] at taken
      cases taken
    · rw [done] at taken
      cases taken
      obtain ⟨c, hc, used, start, size⟩ := inv.block x hx
      apply alloc.touches a
      intro addr mem
      obtain ⟨d, hd, rfl⟩ := List.mem_map.mp mem
      have := Served.payload_outside alloc.rep ((alloc.others c used).mpr (.inl hc)) hd start size
      omega
  · intro p s' allowed taken x hx a _ low high
    obtain ⟨h', _, done, _, touches⟩ := inv.free allowed
    rw [done] at taken
    cases taken
    obtain ⟨c, hc, used, start, size⟩ := inv.block x hx
    apply touches a
    intro addr mem
    obtain ⟨d, hd, rfl⟩ := List.mem_map.mp mem
    have := Served.payload_outside rep hc hd start size
    omega
  · intro call allowed
    cases call with
    | kmalloc n =>
      rcases inv.kmalloc allowed with ⟨_, msg, failed⟩ | ⟨h', bs', b, done, _⟩
      · exact .inr ⟨msg, failed⟩
      · exact .inl ⟨_, done⟩
    | free p =>
      obtain ⟨_, _, done, _⟩ := inv.free allowed
      exact .inl ⟨_, done⟩
    | write a byte => exact .inl ⟨_, rfl⟩

/-- Two payloads are apart, inside the heap and off its headers, and freeing the one changes no byte of the
other. -/
theorem payloads_safe_freed : ∃ s, Reach Clients.step Clients.Allowed ⟨zeroedHeap, []⟩ s ∧
    s.live = [(18446683600570024332, 300), (18446683600570024100, 200)] ∧
    (∀ x ∈ s.live, s.heap.heapBase ≤ x.1 ∧ x.1 + x.2 ≤ s.heap.kernelBrk) ∧
    (∀ x ∈ s.live, ∀ b, s.heap.Reaches b → x.1 + x.2 ≤ b ∨ b + sizeofBlock ≤ x.1) ∧
    ∃ s', Clients.step (.free 18446683600570024332) s = .ok s' ∧
      ∀ a, 18446683600570024100 ≤ a → a < 18446683600570024300 → s'.heap.mem a = s.heap.mem a := by
  obtain ⟨s, reached, live⟩ := exists_freed
  have held : Clients.Allowed (.free 18446683600570024332) s := ⟨300, by simp [live]⟩
  have other : (18446683600570024100, 200) ∈ s.live := by simp [live]
  obtain ⟨_, inside, headers, _, _, kept, _⟩ :=
    payloads_safe (fun _ => 0) zeroedHeap kmallocInit_zeroed s reached
  obtain ⟨bs, inv⟩ := Served.reach kmallocInit_zeroed reached
  obtain ⟨h', _, freed, _⟩ := inv.free held
  refine ⟨s, reached, live, inside, headers, _, freed, fun a low high => ?_⟩
  exact kept _ _ held freed _ other a (by decide) low high

end Blackcomb.Mm
