import Blackcomb.Laws.Mm.MmNew
import Blackcomb.Laws.Mm.Exhaustion

/-!
# The books of `vmm.c`

Which areas a space has, in which order, and how often an area is counted: all of this is in
records, and what the page tables hold has no part in it. So the books are in order in every run,
also when frames have run out or a file has been copied over a table. `Books` says what that
means, and the calls are followed twice: the ones that build a space keep it whenever they return,
and `mm_free` does return (`Books.mmFree`).

The kernel's three areas are static, `free` of one of them has no meaning, and `kernel_mm` does not
count. What keeps `mm_free` from it is that another space is there that counts them.
-/

namespace Blackcomb.Mm

open Memory Budget Chain

variable {rs : RegionTable} {s s' t u : Vmm} {mm k r a l : Nat} {lists areas : Nat → List Nat}
  {live : Nat → Prop}

/-! ## What the tables have no part in -/

/-- The records are the same, and no p4 is less aligned than it was. -/
structure SameBooks (s t : Vmm) : Prop where
  heads : ∀ k, (t.mms k).vmAreas = (s.mms k).vmAreas
  lis : t.lis = s.lis
  nlis : t.nlis = s.nlis
  vmas : t.vmas = s.vmas
  nvmas : t.nvmas = s.nvmas
  nmms : t.nmms = s.nmms
  freed : t.freedMms = s.freedMms
  root : (∀ k, (s.mms k).p4 % pageSize = 0) → ∀ k, (t.mms k).p4 % pageSize = 0

/-- Keeping the books is reflexive and goes through sequences. -/
theorem sameBooks : Closed SameBooks where
  refl _ := ⟨fun _ => rfl, rfl, rfl, rfl, rfl, rfl, rfl, id⟩
  trans := by
    intro s t u one two
    exact ⟨fun k => (two.heads k).trans (one.heads k), two.lis.trans one.lis,
      two.nlis.trans one.nlis, two.vmas.trans one.vmas, two.nvmas.trans one.nvmas,
      two.nmms.trans one.nmms, two.freed.trans one.freed, fun h => two.root (one.root h)⟩

/-- An assignment to memory. -/
theorem sameBooks_setMem (s : Vmm) (m : Bytes) : SameBooks s (s.setMem m) :=
  ⟨fun _ => rfl, rfl, rfl, rfl, rfl, rfl, rfl, id⟩

/-- A table entry is not in the books. -/
theorem sameBooks_setEntry {p : Path} {i : Fin 512} {e : Nat} :
    Relates SameBooks (modify (·.setEntry mm p i e) : Op Unit) :=
  .modify fun _ => ⟨fun _ => rfl, rfl, rfl, rfl, rfl, rfl, rfl, id⟩

/-- An aligned p4 is assigned. -/
theorem sameBooks_setRoot (s : Vmm) (mm : Nat) {p4 : Nat} (aligned : p4 % pageSize = 0) :
    SameBooks s (s.modifyMm mm ({ · with p4 })) := by
  refine ⟨fun k => ?_, rfl, rfl, rfl, rfl, rfl, rfl, fun root k => ?_⟩
  all_goals
    simp only [Vmm.modifyMm, Function.update_apply]
    split
  · rename_i same
    rw [same]
  · rfl
  · exact aligned
  · exact root k

/-- Taking a frame changes no record. -/
theorem sameBooks_allocFrame : Relates SameBooks (allocFrame rs) := by
  intro s f s' h
  rw [allocFrame_eq] at h
  cases h
  exact ⟨fun _ => rfl, rfl, rfl, rfl, rfl, rfl, rfl, id⟩

/-- Giving a frame back changes no record. -/
theorem sameBooks_freeFrame {f : Nat} : Relates SameBooks (freeFrame rs f) := by
  intro s _ s' h
  obtain ⟨_, _, h⟩ := Blackcomb.bind_eq_ok.mp h
  cases h
  exact ⟨fun _ => rfl, rfl, rfl, rfl, rfl, rfl, rfl, id⟩

/-- Building a table changes no record. -/
theorem sameBooks_growTable {p : Path} {i : Fin 512} {flags : Nat} :
    Relates SameBooks (growTable rs mm p i flags) :=
  sameBooks.of_get fun _ => .ite (sameBooks.bind sameBooks_allocFrame fun _ => sameBooks_setEntry)
    (sameBooks.pure _)

/-- Building the top table changes no record but its own address. -/
theorem sameBooks_growRoot : Relates SameBooks (growRoot rs mm) := by
  refine sameBooks.of_get fun _ => .ite ?_ (sameBooks.pure _)
  intro s _ s' h
  obtain ⟨p4, t, alloced, h⟩ := Budget.bind_eq_ok.mp h
  have first := sameBooks_allocFrame s p4 t alloced
  rw [allocFrame_eq] at alloced
  cases alloced
  cases h
  exact sameBooks.trans first (sameBooks_setRoot _ mm (pmmAlloc_aligned rs s.frames.mem))

/-- Mapping a page changes tables and frames only. -/
theorem sameBooks_vmmMapPage {virt phys flags : Nat} :
    Relates SameBooks (vmmMapPage rs mm virt phys flags) :=
  sameBooks.bind sameBooks_growRoot fun _ => sameBooks.bind sameBooks_growTable fun _ =>
    sameBooks.bind sameBooks_growTable fun _ => sameBooks.bind sameBooks_growTable fun _ =>
    sameBooks_setEntry

theorem sameBooks_intOffset {i : Nat} : Relates SameBooks (intOffset i) :=
  .ite (sameBooks.pure _) (.throw _)

/-- Mapping a fresh page changes tables and frames only. -/
theorem sameBooks_mapFresh {start flags i : Nat} : Relates SameBooks (mapFresh rs mm start flags i) :=
  sameBooks.bind sameBooks_intOffset fun _ => sameBooks.bind sameBooks_allocFrame fun _ =>
    sameBooks_vmmMapPage

theorem sameBooks_panicIf {c : Prop} [Decidable c] {msg : String} :
    Relates SameBooks (panicIf c msg) :=
  .ite (.throw _) (sameBooks.pure _)

/-- Copying a buffer into a space changes frames only. -/
theorem sameBooks_mmCopyFromBuf {buf : Bytes} {start len : Nat} :
    Relates SameBooks (mmCopyFromBuf mm buf start len) :=
  sameBooks.bind sameBooks_panicIf fun _ => sameBooks.forTo fun _ =>
    .modify fun _ => sameBooks_setMem _ _

/-- Copying one space into another changes frames only. -/
theorem sameBooks_mmCopyFromMm {src start pages : Nat} :
    Relates SameBooks (mmCopyFromMm mm src start pages) :=
  sameBooks.bind sameBooks_panicIf fun _ => sameBooks.forTo fun _ =>
    .modify fun _ => sameBooks_setMem _ _

/-- The test before a table is dropped reads only. -/
theorem sameBooks_whenEmpty {p : Path} {rest : Op Unit} (relates : Relates SameBooks rest) :
    Relates SameBooks (whenEmpty mm p rest) :=
  sameBooks.of_get fun _ => .ite relates (sameBooks.pure _)

/-- Dropping a table changes no record. -/
theorem sameBooks_dropTable {p : Path} {i : Fin 512} : Relates SameBooks (dropTable rs mm p i) :=
  sameBooks.of_get fun _ => sameBooks.bind sameBooks_freeFrame fun _ => sameBooks_setEntry

/-- Dropping the top table changes no record but its own address. -/
theorem sameBooks_dropRoot : Relates SameBooks (dropRoot rs mm) :=
  sameBooks.of_get fun _ => sameBooks.bind sameBooks_freeFrame fun _ =>
    .modify fun s => sameBooks_setRoot s mm rfl

/-- Unmapping a page changes tables and frames only. -/
theorem sameBooks_vmmUnmapPage {virt : Nat} : Relates SameBooks (vmmUnmapPage rs mm virt) :=
  sameBooks.bind sameBooks_setEntry fun _ => sameBooks_whenEmpty <|
    sameBooks.bind sameBooks_dropTable fun _ => sameBooks_whenEmpty <|
    sameBooks.bind sameBooks_dropTable fun _ => sameBooks_whenEmpty <|
    sameBooks.bind sameBooks_dropTable fun _ => sameBooks_whenEmpty sameBooks_dropRoot

/-! ## The books -/

/-- The records of the spaces that are `live`: the nodes of a space are linked, they are nobody
else's, and its areas are `areas`, in this order. -/
structure Books (s : Vmm) (live : Nat → Prop) (lists areas : Nat → List Nat) : Prop where
  head : (s.mms 0).vmAreas = some 0
  nodes : s.lis 0 = ⟨0, some 1, none⟩ ∧ s.lis 1 = ⟨1, some 2, some 0⟩ ∧ s.lis 2 = ⟨2, none, some 1⟩
  shape : ∀ a < 3, (s.vmas a).shape = kernelShape a
  named : 3 ≤ s.nvmas ∧ 3 ≤ s.nlis
  root : ∀ mm, (s.mms mm).p4 % pageSize = 0
  kernel : ¬ live 0
  listed : ∀ mm, live mm → Listed s mm (lists mm)
  vmas : ∀ mm, live mm → s.vmasOf (lists mm) = areas mm
  area : ∀ mm, live mm → ∀ r ∈ areas mm, r < s.nvmas ∧
    (3 ≤ r → (s.vmas r).type = .reg ∧ (s.vmas r).pages ≤ 2 ^ 19)
  apart : ∀ mm k l, live mm → live k → l ∈ lists mm → l ∈ lists k → mm = k

/-- The books are a matter of the records, and of an area's not of its count. -/
theorem Books.congr (books : Books s live lists areas)
    (heads : ∀ k, (t.mms k).vmAreas = (s.mms k).vmAreas) (lis : t.lis = s.lis)
    (nlis : t.nlis = s.nlis) (nvmas : t.nvmas = s.nvmas)
    (shapes : ∀ r, (t.vmas r).shape = (s.vmas r).shape)
    (root : ∀ k, (t.mms k).p4 % pageSize = 0) : Books t live lists areas where
  head := (heads 0).trans books.head
  nodes := lis ▸ books.nodes
  shape := fun a lt => (shapes a).trans (books.shape a lt)
  named := by
    rw [nvmas, nlis]
    exact books.named
  root := root
  kernel := books.kernel
  listed := fun mm here =>
    (books.listed mm here).congr (heads mm) (fun l _ => congrFun lis l) nlis.ge
  vmas := fun mm here => by
    rw [Vmm.vmasOf, lis]
    exact books.vmas mm here
  area := fun mm here r mem => by
    obtain ⟨type, _, pages, _⟩ := VmArea.shape_inj (shapes r)
    rw [nvmas, type, pages]
    exact books.area mm here r mem
  apart := books.apart

/-- The books stay right over a call that keeps them. -/
theorem Books.same (books : Books s live lists areas) (same : SameBooks s t) :
    Books t live lists areas :=
  books.congr same.heads same.lis same.nlis same.nvmas (fun r => by rw [same.vmas])
    (same.root books.root)

/-- `mm_insert_vma` puts an area in front. -/
theorem Books.insert (books : Books s live lists areas) (here : live mm) (named : r < s.nvmas)
    (regular : 3 ≤ r → (s.vmas r).type = .reg ∧ (s.vmas r).pages ≤ 2 ^ 19) :
    Books (s.insertVma mm r) live (Function.update lists mm (s.nlis :: lists mm))
      (Function.update areas mm (r :: areas mm)) := by
  have listed := books.listed mm here
  have nlis : (s.insertVma mm r).nlis = s.nlis + 1 := insertVma_nlis
  obtain ⟨_, nvmas, _⟩ := insertVma_rest s mm r
  have heads : ∀ k, k ≠ mm → ((s.insertVma mm r).mms k).vmAreas = (s.mms k).vmAreas := by
    intro k ne
    rw [insertVma_mms, Function.update_of_ne ne]
  have zero : (0 : Nat) ≠ mm := fun e => books.kernel (e ▸ here)
  have static : ∀ l < 3, (s.insertVma mm r).lis l = s.lis l := by
    intro l lt
    have more := books.named.2
    exact listed.insert_other (by omega) fun mem => Nat.not_le_of_lt lt (listed.bound l mem).1
  have foreign : ∀ k, live k → k ≠ mm → ∀ l ∈ lists k, (s.insertVma mm r).lis l = s.lis l := by
    intro k there ne l mem
    exact listed.insert_other (Nat.ne_of_lt ((books.listed k there).bound l mem).2)
      fun mem' => ne (books.apart k mm l there here mem mem')
  have shapes : ∀ q, ((s.insertVma mm r).vmas q).shape = (s.vmas q).shape := by
    intro q
    rw [insertVma_vmas, Function.update_apply]
    split
    · rename_i e
      rw [e]
      rfl
    · rfl
  have fresh : ∀ k, live k → s.nlis ∉ lists k := fun k there mem =>
    Nat.lt_irrefl _ ((books.listed k there).bound _ mem).2
  refine ⟨(heads 0 zero).trans books.head, ?_, fun a lt => (shapes a).trans (books.shape a lt), ?_,
    fun k => ?_, books.kernel, fun k there => ?_, fun k there => ?_, fun k there q mem => ?_,
    fun k j l thereK thereJ memK memJ => ?_⟩
  · rw [static 0 (by decide), static 1 (by decide), static 2 (by decide)]
    exact books.nodes
  · rw [nvmas, nlis]
    exact ⟨books.named.1, Nat.le_succ_of_le books.named.2⟩
  · rw [insertVma_p4]
    exact books.root k
  · by_cases e : k = mm
    · rw [e, Function.update_self]
      exact listed.insert books.named.2
    · rw [Function.update_of_ne e]
      exact (books.listed k there).congr (heads k e) (foreign k there e) (nlis ▸ Nat.le_succ _)
  · by_cases e : k = mm
    · rw [e, Function.update_self, Function.update_self, listed.vmasOf_insert, books.vmas mm here]
    · rw [Function.update_of_ne e, Function.update_of_ne e, ← books.vmas k there]
      apply List.map_congr_left
      intro l mem
      rw [foreign k there e l mem]
  · obtain ⟨type, _, pages, _⟩ := VmArea.shape_inj (shapes q)
    rw [nvmas, type, pages]
    by_cases e : k = mm
    · rw [e, Function.update_self] at mem
      rcases List.mem_cons.mp mem with rfl | mem
      · exact ⟨named, regular⟩
      · exact books.area mm here q mem
    · rw [Function.update_of_ne e] at mem
      exact books.area k there q mem
  · -- the new node is on one list only, the others are where they were
    by_cases ek : k = mm
    · by_cases ej : j = mm
      · rw [ek, ej]
      · rw [ek, Function.update_self] at memK
        rw [Function.update_of_ne ej] at memJ
        rcases List.mem_cons.mp memK with rfl | memK
        · exact absurd memJ (fresh j thereJ)
        · exact ek.trans (books.apart mm j l here thereJ memK memJ)
    · rw [Function.update_of_ne ek] at memK
      by_cases ej : j = mm
      · rw [ej, Function.update_self] at memJ
        rcases List.mem_cons.mp memJ with rfl | memJ
        · exact absurd memK (fresh k thereK)
        · exact (books.apart k mm l thereK here memK memJ).trans ej.symm
      · rw [Function.update_of_ne ej] at memJ
        exact books.apart k j l thereK thereJ memK memJ

/-- `mm_new` takes a name: a space without areas. -/
theorem Books.begin (books : Books s live lists areas) (pos : 0 < s.nmms) (fresh : ¬ live s.nmms) :
    Books { s with mms := Function.update s.mms s.nmms {}, nmms := s.nmms + 1 }
      (fun k => live k ∨ k = s.nmms) (Function.update lists s.nmms [])
      (Function.update areas s.nmms []) := by
  have old : ∀ k, live k → k ≠ s.nmms := fun k there e => fresh (e ▸ there)
  have heads : ∀ k, k ≠ s.nmms → (Function.update s.mms s.nmms {} k).vmAreas =
      (s.mms k).vmAreas := by
    intro k ne
    rw [Function.update_of_ne ne]
  refine ⟨(heads 0 (Nat.ne_of_lt pos)).trans books.head, books.nodes, books.shape, books.named,
    fun k => ?_, ?_, fun k there => ?_, fun k there => ?_, fun k there q mem => ?_,
    fun k j l thereK thereJ memK memJ => ?_⟩
  · simp only [Function.update_apply]
    split
    · rfl
    · exact books.root k
  · rintro (kernel | none)
    · exact books.kernel kernel
    · exact Nat.ne_of_lt pos none
  · rcases there with there | rfl
    · rw [Function.update_of_ne (old k there)]
      exact (books.listed k there).congr (heads k (old k there)) (fun _ _ => rfl) (Nat.le_refl _)
    · rw [Function.update_self]
      refine ⟨?_, trivial, List.nodup_nil, fun l mem => (by cases mem)⟩
      simp only [Function.update_self]
      rfl
  · rcases there with there | rfl
    · rw [Function.update_of_ne (old k there), Function.update_of_ne (old k there)]
      exact books.vmas k there
    · rw [Function.update_self, Function.update_self]
      rfl
  · rcases there with there | rfl
    · rw [Function.update_of_ne (old k there)] at mem
      exact books.area k there q mem
    · rw [Function.update_self] at mem
      cases mem
  · have whose : ∀ i, (live i ∨ i = s.nmms) → l ∈ Function.update lists s.nmms [] i →
        live i ∧ l ∈ lists i := by
      intro i there mem
      rcases there with there | rfl
      · rw [Function.update_of_ne (old i there)] at mem
        exact ⟨there, mem⟩
      · rw [Function.update_self] at mem
        cases mem
    obtain ⟨liveK, memK⟩ := whose k thereK memK
    obtain ⟨liveJ, memJ⟩ := whose j thereJ memJ
    exact books.apart k j l liveK liveJ memK memJ

/-! ## Building a space -/

/-- `born` spaces more, each of which counts the kernel's areas; nothing was freed. -/
structure Tally (s t : Vmm) (born : Nat) : Prop where
  refcnt : ∀ a < 3, (t.vmas a).refcnt = (s.vmas a).refcnt + born
  nmms : t.nmms = s.nmms + born
  freed : t.freedMms = s.freedMms

/-- A call that keeps the books counts nothing. -/
theorem SameBooks.tally (same : SameBooks s t) : Tally s t 0 where
  refcnt := fun a _ => by
    rw [same.vmas]
    exact (Int.add_zero _).symm
  nmms := same.nmms
  freed := same.freed

/-- Counts of two calls in a row add up. -/
theorem Tally.trans {m n : Nat} (one : Tally s t m) (two : Tally t u n) : Tally s u (m + n) where
  refcnt := fun a lt => by
    rw [two.refcnt a lt, one.refcnt a lt]
    push_cast
    omega
  nmms := by rw [two.nmms, one.nmms, Nat.add_assoc]
  freed := two.freed.trans one.freed

/-- The areas of a space that is built: the kernel's at the end of the list. -/
def Whole (areas : List Nat) : Prop := ∃ regs, areas = regs ++ [2, 1, 0] ∧ ∀ r ∈ regs, 3 ≤ r

/-- A space counts each of the kernel's areas once. -/
theorem Whole.count {areas : List Nat} (whole : Whole areas) (lt : a < 3) : areas.count a = 1 := by
  obtain ⟨regs, rfl, regular⟩ := whole
  have none : regs.count a = 0 := List.count_eq_zero.mpr fun mem =>
    Nat.not_le_of_lt lt (regular a mem)
  rw [List.count_append, none, Nat.zero_add]
  obtain rfl | rfl | rfl : a = 0 ∨ a = 1 ∨ a = 2 := by omega
  all_goals decide

/-- A space more, named as the next one: the other spaces have their nodes and areas. -/
structure Joined (s t : Vmm) (live : Nat → Prop) (lists areas : Nat → List Nat) : Prop where
  books : ∃ lists' areas', Books t (fun k => live k ∨ k = s.nmms) lists' areas' ∧
    Whole (areas' s.nmms) ∧ ∀ k, k ≠ s.nmms → lists' k = lists k ∧ areas' k = areas k
  tally : Tally s t 1

/-- A space that has joined its areas stays joined over a call that keeps the books. -/
theorem Joined.same (joined : Joined s t live lists areas) (same : SameBooks t u) :
    Joined s u live lists areas := by
  obtain ⟨lists', areas', books, rest⟩ := joined.books
  exact ⟨⟨lists', areas', books.same same, rest⟩, joined.tally.trans same.tally⟩

/-- The pages of `anon_mmap` are counted by an `int`. -/
theorem anonMmap_done {start n prot : Nat} {user : Bool}
    (ran : anonMmap rs mm start n prot user s = .ok ((), s')) :
    n ≤ 2 ^ 19 ∧ ∃ u, SameBooks s u ∧ s' = u.addArea mm (anonArea start n prot user) := by
  obtain ⟨_, t, checked, ran⟩ := Budget.bind_eq_ok.mp ran
  obtain ⟨_, u, looped, ran⟩ := Budget.bind_eq_ok.mp ran
  have same : SameBooks s u := sameBooks.trans (sameBooks_panicIf s _ t checked)
    (sameBooks.forTo (fun _ => sameBooks_mapFresh) t _ u looped)
  refine ⟨?_, u, same, ?_⟩
  · cases n with
    | zero => exact Nat.zero_le _
    | succ n =>
      obtain ⟨_, v, _, last⟩ := Budget.bind_eq_ok.mp looped
      obtain ⟨_, _, offset, _⟩ := Budget.bind_eq_ok.mp last
      unfold intOffset at offset
      split at offset
      · rename_i below
        simp only [pageSize] at below
        omega
      · cases offset
  · cases ran
    rfl

/-- `anon_mmap` of the new space. -/
theorem Joined.anonMmap {start n prot : Nat} {user : Bool} (joined : Joined s t live lists areas)
    (ran : Mm.anonMmap rs s.nmms start n prot user t = .ok ((), s')) :
    Joined s s' live lists areas := by
  obtain ⟨small, u, same, rfl⟩ := anonMmap_done ran
  obtain ⟨⟨lists', areas', books, whole, others⟩, tally⟩ := joined.same same
  -- the record of the new area, which no list has yet
  have recorded : Books { u with
      vmas := Function.update u.vmas u.nvmas (anonArea start n prot user), nvmas := u.nvmas + 1 }
      (fun k => live k ∨ k = s.nmms) lists' areas' := by
    have more := books.named.1
    refine ⟨books.head, books.nodes, fun a lt => ?_, ⟨Nat.le_succ_of_le more, books.named.2⟩,
      books.root, books.kernel, fun k there => (books.listed k there).congr rfl (fun _ _ => rfl)
      (Nat.le_refl _), books.vmas, fun k there q mem => ?_, books.apart⟩
    · have ne : a ≠ u.nvmas := by omega
      simp only [Function.update_of_ne ne]
      exact books.shape a lt
    · obtain ⟨below, regular⟩ := books.area k there q mem
      simp only [Function.update_of_ne (Nat.ne_of_lt below)]
      exact ⟨Nat.lt_succ_of_lt below, regular⟩
  have new : (fun k => live k ∨ k = s.nmms) s.nmms := .inr rfl
  have inserted := recorded.insert (r := u.nvmas) new (Nat.lt_succ_self _)
    (fun _ => by simpa [anonArea] using small)
  obtain ⟨nmms, freed, _⟩ := addArea_rest u s.nmms (anonArea start n prot user)
  refine ⟨⟨_, _, inserted, ?_, fun k ne => ?_⟩, ⟨fun a lt => ?_, nmms.trans tally.nmms,
    freed.trans tally.freed⟩⟩
  · obtain ⟨regs, eq, regular⟩ := whole
    rw [Function.update_self]
    refine ⟨u.nvmas :: regs, by rw [eq, List.cons_append], fun r mem => ?_⟩
    rcases List.mem_cons.mp mem with rfl | mem
    · exact books.named.1
    · exact regular r mem
  · rw [Function.update_of_ne ne, Function.update_of_ne ne]
    exact others k ne
  · have ne : a ≠ u.nvmas := by
      have := books.named.1
      omega
    rw [addArea_vmas, Function.update_of_ne ne]
    exact tally.refcnt a lt

/-- What holds of the nodes to come, and survives a round, holds at the end of a walk. -/
theorem walkAreas_done {body after : Nat → Op Unit} (J : List Nat → Vmm → Prop)
    (round : ∀ l ls t t₁ t₂, J (l :: ls) t → body (t.lis l).vma t = .ok ((), t₁) →
      after l t₁ = .ok ((), t₂) → (t₁.lis l).next = ls.head? ∧ J ls t₂)
    {ls : List Nat} {fuel : Nat} (start : J ls s)
    (ran : walkAreas body after fuel ls.head? s = .ok ((), s')) : J [] s' := by
  induction ls generalizing fuel s with
  | nil =>
    cases fuel with
    | zero =>
      cases ran
      exact start
    | succ fuel =>
      cases ran
      exact start
  | cons l ls ih =>
    cases fuel with
    | zero => cases ran
    | succ fuel =>
      obtain ⟨_, _, got, ran⟩ := Budget.bind_eq_ok.mp ran
      cases got
      obtain ⟨_, t₁, worked, ran⟩ := Budget.bind_eq_ok.mp ran
      obtain ⟨_, _, got, ran⟩ := Budget.bind_eq_ok.mp ran
      cases got
      obtain ⟨_, t₂, left, ran⟩ := Budget.bind_eq_ok.mp ran
      obtain ⟨next, inv⟩ := round l ls s t₁ t₂ start worked left
      rw [next] at ran
      exact ih inv ran

/-- A walk whose every round returns, returns. -/
theorem walkAreas_returns (body after : Nat → Op Unit) (J : List Nat → Vmm → Prop)
    (round : ∀ l ls t, J (l :: ls) t → ∃ t₁ t₂, body (t.lis l).vma t = .ok ((), t₁) ∧
      (t₁.lis l).next = ls.head? ∧ after l t₁ = .ok ((), t₂) ∧ J ls t₂)
    {ls : List Nat} {fuel : Nat} (enough : ls.length ≤ fuel) (start : J ls s) :
    ∃ s', walkAreas body after fuel ls.head? s = .ok ((), s') ∧ J [] s' := by
  induction ls generalizing fuel s with
  | nil =>
    cases fuel with
    | zero => exact ⟨s, rfl, start⟩
    | succ fuel => exact ⟨s, rfl, start⟩
  | cons l ls ih =>
    obtain ⟨fuel, rfl⟩ : ∃ k, fuel = k + 1 := by
      rw [List.length_cons] at enough
      exact ⟨fuel - 1, by omega⟩
    obtain ⟨t₁, t₂, worked, next, left, inv⟩ := round l ls s start
    obtain ⟨s', walked, done⟩ := ih (Nat.le_of_succ_le_succ enough) inv
    refine ⟨s', Budget.bind_eq_ok.mpr ⟨s, s, rfl, ?_⟩, done⟩
    refine Budget.bind_eq_ok.mpr ⟨(), t₁, worked, Budget.bind_eq_ok.mpr ⟨t₁, t₁, rfl, ?_⟩⟩
    refine Budget.bind_eq_ok.mpr ⟨(), t₂, left, ?_⟩
    rw [next]
    exact walked

/-- `mm_share_vma` returns, whatever frames there are. -/
theorem mmShareVma_returns {src : Nat} (small : (s.vmas r).pages ≤ 2 ^ 19) :
    ∃ s', mmShareVma rs mm src r s = .ok ((), s') := by
  obtain ⟨_, u, looped⟩ : ∃ a u, forTo (s.vmas r).pages (fun pg => do
      let off ← intOffset pg
      let phys := (← get).leafEntry src (add64 (s.vmas r).start off)
      vmmMapPage rs mm (add64 (s.vmas r).start off) phys
        (pageFlags (s.vmas r).prot (s.vmas r).user)) s = .ok (a, u) :=
    Returns.forTo (fun _ lt => .bind (returns_intOffset (by omega)) fun _ => .of_get fun _ =>
      returns_vmmMapPage _ _ _ _) s
  exact ⟨_, Budget.bind_eq_ok.mpr ⟨s, s, rfl, Budget.bind_eq_ok.mpr ⟨_, u, looped, rfl⟩⟩⟩

/-- Sharing an area maps its range and then puts the area into the list. -/
theorem mmShareVma_done {src : Nat} (ran : mmShareVma rs mm src r s = .ok ((), s')) :
    ∃ u, SameBooks s u ∧ s' = u.insertVma mm r := by
  obtain ⟨_, _, got, ran⟩ := Budget.bind_eq_ok.mp ran
  cases got
  obtain ⟨_, u, looped, ran⟩ := Budget.bind_eq_ok.mp ran
  refine ⟨u, ?_, ?_⟩
  · exact sameBooks.forTo (fun _ => sameBooks.bind sameBooks_intOffset fun _ =>
      sameBooks.of_get fun _ => sameBooks_vmmMapPage) s _ u looped
  · cases ran
    rfl

/-- `mm_init` under way: the new space has the first `n` of the kernel's areas. -/
structure Sharing (s t : Vmm) (live : Nat → Prop) (lists areas : Nat → List Nat) (n : Nat) :
    Prop where
  books : ∃ lists' areas', Books t (fun k => live k ∨ k = s.nmms) lists' areas' ∧
    areas' s.nmms = (List.range n).reverse ∧
    ∀ k, k ≠ s.nmms → lists' k = lists k ∧ areas' k = areas k
  refcnt : ∀ a < 3, (t.vmas a).refcnt = (s.vmas a).refcnt + if a < n then 1 else 0
  nmms : t.nmms = s.nmms + 1
  freed : t.freedMms = s.freedMms

/-- The next of the kernel's areas. -/
theorem Sharing.next {n : Nat} (sharing : Sharing s t live lists areas n) (lt : n < 3)
    (ran : mmShareVma rs s.nmms 0 n t = .ok ((), s')) : Sharing s s' live lists areas (n + 1) := by
  obtain ⟨u, same, rfl⟩ := mmShareVma_done ran
  obtain ⟨lists', areas', books, here, others⟩ := sharing.books
  have books := books.same same
  have named : n < u.nvmas := Nat.lt_of_lt_of_le lt books.named.1
  have new : (fun k => live k ∨ k = s.nmms) s.nmms := .inr rfl
  have inserted := books.insert new named
    (fun regular => absurd lt (Nat.not_lt_of_le regular))
  obtain ⟨nmms, _, _, freed, _⟩ := insertVma_rest u s.nmms n
  refine ⟨⟨_, _, inserted, ?_, fun k ne => ?_⟩, fun a below => ?_, ?_, ?_⟩
  · rw [Function.update_self, here, List.range_succ, List.reverse_append]
    rfl
  · rw [Function.update_of_ne ne, Function.update_of_ne ne]
    exact others k ne
  · have before := sharing.refcnt a below
    rw [insertVma_vmas, Function.update_apply, same.vmas]
    split
    · rename_i e
      subst e
      show (t.vmas a).refcnt + 1 = _
      rw [before, if_neg (Nat.lt_irrefl a), if_pos (Nat.lt_succ_self a), Int.add_zero]
    · rename_i ne
      have iff : a < n ↔ a < n + 1 := by omega
      rw [before]
      simp only [iff]
  · rw [nmms, same.nmms, sharing.nmms]
  · rw [freed, same.freed, sharing.freed]

/-- A round of `mm_init`: the list of `kernel_mm` is `0`, `1`, `2`, and the node `n` holds the area
`n`. -/
theorem Sharing.round {ls : List Nat} {t₁ t₂ : Vmm}
    (inv : ∃ n ≤ 3, l :: ls = [0, 1, 2].drop n ∧ Sharing s t live lists areas n)
    (worked : mmShareVma rs s.nmms 0 (t.lis l).vma t = .ok ((), t₁))
    (left : (pure () : Op Unit) t₁ = .ok ((), t₂)) :
    (t₁.lis l).next = ls.head? ∧
      ∃ n ≤ 3, ls = [0, 1, 2].drop n ∧ Sharing s t₂ live lists areas n := by
  obtain ⟨n, le, split, sharing⟩ := inv
  cases left
  obtain ⟨_, _, books, _⟩ := sharing.books
  obtain ⟨zero, one, two⟩ := books.nodes
  obtain rfl | rfl | rfl | rfl : n = 0 ∨ n = 1 ∨ n = 2 ∨ n = 3 := by omega
  · obtain ⟨rfl, rfl⟩ := List.cons.inj split
    rw [zero] at worked
    have sharing := sharing.next (by decide) worked
    obtain ⟨_, _, books, _⟩ := sharing.books
    exact ⟨by rw [books.nodes.1]; rfl, 1, by decide, rfl, sharing⟩
  · obtain ⟨rfl, rfl⟩ := List.cons.inj split
    rw [one] at worked
    have sharing := sharing.next (by decide) worked
    obtain ⟨_, _, books, _⟩ := sharing.books
    exact ⟨by rw [books.nodes.2.1]; rfl, 2, by decide, rfl, sharing⟩
  · obtain ⟨rfl, rfl⟩ := List.cons.inj split
    rw [two] at worked
    have sharing := sharing.next (by decide) worked
    obtain ⟨_, _, books, _⟩ := sharing.books
    exact ⟨by rw [books.nodes.2.2]; rfl, 3, by decide, rfl, sharing⟩
  · cases split

/-- A round of `mm_init` returns. -/
theorem Sharing.returns {ls : List Nat}
    (inv : ∃ n ≤ 3, l :: ls = [0, 1, 2].drop n ∧ Sharing s t live lists areas n) :
    ∃ t₁, mmShareVma rs s.nmms 0 (t.lis l).vma t = .ok ((), t₁) := by
  obtain ⟨n, le, split, sharing⟩ := inv
  obtain ⟨_, _, books, _⟩ := sharing.books
  obtain ⟨zero, one, two⟩ := books.nodes
  have vma : (t.lis l).vma < 3 := by
    obtain rfl | rfl | rfl : l = 0 ∨ l = 1 ∨ l = 2 := by
      have mem : l ∈ [0, 1, 2] := List.mem_of_mem_drop (split ▸ List.mem_cons_self)
      simpa using mem
    · rw [zero]
      decide
    · rw [one]
      decide
    · rw [two]
      decide
  apply mmShareVma_returns
  obtain ⟨_, _, pages, _⟩ := VmArea.shape_inj ((books.shape _ vma).trans (kernelShape_shape _).symm)
  rw [pages]
  exact (kernelShape_range _).small

/-- The new space, with no area yet. -/
theorem Books.sharing (books : Books s live lists areas) (pos : 0 < s.nmms)
    (fresh : ¬ live s.nmms) : Sharing s s.withMm live lists areas 0 := by
  refine ⟨⟨_, _, books.begin pos fresh, by rw [Function.update_self]; rfl, fun k ne => ?_⟩,
    fun a _ => ?_, rfl, rfl⟩
  · exact ⟨Function.update_of_ne ne _ _, Function.update_of_ne ne _ _⟩
  · rw [if_neg (Nat.not_lt_zero a)]
    exact (Int.add_zero _).symm

/-- While the kernel's areas are shared the first of them heads the kernel's own list. -/
theorem Sharing.head {n : Nat} (sharing : Sharing s t live lists areas n) :
    (t.mms 0).vmAreas = [0, 1, 2].head? := by
  obtain ⟨_, _, books, _⟩ := sharing.books
  exact books.head

/-- `mm_new` returns, whatever frames there are. -/
theorem Books.mmNew_returns (rs : RegionTable) (books : Books s live lists areas) (pos : 0 < s.nmms)
    (fresh : ¬ live s.nmms) : ∃ s', mmNew rs s = .ok (s.nmms, s') := by
  have begun := books.sharing pos fresh
  have fuel : [0, 1, 2].length ≤ s.withMm.nlis := books.named.2
  obtain ⟨u, walked, _⟩ := walkAreas_returns (mmShareVma rs s.nmms 0) (fun _ => pure ())
    (fun ls t => ∃ n ≤ 3, ls = [0, 1, 2].drop n ∧ Sharing s t live lists areas n)
    (fun l ls t inv => by
      obtain ⟨t₁, shared⟩ := Sharing.returns inv
      obtain ⟨next, inv'⟩ := Sharing.round inv shared rfl
      exact ⟨t₁, t₁, shared, next, rfl, inv'⟩) fuel ⟨0, Nat.zero_le 3, rfl, begun⟩
  rw [← begun.head] at walked
  have shared : mmInit rs s.nmms s.withMm = .ok ((), u) :=
    Budget.bind_eq_ok.mpr ⟨_, _, rfl, walked⟩
  exact ⟨u, Budget.bind_eq_ok.mpr ⟨_, s, rfl, Budget.bind_eq_ok.mpr ⟨_, s.withMm, rfl,
    Budget.bind_eq_ok.mpr ⟨_, u, shared, rfl⟩⟩⟩⟩

/-- **`mm_new`.** -/
theorem Books.mmNew (books : Books s live lists areas) (pos : 0 < s.nmms) (fresh : ¬ live s.nmms)
    (ran : mmNew rs s = .ok (mm, s')) : mm = s.nmms ∧ Joined s s' live lists areas := by
  obtain ⟨_, _, got, ran⟩ := Budget.bind_eq_ok.mp ran
  cases got
  obtain ⟨_, t, named, ran⟩ := Budget.bind_eq_ok.mp ran
  cases named
  obtain ⟨_, u, shared, ran⟩ := Budget.bind_eq_ok.mp ran
  cases ran
  refine ⟨rfl, ?_⟩
  have begun := books.sharing pos fresh
  obtain ⟨_, _, got, walked⟩ := Budget.bind_eq_ok.mp shared
  cases got
  change walkAreas _ _ s.withMm.nlis (s.withMm.mms 0).vmAreas s.withMm = _ at walked
  rw [begun.head] at walked
  obtain ⟨n, le, none, sharing⟩ := walkAreas_done
    (fun ls t => ∃ n ≤ 3, ls = [0, 1, 2].drop n ∧ Sharing s t live lists areas n)
    (fun _ _ _ _ _ => Sharing.round) ⟨0, Nat.zero_le 3, rfl, begun⟩ walked
  obtain rfl : n = 3 := by
    have length := congrArg List.length none
    simp at length
    omega
  obtain ⟨lists', areas', books, here, others⟩ := sharing.books
  refine ⟨⟨lists', areas', books, ⟨[], ?_, fun r mem => (by cases mem)⟩, others⟩,
    ⟨fun a lt => ?_, sharing.nmms, sharing.freed⟩⟩
  · rw [here]
    decide
  · rw [sharing.refcnt a lt, if_pos lt]
    rfl

/-- The body of `mm_dupe`'s loop. -/
theorem Joined.dupeArea (joined : Joined s t live lists areas)
    (ran : Mm.dupeArea rs s.nmms mm r t = .ok ((), s')) : Joined s s' live lists areas := by
  obtain ⟨_, _, got, ran⟩ := Budget.bind_eq_ok.mp ran
  cases got
  cases type : (t.vmas r).type with
  | reg =>
    simp only [type] at ran
    obtain ⟨_, u, mapped, ran⟩ := Budget.bind_eq_ok.mp ran
    exact (joined.anonMmap mapped).same (sameBooks_mmCopyFromMm u _ s' ran)
  | _ =>
    simp only [type] at ran
    cases ran
    exact joined

/-- **`mm_dupe`.** -/
theorem Books.mmDupe (books : Books s live lists areas) (pos : 0 < s.nmms) (fresh : ¬ live s.nmms)
    (here : live mm) (ran : mmDupe rs mm s = .ok (k, s')) :
    k = s.nmms ∧ Joined s s' live lists areas := by
  obtain ⟨_, t, made, ran⟩ := Budget.bind_eq_ok.mp ran
  obtain ⟨rfl, joined⟩ := books.mmNew pos fresh made
  obtain ⟨_, u, copied, ran⟩ := Budget.bind_eq_ok.mp ran
  cases ran
  refine ⟨rfl, ?_⟩
  have ne : mm ≠ s.nmms := fun e => fresh (e ▸ here)
  have listed : ∀ {t : Vmm}, Joined s t live lists areas → Listed t mm (lists mm) := by
    intro t joined
    obtain ⟨lists', areas', books, _, others⟩ := joined.books
    rw [← (others mm ne).1]
    exact books.listed mm (.inl here)
  obtain ⟨_, _, got, walked⟩ := Budget.bind_eq_ok.mp copied
  cases got
  rw [(listed joined).head] at walked
  refine (walkAreas_done (fun ls t => Joined s t live lists areas ∧ ∃ pre, lists mm = pre ++ ls)
    (fun l ls t t₁ t₂ inv worked left => ?_) ⟨joined, [], rfl⟩ walked).1
  obtain ⟨joined, pre, split⟩ := inv
  cases left
  have joined := joined.dupeArea worked
  exact ⟨(listed joined).next split, joined, pre ++ [l], by rw [split, List.append_assoc]; rfl⟩

/-! ## Freeing a space -/

/-- The p4s are aligned. -/
def RootsAligned (s : Vmm) : Prop := ∀ k, (s.mms k).p4 % pageSize = 0

/-- An aligned frame is given back, whatever the table's state. -/
theorem returns_freeFrame {f : Nat} (aligned : f % pageSize = 0) : Returns (freeFrame rs f) := by
  intro s
  obtain ⟨frames, freed⟩ : ∃ frames, Frames.step rs (.free f) s.frames = .ok frames := by
    rw [Frames.step, pmmFree, if_neg (not_not.mpr aligned), ok_bind]
    exact ⟨_, rfl⟩
  exact ⟨(), _, Blackcomb.bind_eq_ok.mpr ⟨frames, freed, rfl⟩⟩

/-- What keeps the books and returns, returns with the p4s aligned. -/
theorem rooted_of_returns {α : Type} {x : Op α} (returns : Returns x)
    (relates : Relates SameBooks x) : ReturnsIn RootsAligned x :=
  .of_returns returns fun s a s' ran => (relates s a s' ran).root

/-- The same, keeping the aligned roots. -/
theorem rooted_freeFrame {f : Nat} (aligned : f % pageSize = 0) :
    ReturnsIn RootsAligned (freeFrame rs f) :=
  rooted_of_returns (returns_freeFrame aligned) sameBooks_freeFrame

/-- Writing an entry keeps the roots aligned. -/
theorem rooted_setEntry {p : Path} {i : Fin 512} {e : Nat} :
    ReturnsIn RootsAligned (modify (·.setEntry mm p i e) : Op Unit) :=
  rooted_of_returns (.modify _) sameBooks_setEntry

/-- A table that is not empty is left, so that the test returns when what it guards does. -/
theorem rooted_whenEmpty {p : Path} {rest : Op Unit} (returns : ReturnsIn RootsAligned rest) :
    ReturnsIn RootsAligned (whenEmpty mm p rest) :=
  .of_get fun _ _ => .ite (fun _ => returns) fun _ => .pure _

/-- Dropping a table returns: the entry it frees is masked to a frame's address. -/
theorem rooted_dropTable {p : Path} {i : Fin 512} : ReturnsIn RootsAligned (dropTable rs mm p i) :=
  .of_get fun _ _ => .bind (rooted_freeFrame (pageOf_mod _)) fun _ => rooted_setEntry

/-- Dropping the top table returns, its address being aligned. -/
theorem rooted_dropRoot : ReturnsIn RootsAligned (dropRoot rs mm) :=
  .of_get fun _ root => .bind (rooted_freeFrame (root mm)) fun _ =>
    .modify fun s => (sameBooks_setRoot s mm rfl).root

/-- Unmapping returns from every state with aligned roots. -/
theorem rooted_vmmUnmapPage {virt : Nat} : ReturnsIn RootsAligned (vmmUnmapPage rs mm virt) :=
  .bind rooted_setEntry fun _ => rooted_whenEmpty <|
    .bind rooted_dropTable fun _ => rooted_whenEmpty <|
    .bind rooted_dropTable fun _ => rooted_whenEmpty <|
    .bind rooted_dropTable fun _ => rooted_whenEmpty rooted_dropRoot

/-- Below `2^19` pages the product of the loop counter stays an `int`. -/
theorem rooted_intOffset {i : Nat} (small : i < 2 ^ 19) : ReturnsIn RootsAligned (intOffset i) :=
  rooted_of_returns (returns_intOffset small) sameBooks_intOffset

/-- The loop of `mm_unshare_vma`. -/
theorem rooted_unshare {start n : Nat} (small : n ≤ 2 ^ 19) :
    ReturnsIn RootsAligned (forTo n fun pg => do
      let off ← intOffset pg
      vmmUnmapPage rs mm (add64 start off)) :=
  .forTo fun _ lt => .bind (rooted_intOffset (Nat.lt_of_lt_of_le lt small)) fun _ =>
    rooted_vmmUnmapPage

/-- The loop of `mm_free_reg_vma`. -/
theorem rooted_freeReg {start n : Nat} (small : n ≤ 2 ^ 19) :
    ReturnsIn RootsAligned (forTo n fun pg => do
      let off ← intOffset pg
      let phys := (← get).vmmGetPhys mm (add64 start off)
      vmmUnmapPage rs mm (add64 start off)
      freeFrame rs phys) :=
  .forTo fun _ lt => .bind (rooted_intOffset (Nat.lt_of_lt_of_le lt small)) fun _ =>
    .of_get fun _ _ => .bind rooted_vmmUnmapPage fun _ => rooted_freeFrame (pageOf_mod _)

/-- The area `r` was counted down; a regular one may have been freed. -/
structure CountedDown (s t : Vmm) (r : Nat) : Prop where
  heads : ∀ k, (t.mms k).vmAreas = (s.mms k).vmAreas
  lis : t.lis = s.lis
  nlis : t.nlis = s.nlis
  vmas : t.vmas = Function.update s.vmas r { s.vmas r with refcnt := (s.vmas r).refcnt - 1 }
  nvmas : t.nvmas = s.nvmas
  nmms : t.nmms = s.nmms
  freed : t.freedMms = s.freedMms
  root : RootsAligned s → RootsAligned t

/-- A static area is counted down to another number than `0`. -/
theorem dropVma_returns (counted : r < 3 → (s.vmas r).refcnt ≠ 1) :
    ∃ t, dropVma r s = .ok ((), t) ∧ CountedDown s t r := by
  have refcnt : ((s.modifyVma r fun v => { v with refcnt := v.refcnt - 1 }).vmas r).refcnt =
      (s.vmas r).refcnt - 1 := by
    simp [Vmm.modifyVma]
  have drop : dropVma r s = (if (s.vmas r).refcnt - 1 = 0 then freeVma r else pure ())
      (s.modifyVma r fun v => { v with refcnt := v.refcnt - 1 }) := by
    rw [← refcnt]
    rfl
  rw [drop]
  split
  · rename_i zero
    have regular : ¬ r < 3 := fun static => counted static (by omega)
    rw [freeVma, if_neg regular]
    exact ⟨_, rfl, fun _ => rfl, rfl, rfl, rfl, rfl, rfl, rfl, id⟩
  · exact ⟨_, rfl, fun _ => rfl, rfl, rfl, rfl, rfl, rfl, rfl, id⟩

/-- A record counted down after a call that keeps the books is counted down from before it. -/
theorem SameBooks.dropped (same : SameBooks s t) (dropped : CountedDown t u r) : CountedDown s u r where
  heads := fun k => (dropped.heads k).trans (same.heads k)
  lis := dropped.lis.trans same.lis
  nlis := dropped.nlis.trans same.nlis
  vmas := by rw [dropped.vmas, same.vmas]
  nvmas := dropped.nvmas.trans same.nvmas
  nmms := dropped.nmms.trans same.nmms
  freed := dropped.freed.trans same.freed
  root := fun root => dropped.root (same.root root)

/-- Counting down one record and freeing it keeps the books right. -/
theorem Books.dropped (books : Books s live lists areas) (dropped : CountedDown s t r) :
    Books t live lists areas := by
  refine books.congr dropped.heads dropped.lis dropped.nlis dropped.nvmas (fun q => ?_)
    (dropped.root books.root)
  rw [dropped.vmas, Function.update_apply]
  split
  · rename_i e
    rw [e]
    rfl
  · rfl

/-- A loop over the pages of an area, and the area counted down. -/
theorem pages_dropped {loop : Op Unit} (root : RootsAligned s) (returns : ReturnsIn RootsAligned loop)
    (relates : Relates SameBooks loop) (counted : r < 3 → (s.vmas r).refcnt ≠ 1) :
    ∃ t, (loop >>= fun _ => dropVma r) s = .ok ((), t) ∧ CountedDown s t r := by
  obtain ⟨_, u, looped, _⟩ := returns s root
  have same := relates s _ u looped
  obtain ⟨t, drop, dropped⟩ := dropVma_returns (s := u) (r := r) (by rw [same.vmas]; exact counted)
  exact ⟨t, Budget.bind_eq_ok.mpr ⟨_, u, looped, drop⟩, same.dropped dropped⟩

/-- An area of a program is given up with its frames. -/
theorem freeArea_reg (rs : RegionTable) (mm : Nat) (type : (s.vmas r).type = .reg) :
    Mm.freeArea rs mm r s = mmFreeRegVma rs mm r s := by
  simp only [Mm.freeArea, get_bind_apply, type]

/-- An area of the kernel is only unmapped. -/
theorem freeArea_kernel (rs : RegionTable) (mm : Nat) (type : (s.vmas r).type ≠ .reg) :
    Mm.freeArea rs mm r s = mmUnshareVma rs mm r s := by
  cases kind : (s.vmas r).type with
  | reg => exact absurd kind type
  | kernelText => simp only [Mm.freeArea, get_bind_apply, kind]
  | kernelHeap => simp only [Mm.freeArea, get_bind_apply, kind]
  | physMem => simp only [Mm.freeArea, get_bind_apply, kind]

/-- The body of `mm_free`'s loop returns. -/
theorem Books.freeArea (rs : RegionTable) (books : Books s live lists areas) (here : live mm) (mem : r ∈ areas mm)
    (counted : r < 3 → (s.vmas r).refcnt ≠ 1) :
    ∃ t, freeArea rs mm r s = .ok ((), t) ∧ CountedDown s t r := by
  have unshare : (s.vmas r).pages ≤ 2 ^ 19 → ∃ t, mmUnshareVma rs mm r s = .ok ((), t) ∧
      CountedDown s t r := fun small =>
    pages_dropped books.root (rooted_unshare small) (sameBooks.forTo fun _ =>
      sameBooks.bind sameBooks_intOffset fun _ => sameBooks_vmmUnmapPage) counted
  by_cases static : r < 3
  · obtain ⟨type, _, pages, _⟩ := VmArea.shape_inj
      ((books.shape r static).trans (kernelShape_shape r).symm)
    have small : (s.vmas r).pages ≤ 2 ^ 19 := by
      rw [pages]
      obtain rfl | rfl | rfl : r = 0 ∨ r = 1 ∨ r = 2 := by omega
      all_goals decide
    have kernel : (s.vmas r).type ≠ .reg := by
      rw [type]
      obtain rfl | rfl | rfl : r = 0 ∨ r = 1 ∨ r = 2 := by omega
      all_goals decide
    rw [freeArea_kernel rs mm kernel]
    exact unshare small
  · obtain ⟨type, small⟩ := (books.area mm here r mem).2 (Nat.le_of_not_lt static)
    have free : mmFreeRegVma rs mm r s = (forTo (s.vmas r).pages (fun pg => do
        let off ← intOffset pg
        let phys := (← get).vmmGetPhys mm (add64 (s.vmas r).start off)
        vmmUnmapPage rs mm (add64 (s.vmas r).start off)
        freeFrame rs phys) >>= fun _ => dropVma r) s := by
      have regular : panicIf ((s.vmas r).type ≠ .reg) "freeing a non-regular vma" = pure () :=
        if_neg (not_not.mpr type)
      show (panicIf ((s.vmas r).type ≠ .reg) "freeing a non-regular vma" >>= fun _ => _) s = _
      rw [regular]
      rfl
    rw [freeArea_reg rs mm type, free]
    exact pages_dropped books.root (rooted_freeReg small) (sameBooks.forTo fun _ =>
      sameBooks.bind sameBooks_intOffset fun _ => sameBooks.of_get fun _ =>
      sameBooks.bind sameBooks_vmmUnmapPage fun _ => sameBooks_freeFrame) counted

/-- The space is gone, and the kernel's areas are counted once less. -/
structure Parted (s t : Vmm) (live : Nat → Prop) (lists areas : Nat → List Nat) (mm : Nat) :
    Prop where
  books : Books t (fun k => live k ∧ k ≠ mm) lists areas
  refcnt : ∀ a < 3, (t.vmas a).refcnt = (s.vmas a).refcnt - 1
  nmms : t.nmms = s.nmms
  freed : t.freedMms = mm :: s.freedMms

/-- `mm_free` under way, with the nodes `ls` to come. A kernel's area whose node is still to come
has not been counted down. -/
structure Parting (s t : Vmm) (live : Nat → Prop) (lists areas : Nat → List Nat) (mm : Nat)
    (ls : List Nat) : Prop where
  books : Books t live lists areas
  todo : ∃ pre, lists mm = pre ++ ls
  refcnt : ∀ a < 3, (t.vmas a).refcnt = (s.vmas a).refcnt - 1 + (t.vmasOf ls).count a
  nmms : t.nmms = s.nmms
  freed : t.freedMms = s.freedMms

/-- A round of `mm_free`. -/
theorem Parting.round {ls : List Nat} (parting : Parting s t live lists areas mm (l :: ls))
    (here : live mm) (counted : ∀ a < 3, 2 ≤ (s.vmas a).refcnt) :
    ∃ t₁ t₂, freeArea rs mm (t.lis l).vma t = .ok ((), t₁) ∧ (t₁.lis l).next = ls.head? ∧
      (modify fun s => { s with freedLis := l :: s.freedLis } : Op Unit) t₁ = .ok ((), t₂) ∧
      Parting s t₂ live lists areas mm ls := by
  obtain ⟨pre, split⟩ := parting.todo
  have books := parting.books
  have area : (t.lis l).vma ∈ areas mm := by
    rw [← books.vmas mm here, split]
    exact List.mem_map_of_mem (List.mem_append_right pre List.mem_cons_self)
  have count : ∀ a, (t.vmasOf (l :: ls)).count a =
      (t.vmasOf ls).count a + if (t.lis l).vma = a then 1 else 0 := by
    intro a
    rw [Vmm.vmasOf, List.map_cons, List.count_cons]
    simp only [beq_iff_eq]
    rfl
  have enough : (t.lis l).vma < 3 → (t.vmas (t.lis l).vma).refcnt ≠ 1 := by
    intro static
    have refcnt := parting.refcnt _ static
    have two := counted _ static
    rw [count, if_pos rfl] at refcnt
    push_cast at refcnt
    omega
  obtain ⟨t₁, freed, dropped⟩ := books.freeArea rs here area enough
  have after := books.dropped dropped
  refine ⟨t₁, _, freed, ?_, rfl, ⟨after.congr (fun _ => rfl) rfl rfl rfl (fun _ => rfl) after.root,
    ⟨pre ++ [l], by rw [split, List.append_assoc]; rfl⟩, fun a lt => ?_, ?_, ?_⟩⟩
  · exact (after.listed mm here).next split
  · have refcnt := parting.refcnt a lt
    have same : Vmm.vmasOf { t₁ with freedLis := l :: t₁.freedLis } ls = t.vmasOf ls := by
      rw [Vmm.vmasOf, Vmm.vmasOf, dropped.lis]
    rw [count] at refcnt
    rw [same, dropped.vmas, Function.update_apply]
    split
    · rename_i e
      rw [if_pos e.symm] at refcnt
      subst e
      show (t.vmas (t.lis l).vma).refcnt - 1 = _
      push_cast at refcnt
      omega
    · rename_i ne
      rw [if_neg (Ne.symm ne)] at refcnt
      simpa using refcnt
  · exact dropped.nmms.trans parting.nmms
  · exact dropped.freed.trans parting.freed

/-- **`mm_free`** returns, whatever the tables hold, when another space counts the kernel's areas. -/
theorem Books.mmFree (rs : RegionTable) (books : Books s live lists areas) (here : live mm) (whole : Whole (areas mm))
    (counted : ∀ a < 3, 2 ≤ (s.vmas a).refcnt) :
    ∃ s', mmFree rs mm s = .ok ((), s') ∧ Parted s s' live lists areas mm := by
  have listed := books.listed mm here
  have start : Parting s s live lists areas mm (lists mm) := by
    refine ⟨books, ⟨[], rfl⟩, fun a lt => ?_, rfl, rfl⟩
    rw [books.vmas mm here, whole.count lt]
    push_cast
    omega
  obtain ⟨t, walked, parting⟩ := walkAreas_returns
    (Mm.freeArea rs mm) (fun li => modify fun s => { s with freedLis := li :: s.freedLis })
    (fun ls t => Parting s t live lists areas mm ls)
    (fun l ls t parting => parting.round here counted)
    (length_le_of_nodup listed.nodup fun l mem => (listed.bound l mem).2) start
  rw [← listed.head] at walked
  obtain ⟨_, u, freed, _⟩ : ∃ a u, freeFrame rs (t.mms mm).p4 t = .ok (a, u) ∧ RootsAligned u :=
    rooted_freeFrame (parting.books.root mm) t parting.books.root
  have same := sameBooks_freeFrame t _ u freed
  refine ⟨{ u with freedMms := mm :: u.freedMms }, ?_, ?_⟩
  · refine Budget.bind_eq_ok.mpr ⟨(), t, Budget.bind_eq_ok.mpr ⟨s, s, rfl, walked⟩, ?_⟩
    exact Budget.bind_eq_ok.mpr ⟨t, t, rfl, Budget.bind_eq_ok.mpr ⟨(), u, freed, rfl⟩⟩
  · have after := parting.books.same same
    refine ⟨⟨after.head, after.nodes, after.shape, after.named, after.root,
      fun kernel => after.kernel kernel.1, fun k there => ?_, fun k there => after.vmas k there.1,
      fun k there => after.area k there.1,
      fun k j l thereK thereJ => after.apart k j l thereK.1 thereJ.1⟩, fun a lt => ?_,
      same.nmms.trans parting.nmms, ?_⟩
    · exact (after.listed k there.1).congr rfl (fun _ _ => rfl) (Nat.le_refl _)
    · show (u.vmas a).refcnt = _
      rw [same.vmas, parting.refcnt a lt]
      simp [Vmm.vmasOf]
    · show mm :: u.freedMms = _
      rw [same.freed, parting.freed]

/-! ## The kernel's own -/

/-- Mapping a range changes tables and frames only. -/
theorem sameBooks_vmmMapRange {virt phys n prot : Nat} {user : Bool} :
    Relates SameBooks (vmmMapRange rs mm virt phys n prot user) :=
  sameBooks.bind sameBooks_panicIf fun _ => sameBooks.forTo fun _ =>
    sameBooks.bind sameBooks_intOffset fun _ => sameBooks_vmmMapPage

/-- `kernel_mm_init` leaves the books of no space, and the kernel's areas uncounted. -/
theorem kernelMmInit_books {m : Bytes} (lists areas : Nat → List Nat)
    (ran : kernelMmInit rs 0 (Vmm.boot rs m) = .ok ((), s)) :
    Books s (fun _ => False) lists areas ∧ (∀ a < 3, (s.vmas a).refcnt = 0) ∧ s.nmms = 1 ∧
      s.freedMms = [] := by
  obtain ⟨_, _, headed, ran⟩ := Budget.bind_eq_ok.mp ran
  cases headed
  obtain ⟨_, _, recorded, ran⟩ := Budget.bind_eq_ok.mp ran
  cases recorded
  obtain ⟨_, t₀, mapped₀, ran⟩ := Budget.bind_eq_ok.mp ran
  obtain ⟨_, _, linked, ran⟩ := Budget.bind_eq_ok.mp ran
  cases linked
  obtain ⟨_, _, recorded, ran⟩ := Budget.bind_eq_ok.mp ran
  cases recorded
  obtain ⟨_, t₁, mapped₁, ran⟩ := Budget.bind_eq_ok.mp ran
  obtain ⟨_, _, linked, ran⟩ := Budget.bind_eq_ok.mp ran
  cases linked
  obtain ⟨_, _, recorded, ran⟩ := Budget.bind_eq_ok.mp ran
  cases recorded
  obtain ⟨_, t₂, mapped₂, ran⟩ := Budget.bind_eq_ok.mp ran
  cases ran
  have same₀ := sameBooks_vmmMapRange _ _ t₀ mapped₀
  have same₁ := sameBooks_vmmMapRange _ _ t₁ mapped₁
  have same₂ := sameBooks.forTo (fun _ => sameBooks_mapFresh) _ _ t₂ mapped₂
  have vmas : t₂.vmas = Function.update (Function.update (Function.update (fun _ => {}) 0
      (kernelShape 0)) 1 (kernelShape 1)) 2 (kernelShape 2) := by
    rw [same₂.vmas]
    simp only [Vmm.modifyVma, Vmm.modifyLi, same₁.vmas, same₀.vmas]
    rfl
  have lis : (t₂.modifyLi 2 fun _ => { vma := 2, next := none, prev := some 1 }).lis =
      Function.update (Function.update (Function.update (fun _ => {}) 0 ⟨0, some 1, none⟩) 1
        ⟨1, some 2, some 0⟩) 2 ⟨2, none, some 1⟩ := by
    simp only [Vmm.modifyLi, same₂.lis, Vmm.modifyVma, same₁.lis, same₀.lis]
    rfl
  have head : (t₂.mms 0).vmAreas = some 0 := by
    rw [same₂.heads]
    show (t₁.mms 0).vmAreas = _
    rw [same₁.heads]
    show (t₀.mms 0).vmAreas = _
    rw [same₀.heads]
    rfl
  have root : ∀ k, (t₂.mms k).p4 % pageSize = 0 := by
    apply same₂.root
    apply same₁.root
    apply same₀.root
    intro k
    by_cases e : k = 0 <;> simp [Vmm.modifyMm, Vmm.modifyVma, Vmm.boot, e]
  have nvmas : t₂.nvmas = 3 := by
    rw [same₂.nvmas]
    show t₁.nvmas = _
    rw [same₁.nvmas]
    exact same₀.nvmas
  have nlis : t₂.nlis = 3 := by
    rw [same₂.nlis]
    show t₁.nlis = _
    rw [same₁.nlis]
    exact same₀.nlis
  refine ⟨⟨head, ?_, fun a lt => ?_, ⟨nvmas.ge, nlis.ge⟩, root, id, fun _ none => none.elim,
    fun _ none => none.elim, fun _ none => none.elim, fun _ _ _ none => none.elim⟩, fun a lt => ?_,
    ?_, ?_⟩
  · rw [lis]
    exact ⟨rfl, rfl, rfl⟩
  · show (t₂.vmas a).shape = _
    rw [vmas]
    obtain rfl | rfl | rfl : a = 0 ∨ a = 1 ∨ a = 2 := by omega
    all_goals rfl
  · show (t₂.vmas a).refcnt = _
    rw [vmas]
    obtain rfl | rfl | rfl : a = 0 ∨ a = 1 ∨ a = 2 := by omega
    all_goals rfl
  · show t₂.nmms = _
    rw [same₂.nmms]
    show t₁.nmms = _
    rw [same₁.nmms]
    exact same₀.nmms
  · show t₂.freedMms = _
    rw [same₂.freed]
    show t₁.freedMms = _
    rw [same₁.freed]
    exact same₀.freed

end Blackcomb.Mm
