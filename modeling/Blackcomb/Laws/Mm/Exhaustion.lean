import Blackcomb.Lib.Relates
import Blackcomb.Laws.Mm.Spaces

/-!
# Running out of frames

When every frame is handed out, `pmm_alloc` returns `0`, which is also an address: it zeroes the page
there, and none of its callers tests the result. The page at `0` is no frame. So what is handed out
keeps its contents and, unless a region starts at `0` and has its bitmap there, its bits. But
`vmm_map_page` makes a table of that page, and `anon_mmap` maps it: either installs an entry that
points to no frame handed out.

**What it does not establish.** What a run does after such an entry is not followed: from then on
tables and bitmaps may be written through it.
-/

namespace Blackcomb.Mm

open Memory Bitmap Run Budget

variable {rs : RegionTable} {r q : Region} {s s' t : Vmm} {m : Bytes} {mm virt phys flags : Nat}
  {p : Path} {i : Fin 512} {entry : Path × Nat}

/-! ## The calls -/

/-- The calls that ask for frames. -/
inductive AllocCall
  | pmmAlloc
  | vmmMapPage (mm virt phys flags : Nat)
  | anonMmap (mm start pages prot : Nat) (user : Bool)

/-- One of the `if`s of `vmm_map_page` finds no table. -/
def Vmm.LacksTable (s : Vmm) (mm virt : Nat) : Prop :=
  (s.mms mm).p4 = 0 ∨ s.p4GetEntry mm (p4Ndx virt) = 0 ∨
    s.p3GetEntry mm (p4Ndx virt) (p3Ndx virt) = 0 ∨
    s.p2GetEntry mm (p4Ndx virt) (p3Ndx virt) (p2Ndx virt) = 0

namespace AllocCall

def run (rs : RegionTable) : AllocCall → Op Unit
  | .pmmAlloc => do
    let _ ← allocFrame rs
  | .vmmMapPage mm virt phys flags => Mm.vmmMapPage rs mm virt phys flags
  | .anonMmap mm start pages prot user => Mm.anonMmap rs mm start pages prot user

/-- The call makes a `pmm_alloc`: flags are the low bits of an entry and not all clear, and `int`
offsets do not overflow. -/
def Asks (s : Vmm) : AllocCall → Prop
  | .pmmAlloc => True
  | .vmmMapPage mm virt _ flags => 0 < flags ∧ flags < pageSize ∧ s.LacksTable mm virt
  | .anonMmap _ start pages _ _ => start % pageSize = 0 ∧ 0 < pages ∧ pages ≤ 2 ^ 19

/-- The entries for which the call takes a frame from `pmm_alloc`: the page that `vmm_map_page` maps
is chosen by its caller. -/
def Draws : AllocCall → Path → Prop
  | .vmmMapPage _ _ _ _, p => p.length ≤ 3
  | _, _ => True

end AllocCall

/-- An entry was installed between two states. -/
def Installed (s s' : Vmm) (entry : Path × Nat) : Prop :=
  ∃ new, s'.installs = new ++ s.installs ∧ entry ∈ new

/-- A call that ran out of frames did no harm. -/
structure Contained (rs : RegionTable) (call : AllocCall) (s s' : Vmm) : Prop where
  bitmaps : ∀ r ∈ rs.regions, ∀ a, r.start ≤ a → a < r.start + r.bmapSize →
    s'.frames.mem a = s.frames.mem a
  contents : ∀ f ∈ s.frames.taken, SameFrame s.frames.mem s'.frames.mem f
  entries : ∀ p e, Installed s s' (p, e) → call.Draws p → e ≠ 0 → pageOf e ∈ s.frames.taken
  once : ∀ t, Reach (Frames.step rs) (Frames.Allowed rs) ⟨s'.frames.mem, s.frames.taken⟩ t →
    (pmmAlloc rs t.mem).1 ∉ t.taken

/-! ## A full allocator -/

/-- Every frame is handed out. -/
def Full (rs : RegionTable) (s : Vmm) : Prop := ∀ f, IsFrame rs f → f ∈ s.frames.taken

/-- A search whose regions are used up: the first page of a region at `0` may be free, and is taken
for the failure value. -/
theorem allocFrom_dry (m : Bytes) (qs : List Region)
    (disjoint : qs.Pairwise fun r q => r.stop ≤ q.start ∨ q.stop ≤ r.start)
    (first : ∀ r ∈ qs, 0 < r.pages → r.start = 0 → regionGetBit m r 0 = false)
    (used : ∀ r ∈ qs, r.start ≠ 0 → ∀ j < r.pages, regionGetBit m r j = true) :
    (allocFrom m qs).1 = 0 := by
  induction qs generalizing m with
  | nil => rfl
  | cons r qs ih =>
    rw [List.pairwise_cons] at disjoint
    have next := ih m disjoint.2 (fun q hq => first q (List.mem_cons_of_mem r hq))
      fun q hq => used q (List.mem_cons_of_mem r hq)
    rw [allocFrom, findFreePage]
    rcases findFreePageFrom_spec m r 0 r.pages with ⟨none, _⟩ | ⟨j, _, high, clear, found⟩
    · rw [none]
      simp only [ne_eq, not_true_eq_false, if_false]
      exact next
    · by_cases low : r.start = 0
      · have pages : 0 < r.pages := by omega
        have free := first r List.mem_cons_self pages low
        -- the loop stops at the first page
        obtain ⟨n, rest⟩ : ∃ n, r.pages = n + 1 := ⟨r.pages - 1, by omega⟩
        have zero : findFreePageFrom m r 0 r.pages = (0, regionSetBit m r 0) := by
          rw [rest, findFreePageFrom, free, low]
          rfl
        rw [zero]
        simp only [ne_eq, not_true_eq_false, if_false]
        have above : ∀ q ∈ qs, q.start ≠ 0 ∨ q.pages = 0 := by
          intro q hq
          have apart := disjoint.1 q hq
          simp only [Region.stop, pageSize] at apart
          omega
        apply ih _ disjoint.2
        · intro q hq pages at_
          rcases above q hq with ne | none
          · exact absurd at_ ne
          · omega
        · intro q hq ne j lt
          have set := used q (List.mem_cons_of_mem r hq) ne j lt
          rw [← set]
          apply bit_congr
          rw [regionSetBit, setBit_outside]
          simp only [low]
          omega
      · rw [used r List.mem_cons_self low j (by omega)] at clear
        cases clear

/-- In a full memory all bits are set. -/
theorem Full.bits (full : Full rs s) (inv : FramesInv rs s.frames) (hr : r ∈ rs.regions) {j : Nat}
    (lt : j < r.pages) : regionGetBit s.frames.mem r j = true := by
  rw [inv.bits r hr j lt]
  by_cases low : j < r.bmapPages
  · exact .inl low
  · exact .inr (full _ ⟨r, hr, j, Nat.not_lt.mp low, lt, rfl⟩)

/-- The page at `0` overlaps no page of a region that starts elsewhere. -/
theorem Region.above (r : Region) (ne : r.start ≠ 0) : pageSize ≤ r.start := by
  have aligned := r.aligned
  simp only [pageSize] at *
  omega

/-- `pmm_alloc` keeps failing. -/
theorem Full.dry (full : Full rs s) (inv : FramesInv rs s.frames) :
    (pmmAlloc rs (memset s.frames.mem 0 0 pageSize)).1 = 0 := by
  apply allocFrom_dry _ _ rs.disjoint
  · intro r _ _ low
    simp [regionGetBit, bit, low, memset_apply, pageSize]
  · intro r hr ne j lt
    rw [← full.bits inv hr lt]
    apply bit_congr
    have above := r.above ne
    rw [memset_apply, if_neg (by omega)]

/-! ## Entries installed -/

/-- What was installed stays in the history. -/
def Grows (s s' : Vmm) : Prop := s.installs <:+ s'.installs

/-- The record of installed entries only grows, through sequences too. -/
theorem grows : Closed Grows where
  refl _ := List.suffix_refl _
  trans := List.IsSuffix.trans

/-- An entry installed later is installed over the whole run. -/
theorem Installed.first (grows : Grows s t) (installed : Installed t s' entry) :
    Installed s s' entry := by
  obtain ⟨old, added⟩ := grows
  obtain ⟨new, later, mem⟩ := installed
  refine ⟨new ++ old, ?_, List.mem_append_left _ mem⟩
  rw [later, ← added, List.append_assoc]

/-- An entry installed earlier stays installed. -/
theorem Installed.last (installed : Installed s t entry) (grows : Grows t s') :
    Installed s s' entry := by
  obtain ⟨new, added, mem⟩ := installed
  obtain ⟨old, later⟩ := grows
  refine ⟨old ++ new, ?_, List.mem_append_right _ mem⟩
  rw [← later, added, List.append_assoc]

/-- A written entry is recorded. -/
theorem installed_setEntry {e : Nat} : Installed s (s.setEntry mm p i e) (i :: p, e) :=
  ⟨[(i :: p, e)], rfl, List.mem_cons_self⟩

/-- Taking a frame installs nothing. -/
theorem grows_allocFrame : Relates Grows (allocFrame rs) := by
  intro s f s' h
  rw [allocFrame_eq] at h
  cases h
  exact List.suffix_refl _

/-- Writing an entry adds it to the record. -/
theorem grows_setEntry {e : Nat} : Relates Grows (modify (·.setEntry mm p i e) : Op Unit) :=
  .modify fun _ => List.suffix_cons _ _

/-- Building the top table keeps the record. -/
theorem grows_growRoot : Relates Grows (growRoot rs mm) :=
  grows.of_get fun _ => .ite (grows.bind grows_allocFrame fun _ =>
    .modify fun _ => List.suffix_refl _) (grows.pure _)

/-- Building a table keeps the record. -/
theorem grows_growTable : Relates Grows (growTable rs mm p i flags) :=
  grows.of_get fun _ => .ite (grows.bind grows_allocFrame fun _ => grows_setEntry) (grows.pure _)

/-- Mapping a page keeps the record. -/
theorem grows_vmmMapPage : Relates Grows (vmmMapPage rs mm virt phys flags) :=
  grows.bind grows_growRoot fun _ => grows.bind grows_growTable fun _ =>
    grows.bind grows_growTable fun _ => grows.bind grows_growTable fun _ => grows_setEntry

/-- Mapping a fresh page keeps the record. -/
theorem grows_mapFresh {start j : Nat} : Relates Grows (mapFresh rs mm start flags j) :=
  grows.bind (.ite (grows.pure _) (.throw _)) fun _ => grows.bind grows_allocFrame fun _ =>
    grows_vmmMapPage

/-- An area's list node is no table entry. -/
theorem insertVma_installs {r : Nat} : (s.insertVma mm r).installs = s.installs := by
  simp only [Vmm.insertVma]
  split <;> rfl

/-! ## Calls that return -/

theorem returns_allocFrame : Returns (allocFrame rs) := fun _ => ⟨_, _, rfl⟩

/-- Building a table returns, also when there is no frame. -/
theorem returns_growTable : Returns (growTable rs mm p i flags) :=
  .of_get fun _ => .ite (fun _ => .bind returns_allocFrame fun _ => .modify _) fun _ => .pure _

/-- So does mapping a page. -/
theorem returns_vmmMapPage (mm virt phys flags : Nat) :
    Returns (vmmMapPage rs mm virt phys flags) := by
  have root : Returns (growRoot rs mm) :=
    .of_get fun _ => .ite (fun _ => .bind returns_allocFrame fun _ => .modify _) fun _ => .pure _
  exact .bind root fun _ => .bind returns_growTable fun _ => .bind returns_growTable fun _ =>
    .bind returns_growTable fun _ => .modify _

/-- Below `2^19` the offset is an `int`. -/
theorem returns_intOffset {j : Nat} (small : j < 2 ^ 19) : Returns (intOffset j) := by
  refine .ite (fun _ => .pure _) fun past => ?_
  simp only [pageSize] at past
  omega

/-- Mapping a fresh page returns, also when there is no frame. -/
theorem returns_mapFresh {start j : Nat} (small : j < 2 ^ 19) :
    Returns (mapFresh rs mm start flags j) :=
  .bind (returns_intOffset small) fun _ => .bind returns_allocFrame fun _ =>
    returns_vmmMapPage _ _ _ _

/-- Mapping fresh pages returns for every aligned range short enough for the loop counter. -/
theorem returns_anonMmap {start pages : Nat} (mm prot : Nat) (user : Bool)
    (aligned : start % pageSize = 0) (small : pages ≤ 2 ^ 19) :
    Returns (anonMmap rs mm start pages prot user) := by
  apply Returns.bind
  · exact .ite (fun c => absurd aligned c) fun _ => .pure _
  intro _
  apply Returns.bind
  · exact .forTo fun j lt => returns_mapFresh (by omega)
  · exact fun _ => .of_get fun _ => .bind (.modify _) fun _ => .modify _

/-- So does mapping a range of physical memory. -/
theorem returns_vmmMapRange {virt pages prot : Nat} {user : Bool} (aligned : virt % pageSize = 0)
    (small : pages ≤ 2 ^ 19) : Returns (vmmMapRange rs mm virt 0 pages prot user) := by
  apply Returns.bind
  · refine .ite (fun bad => ?_) fun _ => .pure _
    exact absurd (bad.resolve_left (not_not.mpr aligned)) (by decide)
  · exact fun _ => .forTo fun j lt => .bind (returns_intOffset (by omega)) fun _ =>
      returns_vmmMapPage _ _ _ _

/-- `kernel_mm_init` returns, whatever frames there are. -/
theorem returns_kernelMmInit (rs : RegionTable) (mm : Nat) : Returns (kernelMmInit rs mm) :=
  .bind (.modify _) fun _ => .bind (.modify _) fun _ =>
    .bind (returns_vmmMapRange (by decide) (by decide)) fun _ => .bind (.modify _) fun _ =>
    .bind (.modify _) fun _ => .bind (returns_vmmMapRange (by decide) (by decide)) fun _ =>
    .bind (.modify _) fun _ => .bind (.modify _) fun _ =>
    .bind (.forTo fun _ lt => returns_mapFresh (by simp only [kernelBrkPages] at lt; omega)) fun _ =>
    .modify _

/-! ## What goes wrong -/

/-- `pmm_alloc` fails and its caller goes on. -/
theorem allocFrame_dry (dry : (pmmAlloc rs s.frames.mem).1 = 0) :
    ∃ t, allocFrame rs s = .ok (0, t) ∧ t.frames.mem = (pmmAlloc rs s.frames.mem).2 ∧
      t.mms = s.mms ∧ t.installs = s.installs := by
  have call : allocFrame rs s = _ := allocFrame_eq
  rw [dry] at call
  exact ⟨_, call, rfl, rfl, rfl⟩

/-- The page at `0` becomes a table. -/
theorem growTable_dry (dry : (pmmAlloc rs s.frames.mem).1 = 0) (zero : s.getEntry mm p i = 0)
    (ran : growTable rs mm p i flags s = .ok ((), t)) : Installed s t (i :: p, flags) := by
  obtain ⟨u, alloced, _, _, same⟩ := allocFrame_dry dry
  obtain ⟨_, _, got, ran⟩ := Budget.bind_eq_ok.mp ran
  cases got
  rw [if_pos zero] at ran
  obtain ⟨_, _, alloced', ran⟩ := Budget.bind_eq_ok.mp ran
  rw [alloced] at alloced'
  cases alloced'
  cases ran
  rw [Nat.zero_or]
  exact ⟨[(i :: p, flags)], congrArg _ same, List.mem_cons_self⟩

/-- A table that is there is kept. -/
theorem growTable_kept (there : s.getEntry mm p i ≠ 0)
    (ran : growTable rs mm p i flags s = .ok ((), t)) : t = s := by
  obtain ⟨_, _, got, ran⟩ := Budget.bind_eq_ok.mp ran
  cases got
  rw [if_neg there] at ran
  cases ran
  rfl

/-- A space that has its top table keeps it. -/
theorem growRoot_kept (there : (s.mms mm).p4 ≠ 0) (ran : growRoot rs mm s = .ok ((), t)) :
    t = s := by
  obtain ⟨_, _, got, ran⟩ := Budget.bind_eq_ok.mp ran
  cases got
  rw [if_neg there] at ran
  cases ran
  rfl

/-- Without a p4 table, the page at `0` becomes the p4 table, and it is empty. -/
theorem growRoot_dry (inv : FramesInv rs s.frames) (full : Full rs s) (none : (s.mms mm).p4 = 0)
    (ran : growRoot rs mm s = .ok ((), t)) : t.frames.mem = memset s.frames.mem 0 0 pageSize ∧
      t.getEntry mm [] i = 0 := by
  have failed := inv.alloc_full full
  obtain ⟨u, alloced, mem, _⟩ := allocFrame_dry (congrArg Prod.fst failed)
  obtain ⟨_, _, got, ran⟩ := Budget.bind_eq_ok.mp ran
  cases got
  rw [if_pos none] at ran
  obtain ⟨_, _, alloced', ran⟩ := Budget.bind_eq_ok.mp ran
  rw [alloced] at alloced'
  cases alloced'
  cases ran
  have mem : u.frames.mem = memset s.frames.mem 0 0 pageSize := mem.trans (congrArg Prod.snd failed)
  refine ⟨mem, ?_⟩
  have base : (u.modifyMm mm ({ · with p4 := 0 })).tableAt mm [] = 0 := by
    simp [Vmm.tableAt, Vmm.modifyMm]
  rw [Vmm.getEntry, base]
  apply entryAt_zeroed
  intro a low high
  show u.frames.mem a = 0
  rw [mem, memset_apply, if_pos ⟨low, high⟩]

/-- `vmm_map_page` makes a table of the page at `0`. -/
theorem vmmMapPage_installs (inv : FramesInv rs s.frames) (full : Full rs s)
    (lacks : s.LacksTable mm virt) (ran : vmmMapPage rs mm virt phys flags s = .ok ((), s')) :
    ∃ p, p.length ≤ 3 ∧ Installed s s' (p, flags) := by
  have dry : (pmmAlloc rs s.frames.mem).1 = 0 := by rw [inv.alloc_full full]
  obtain ⟨_, t₀, root, ran⟩ := Budget.bind_eq_ok.mp ran
  obtain ⟨_, t₁, grown₁, ran⟩ := Budget.bind_eq_ok.mp ran
  have later₁ := grows.bind grows_growTable (fun _ => grows.bind grows_growTable fun _ =>
    grows_setEntry) _ _ _ ran
  obtain ⟨_, t₂, grown₂, ran⟩ := Budget.bind_eq_ok.mp ran
  have later₂ := grows.bind grows_growTable (fun _ => grows_setEntry) _ _ _ ran
  obtain ⟨_, t₃, grown₃, ran⟩ := Budget.bind_eq_ok.mp ran
  have later₃ := grows_setEntry _ _ _ ran
  by_cases p4 : (s.mms mm).p4 = 0
  · obtain ⟨mem, zero⟩ := growRoot_dry (i := p4Ndx virt) inv full p4 root
    have dry' : (pmmAlloc rs t₀.frames.mem).1 = 0 := by rw [mem, full.dry inv]
    exact ⟨_, by simp, ((growTable_dry dry' zero grown₁).first
      (grows_growRoot _ _ _ root)).last later₁⟩
  obtain rfl := growRoot_kept p4 root
  by_cases p3 : t₀.getEntry mm [] (p4Ndx virt) = 0
  · exact ⟨_, by simp, (growTable_dry dry p3 grown₁).last later₁⟩
  obtain rfl := growTable_kept p3 grown₁
  by_cases p2 : t₁.getEntry mm [p4Ndx virt] (p3Ndx virt) = 0
  · exact ⟨_, by simp, (growTable_dry dry p2 grown₂).last later₂⟩
  obtain rfl := growTable_kept p2 grown₂
  by_cases p1 : t₂.getEntry mm [p3Ndx virt, p4Ndx virt] (p2Ndx virt) = 0
  · exact ⟨_, by simp, (growTable_dry dry p1 grown₃).last later₃⟩
  rcases lacks with zero | zero | zero | zero
  · exact absurd zero p4
  · exact absurd zero p3
  · exact absurd zero p2
  · exact absurd zero p1

/-- The page is mapped last. -/
theorem vmmMapPage_leaf (ran : vmmMapPage rs mm virt phys flags s = .ok ((), s')) :
    Installed s s' (pathOf virt, phys ||| flags) := by
  obtain ⟨_, t₀, root, ran⟩ := Budget.bind_eq_ok.mp ran
  obtain ⟨_, t₁, grown₁, ran⟩ := Budget.bind_eq_ok.mp ran
  obtain ⟨_, t₂, grown₂, ran⟩ := Budget.bind_eq_ok.mp ran
  obtain ⟨_, t₃, grown₃, ran⟩ := Budget.bind_eq_ok.mp ran
  cases ran
  have before : Grows s t₃ := by
    apply grows.trans (grows_growRoot _ _ _ root)
    apply grows.trans (grows_growTable _ _ _ grown₁)
    exact grows.trans (grows_growTable _ _ _ grown₂) (grows_growTable _ _ _ grown₃)
  exact installed_setEntry.first before

/-- The first page of a range that finds no frame is mapped to the page at `0`. -/
theorem mapFresh_installs {start n : Nat} (inv : FramesInv rs s.frames) (full : Full rs s)
    (ran : forTo (n + 1) (mapFresh rs mm start flags) s = .ok ((), s')) :
    ∃ p, Installed s s' (p, flags) := by
  induction n generalizing s' with
  | zero =>
    obtain ⟨_, _, none, round⟩ := Budget.bind_eq_ok.mp ran
    cases none
    obtain ⟨_, _, offset, round⟩ := Budget.bind_eq_ok.mp round
    rw [intOffset_eq (by decide), Except.ok.injEq, Prod.mk.injEq] at offset
    obtain ⟨rfl, rfl⟩ := offset
    obtain ⟨u, alloced, _, _, same⟩ := allocFrame_dry (congrArg Prod.fst (inv.alloc_full full))
    obtain ⟨_, _, alloced', mapped⟩ := Budget.bind_eq_ok.mp round
    rw [alloced] at alloced'
    cases alloced'
    have leaf := vmmMapPage_leaf mapped
    rw [Nat.zero_or] at leaf
    exact ⟨_, leaf.first (by rw [Grows, same])⟩
  | succ n ih =>
    obtain ⟨_, t, before, round⟩ := Budget.bind_eq_ok.mp ran
    obtain ⟨p, installed⟩ := ih before
    exact ⟨p, installed.last (grows_mapFresh _ _ _ round)⟩

/-- `anon_mmap` maps the page at `0`. -/
theorem anonMmap_installs {start pages prot : Nat} {user : Bool} (inv : FramesInv rs s.frames)
    (full : Full rs s) (some : 0 < pages)
    (ran : anonMmap rs mm start pages prot user s = .ok ((), s')) :
    ∃ p, Installed s s' (p, pageFlags prot user) := by
  obtain ⟨_, t, checked, ran⟩ := Budget.bind_eq_ok.mp ran
  have same : t = s := by
    unfold panicIf at checked
    split at checked
    · cases checked
    · cases checked
      rfl
  rw [same] at ran
  obtain ⟨_, u, looped, ran⟩ := Budget.bind_eq_ok.mp ran
  obtain ⟨_, _, got, ran⟩ := Budget.bind_eq_ok.mp ran
  cases got
  obtain ⟨_, _, assigned, inserted⟩ := Budget.bind_eq_ok.mp ran
  cases assigned
  have later : Grows u s' := by
    cases inserted
    rw [Grows, insertVma_installs]
  obtain ⟨n, rfl⟩ : ∃ n, pages = n + 1 := ⟨pages - 1, by omega⟩
  obtain ⟨p, installed⟩ := mapFresh_installs inv full looped
  exact ⟨p, installed.last later⟩

/-! ## The law -/

/-- No region that has pages starts at `0`. -/
def NoneAtZero (rs : RegionTable) : Prop := ∀ r ∈ rs.regions, 0 < r.pages → r.start ≠ 0

/-- The page at `0` is no frame handed out. -/
theorem not_taken {flags : Nat} (inv : FramesInv rs s.frames) (small : flags < pageSize) :
    pageOf flags ∉ s.frames.taken := by
  intro mem
  have pos := (inv.frames _ mem).pos
  rw [pageOf, Nat.mod_eq_of_lt small] at pos
  omega

/-- A present entry on the path of a call shows that it was not contained. -/
theorem Installed.not_contained {call : AllocCall} (inv : FramesInv rs s.frames)
    (installed : Installed s s' (p, flags)) (draws : call.Draws p) (pos : 0 < flags)
    (small : flags < pageSize) : ¬ Contained rs call s s' := fun contained =>
  not_taken inv small (contained.entries p flags installed draws (Nat.ne_of_gt pos))

/-- What `pmm_alloc` does to a full memory. -/
theorem pmmAlloc_contained_iff (inv : FramesInv rs s.frames)
    (mem : s'.frames.mem = memset s.frames.mem 0 0 pageSize) (installs : s'.installs = s.installs) :
    Contained rs .pmmAlloc s s' ↔ NoneAtZero rs := by
  constructor
  · intro contained r hr pages low
    have reserved := inv.reserved hr pages
    have size := Region.byte_lt pages
    have same := contained.bitmaps r hr r.start (Nat.le_refl _) (by omega)
    rw [mem, memset_apply, if_pos (by simp [low, pageSize])] at same
    simp [regionGetBit, bit, ← same] at reserved
  · intro none
    have kept : ∀ a, pageSize ≤ a → s'.frames.mem a = s.frames.mem a := by
      intro a above
      rw [mem, memset_apply, if_neg (by omega)]
    have bitmaps : ∀ r ∈ rs.regions, ∀ a, r.start ≤ a → a < r.start + r.bmapSize →
        s'.frames.mem a = s.frames.mem a := by
      intro r hr a low high
      have pages : 0 < r.pages := by
        simp only [Region.bmapSize] at high
        omega
      exact kept a ((r.above (none r hr pages)).trans low)
    refine ⟨bitmaps, fun f taken a low _ => ?_, fun p e installed => ?_, fun t reached => ?_⟩
    · have frame := inv.frames f taken
      have pos := frame.pos
      have aligned := frame.aligned
      apply kept
      simp only [pageSize] at *
      omega
    · obtain ⟨new, added, mem⟩ := installed
      rw [installs, List.self_eq_append_left] at added
      rw [added] at mem
      cases mem
    · have start : FramesInv rs ⟨s'.frames.mem, s.frames.taken⟩ := inv.congr fun r hr j lt => by
        have inside := Region.byte_lt lt
        exact bitmaps r hr _ (Nat.le_add_right _ _) (by omega)
      have later : FramesInv rs t := reached.invariant (FramesInv rs) start
        fun _ _ _ inv allowed taken => inv.step allowed taken
      by_cases free : ∃ g, IsFrame rs g ∧ g ∉ t.taken
      · obtain ⟨r, _, j, _, _, unused, found⟩ := later.alloc free
        rw [found]
        exact unused
      · have none : ∀ g, IsFrame rs g → g ∈ t.taken := by
          intro g frame
          by_contra out
          exact free ⟨g, frame, out⟩
        rw [later.alloc_full none]
        intro zero
        exact absurd (later.frames 0 zero).pos (Nat.lt_irrefl 0)

/-- **Running out of frames.** In a memory all of whose frames are handed out, a call that asks for
one returns. It is contained exactly when it is a `pmm_alloc` by itself and no region starts at `0`:
`vmm_map_page` and `anon_mmap` always install an entry to the page at `0`. -/
theorem contained_iff (rs : RegionTable) (s : Vmm) (call : AllocCall) (inv : FramesInv rs s.frames)
    (full : Full rs s) (asks : call.Asks s) :
    ∃ s', call.run rs s = .ok ((), s') ∧
      (Contained rs call s s' ↔ call = .pmmAlloc ∧ NoneAtZero rs) := by
  cases call with
  | pmmAlloc =>
    have failed := inv.alloc_full full
    obtain ⟨s', alloced, mem, _, installs⟩ := allocFrame_dry (congrArg Prod.fst failed)
    refine ⟨s', Budget.bind_eq_ok.mpr ⟨0, s', alloced, rfl⟩, ?_⟩
    rw [pmmAlloc_contained_iff inv (mem.trans (congrArg Prod.snd failed)) installs,
      and_iff_right rfl]
  | vmmMapPage mm virt phys flags =>
    obtain ⟨pos, small, lacks⟩ := asks
    obtain ⟨_, s', ran⟩ := returns_vmmMapPage mm virt phys flags s
    obtain ⟨p, short, installed⟩ := vmmMapPage_installs inv full lacks ran
    refine ⟨s', ran, iff_of_false (installed.not_contained inv short pos small) ?_⟩
    rintro ⟨other, _⟩
    cases other
  | anonMmap mm start pages prot user =>
    obtain ⟨aligned, some, few⟩ := asks
    obtain ⟨_, s', ran⟩ := returns_anonMmap mm prot user aligned few s
    obtain ⟨p, installed⟩ := anonMmap_installs inv full some ran
    refine ⟨s', ran, iff_of_false (installed.not_contained inv trivial ?_ ?_) ?_⟩
    · exact pageFlags_pos prot user
    · exact pageFlags_lt prot user
    · rintro ⟨other, _⟩
      cases other

/-- A memory of one region of two pages, a bitmap and a frame. -/
def pairTable (start : Nat) (aligned : start % pageSize = 0) (fits : start + 2 * pageSize ≤ 2 ^ 52) :
    RegionTable :=
  ⟨[{ start, pages := 2, aligned, fits }], List.pairwise_singleton _ _⟩

/-- The state after the one frame was handed out. -/
theorem exists_full (start : Nat) (aligned : start % pageSize = 0)
    (fits : start + 2 * pageSize ≤ 2 ^ 52) :
    ∃ s, FramesInv (pairTable start aligned fits) s.frames ∧ Full (pairTable start aligned fits) s ∧
      s.frames.taken = [start + pageSize] := by
  generalize table : pairTable start aligned fits = rs
  have only : ∀ f, IsFrame rs f ↔ f = start + pageSize := by
    intro f
    subst table
    constructor
    · rintro ⟨r, hr, j, low, lt, rfl⟩
      obtain rfl := List.mem_singleton.mp hr
      have second : j = 1 := by
        simp only [Region.bmapPages, Region.bmapSize, pageSize] at low lt
        omega
      rw [second, Nat.one_mul]
    · rintro rfl
      refine ⟨_, List.mem_singleton_self _, 1, ?_, Nat.lt_succ_self 1, by rw [Nat.one_mul]⟩
      simp [Region.bmapPages, Region.bmapSize, pageSize]
  have inv : FramesInv rs (Vmm.boot rs fun _ => 0).frames := FramesInv.start rs _
  have free : ∃ g, IsFrame rs g ∧ g ∉ (Vmm.boot rs fun _ => 0).frames.taken :=
    ⟨_, (only _).mpr rfl, List.not_mem_nil⟩
  obtain ⟨r, hr, j, low, lt, _, found⟩ := inv.alloc free
  have second : r.start + j * pageSize = start + pageSize := (only _).mp ⟨r, hr, j, low, lt, rfl⟩
  have next : FramesInv rs ⟨(pmmAlloc rs (Vmm.boot rs fun _ => 0).frames.mem).2,
      [(pmmAlloc rs (Vmm.boot rs fun _ => 0).frames.mem).1]⟩ :=
    inv.step (show Frames.Allowed rs .alloc _ from free) rfl
  have taken : (pmmAlloc rs (Vmm.boot rs fun _ => 0).frames.mem).1 = start + pageSize := by
    rw [found, second]
  rw [taken] at next
  refine ⟨{ Vmm.boot rs fun _ => 0 with frames := _ }, next, fun f frame => ?_, rfl⟩
  rw [(only f).mp frame]
  exact List.mem_singleton_self _

/-- A full memory without a region at `0`. -/
theorem contained_iff_high : ∃ s s', s.frames.taken = [0x201000] ∧
    AllocCall.run (pairTable 0x200000 (by decide) (by decide)) .pmmAlloc s = .ok ((), s') ∧
      Contained (pairTable 0x200000 (by decide) (by decide)) .pmmAlloc s s' := by
  obtain ⟨s, inv, full, taken⟩ := exists_full 0x200000 (by decide) (by decide)
  obtain ⟨s', ran, iff⟩ := contained_iff _ s .pmmAlloc inv full trivial
  refine ⟨s, s', taken, ran, iff.mpr ⟨rfl, fun r hr _ => ?_⟩⟩
  rw [List.mem_singleton.mp hr]
  decide

/-- With a region at `0`, the bit of the frame that is handed out is cleared. -/
theorem pmmAlloc_clears_bitmap : ∃ s s', FramesInv (pairTable 0 (by decide) (by decide)) s.frames ∧
    Full (pairTable 0 (by decide) (by decide)) s ∧ s.frames.taken = [0x1000] ∧
    AllocCall.run (pairTable 0 (by decide) (by decide)) .pmmAlloc s = .ok ((), s') ∧
    bit s.frames.mem 0 1 = true ∧ bit s'.frames.mem 0 1 = false ∧
    ¬ Contained (pairTable 0 (by decide) (by decide)) .pmmAlloc s s' := by
  obtain ⟨s, inv, full, taken⟩ := exists_full 0 (by decide) (by decide)
  have failed := inv.alloc_full full
  obtain ⟨s', alloced, mem, _, installs⟩ := allocFrame_dry (congrArg Prod.fst failed)
  have mem := mem.trans (congrArg Prod.snd failed)
  refine ⟨s, s', inv, full, taken, Budget.bind_eq_ok.mpr ⟨0, s', alloced, rfl⟩, ?_, ?_, ?_⟩
  · exact full.bits inv (List.mem_singleton_self _) (j := 1) (by decide)
  · simp [bit, mem, memset_apply, pageSize]
  · intro contained
    have none := (pmmAlloc_contained_iff inv mem installs).mp contained
    exact none _ (List.mem_singleton_self _) (by decide) rfl

end Blackcomb.Mm
