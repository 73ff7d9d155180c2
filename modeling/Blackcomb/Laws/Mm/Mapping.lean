import Blackcomb.Laws.Mm.Tables

/-!
# Mapping and unmapping a page

`vmm_map_page` builds the tables that are missing on the way to a page and sets the page's entry;
`vmm_unmap_page` clears the entry and takes down the tables that are left without one, from the
deepest up. Both change the slot of one page, keep the bytes of every page, and pass frames between
the tables and the allocator.

The stages are the functions of `Mm.Vmm`: `growRoot` and `growTable` on the way down, `dropTable`
and `dropRoot` on the way up. Each has a law of its own (`growTable_runs`, `dropTable_runs`), which
says how many frames it may take, what it leaves as it was (`Quiet`), and which path is then the one
without an entry. Chained, they say that the page is remapped (`Remapped`) and the tables are whole
again, and a run that met an empty allocator is told apart by its flag, which no later call takes
back (`Sticky`).

**What it does not establish.** The invariant speaks of all spaces at once. For a space of which
only its own tables are known there is `Walk`. Whether a page may be mapped, and by whom, is decided
above.
-/

namespace Blackcomb.Mm

open Memory Run Budget Ownership

variable {rs : RegionTable} {s s' s₁ s₂ : Vmm} {own own' : Nat → Path → Prop}
  {spare spare' : Option Nat} {hole : Role} {mm k f g e phys flags virt : Nat} {p q v : Path} {i j : Fin 512}

/-! ## What stays -/

/-- Only frames and p4s differ, and the history of entries and of `pmm_free`, which was called on
frames handed out only. -/
structure SameRecords (s s' : Vmm) : Prop where
  areas : ∀ mm, (s'.mms mm).vmAreas = (s.mms mm).vmAreas
  rest : { s' with
    frames := s.frames, mms := s.mms, pmmFrees := s.pmmFrees, installs := s.installs } = s
  frees : ∃ calls, s'.pmmFrees = calls ++ s.pmmFrees ∧ ∀ c ∈ calls, c.2 = true

/-- There was no `pmm_free`. -/
theorem SameRecords.of_frees (areas : ∀ mm, (s'.mms mm).vmAreas = (s.mms mm).vmAreas)
    (rest : { s' with
      frames := s.frames, mms := s.mms, pmmFrees := s.pmmFrees, installs := s.installs } = s)
    (frees : s'.pmmFrees = s.pmmFrees) : SameRecords s s' :=
  ⟨areas, rest, [], frees, fun _ absurd => (by cases absurd)⟩

theorem SameRecords.refl (s : Vmm) : SameRecords s s := .of_frees (fun _ => rfl) rfl rfl

/-- Records kept by two calls in a row are kept by both together. -/
theorem SameRecords.trans (one : SameRecords s s₁) (two : SameRecords s₁ s₂) :
    SameRecords s s₂ := by
  have later := congrArg (fun t : Vmm => { t with
    frames := s.frames, mms := s.mms, pmmFrees := s.pmmFrees, installs := s.installs }) two.rest
  obtain ⟨first, done, all⟩ := one.frees
  obtain ⟨second, done', all'⟩ := two.frees
  refine ⟨fun mm => (two.areas mm).trans (one.areas mm), later.trans one.rest, second ++ first, ?_,
    fun c mem => ?_⟩
  · rw [done', done, List.append_assoc]
  · exact (List.mem_append.mp mem).elim (all' c) (all c)

/-- Everything but the frames and the spaces. -/
theorem SameRecords.fields (same : SameRecords s s') : s'.nmms = s.nmms ∧ s'.vmas = s.vmas ∧
    s'.nvmas = s.nvmas ∧ s'.lis = s.lis ∧ s'.nlis = s.nlis ∧ s'.freedMms = s.freedMms ∧
    s'.freedVmas = s.freedVmas ∧ s'.freedLis = s.freedLis := by
  have rest := same.rest
  rw [← rest]
  exact ⟨rfl, rfl, rfl, rfl, rfl, rfl, rfl, rfl⟩

/-- A frame that is a page, or that the operation has in its hands. -/
def PageFrame (s : Vmm) (own : Nat → Path → Prop) (spare : Option Nat) (g : Nat) : Prop :=
  spare = some g ∨
    ∃ k v, v.length = 4 ∧ own k v ∧ s.slot k v ≠ 0 ∧ pageOf (s.slot k v) = g

/-- The bytes of the pages stay, the records, and the tables of the spaces other than `mm`. -/
structure Kept (s s' : Vmm) (own : Nat → Path → Prop) (spare : Option Nat) (mm : Nat) : Prop where
  pages : ∀ g, PageFrame s own spare g → SameFrame s.frames.mem s'.frames.mem g
  records : SameRecords s s'
  trees : ∀ k p, k ≠ mm → p.length ≤ 4 → s'.slot k p = s.slot k p

/-- So do the entries of the pages. -/
structure Quiet (s s' : Vmm) (own : Nat → Path → Prop) (spare : Option Nat) (mm : Nat) : Prop
    extends Kept s s' own spare mm where
  leaves : ∀ k v, v.length = 4 → s'.slot k v = s.slot k v

/-- One page's entry was set, the bytes of the pages and the records stay. -/
structure Remapped (s s' : Vmm) (own : Nat → Path → Prop) (spare : Option Nat) (mm : Nat) (v : Path)
    (e : Nat) : Prop extends Kept s s' own spare mm where
  here : s'.slot mm v = e
  others : ∀ k w, w.length = 4 → ¬ (k = mm ∧ w = v) → s'.slot k w = s.slot k w

/-- No call is the quietest of all. -/
theorem Quiet.refl (s : Vmm) : Quiet s s own spare mm :=
  ⟨⟨fun _ _ _ _ _ => rfl, .refl s, fun _ _ _ _ => rfl⟩, fun _ _ _ => rfl⟩

/-- Where the entries of the pages stay, the pages do. -/
theorem PageFrame.congr (leaves : ∀ k v, v.length = 4 → s'.slot k v = s.slot k v)
    (page : PageFrame s own spare g) : PageFrame s' own spare g := by
  rcases page with free | ⟨k, v, long, owns, here, frame⟩
  · exact .inl free
  · refine .inr ⟨k, v, long, owns, ?_⟩
    rw [leaves k v long]
    exact ⟨here, frame⟩

/-- A page kept after a quiet call is kept from before it. -/
theorem Kept.after (one : Quiet s s₁ own spare mm) (two : Kept s₁ s₂ own spare mm) :
    Kept s s₂ own spare mm := by
  refine ⟨fun g page a low high => ?_, one.records.trans two.records, fun k p ne short => ?_⟩
  · rw [two.pages g (page.congr one.leaves) a low high, one.pages g page a low high]
  · rw [two.trees k p ne short, one.trees k p ne short]

/-- Two quiet calls in a row are one. -/
theorem Quiet.trans (one : Quiet s s₁ own spare mm) (two : Quiet s₁ s₂ own spare mm) :
    Quiet s s₂ own spare mm :=
  ⟨two.toKept.after one, fun k v long => (two.leaves k v long).trans (one.leaves k v long)⟩

/-- A page remapped after a quiet call is remapped from before it. -/
theorem Remapped.after (one : Quiet s s₁ own spare mm) (two : Remapped s₁ s₂ own spare mm v e) :
    Remapped s s₂ own spare mm v e :=
  ⟨two.toKept.after one, two.here, fun k w long ne =>
    (two.others k w long ne).trans (one.leaves k w long)⟩

namespace PageFrame

/-- A page has a holder that is no table. -/
theorem holder (page : PageFrame s own spare g) :
    ∃ r, held s own spare r = some g ∧ ∀ k p, r = some (k, p) → p.length = 4 := by
  rcases page with free | ⟨k, v, long, owns, here, frame⟩
  · exact ⟨none, free, fun k p absurd => (by cases absurd)⟩
  · refine ⟨some (k, v), held_eq_some.mpr ⟨.inr ⟨long, owns⟩, here, frame⟩, fun k' p same => ?_⟩
    cases same
    exact long

/-- The frame behind a page is a taken one. -/
theorem mem (page : PageFrame s own spare g) (tables : Tables rs s own spare hole) :
    g ∈ s.frames.taken := by
  obtain ⟨r, holds, _⟩ := page.holder
  exact tables.exclusive.handed r g holds

/-- The frame behind a page belongs to the region table. -/
theorem frame (page : PageFrame s own spare g) (tables : Tables rs s own spare hole) :
    IsFrame rs g :=
  tables.frames.frames g (page.mem tables)

/-- No page is a table. -/
theorem ne_table (page : PageFrame s own spare g) (tables : Tables rs s own spare hole)
    (short : p.length ≤ 3) (here : s.slot k p ≠ 0) : g ≠ pageOf (s.slot k p) := by
  rintro rfl
  obtain ⟨r, holds, long⟩ := page.holder
  have same := tables.exclusive.unique r (some (k, p)) _ holds
    (held_eq_some.mpr ⟨.inl short, here, rfl⟩)
  have := long k p same
  omega

end PageFrame

/-! ## Frames that come and go -/

/-- Writing one frame leaves the others alone. -/
theorem sameFrame_setEntryAt {m : Bytes} (hf : IsFrame rs f) (hg : IsFrame rs g) (ne : g ≠ f) :
    SameFrame m (setEntryAt m f i e) g := by
  have apart := hg.apart hf ne
  intro a low high
  exact setEntryAt_outside (by omega)

/-- Taking a frame leaves every table entry as it was, for the free frame is no table. -/
theorem Tables.slot_alloced (tables : Tables rs s own spare hole) (alloced : Alloced rs s f s')
    (short : p.length ≤ 4) : s'.slot k p = s.slot k p := by
  have same : s'.mms = s.mms := by rw [alloced.state]
  refine slot_congr (fun k => by rw [same]) (fun k q depth here => ?_) short
  have frame := tables.layout.frame k q depth here
  have mem := tables.exclusive.handed (some (k, q)) _
    (held_eq_some.mpr ⟨.inl depth, here, rfl⟩)
  exact alloced.kept _ frame fun eq => alloced.fresh (eq ▸ mem)

/-- Giving a frame back leaves every table entry as it was, the frame being no table any more. -/
theorem Tables.slot_freed (tables : Tables rs s own spare hole) (freed : Freed rs s f s')
    (short : p.length ≤ 4) : s'.slot k p = s.slot k p := by
  have same : s'.mms = s.mms := by rw [freed.state]
  exact slot_congr (fun k => by rw [same])
    (fun k q depth here => freed.kept _ (tables.layout.frame k q depth here)) short

/-- Taking a frame changes no record. -/
theorem Alloced.records (alloced : Alloced rs s f s') : SameRecords s s' := by
  rw [alloced.state]
  exact .of_frees (fun _ => rfl) rfl rfl

/-- Taking a frame loses none of those taken before. -/
theorem Alloced.grows (alloced : Alloced rs s f s') : s.frames.taken ⊆ s'.frames.taken := by
  rw [alloced.taken]
  exact List.subset_cons_self _ _

/-- Giving a frame back changes no record. -/
theorem Freed.records (freed : Freed rs s f s') : SameRecords s s' := by
  rw [freed.state]
  refine ⟨fun _ => rfl, rfl, [(f, true)], rfl, fun c mem => ?_⟩
  rw [List.mem_singleton.mp mem]

/-! ## What only the frames handed out decide -/

/-- What a meter tells by the frames handed out: nothing but `pmm_alloc` and `pmm_free` changes it. -/
class OfFrames (rs : RegionTable) (M : Meter Vmm) : Prop where
  alloc : Sticky M (allocFrame rs)
  free : ∀ f, Sticky M (freeFrame rs f)
  rest : ∀ {s t : Vmm}, t.frames.taken = s.frames.taken → t.ranOut = s.ranOut → M.out s → M.out t

/-- Nothing forgets that it ran out. -/
instance ofFrames_meter : OfFrames rs (meter rs) where
  alloc := by
    intro s f s' h out
    rw [allocFrame_eq] at h
    cases h
    simp only [meter] at out ⊢
    rw [out, Bool.true_or]
  free := by
    intro f s u s' h out
    obtain ⟨frames, _, h⟩ := bind_eq_ok.mp h
    cases h
    exact out
  rest := by
    intro s t _ same out
    simp only [meter] at out ⊢
    rw [same, out]

section OfFrames

variable {M : Meter Vmm} [frames : OfFrames rs M]

theorem sticky_growTable : Sticky M (growTable rs mm p i flags) :=
  .bind .get fun _ => .ite (.bind frames.alloc fun _ => .modify fun _ => frames.rest rfl rfl) (.pure ())

theorem sticky_growRoot : Sticky M (growRoot rs mm) :=
  .bind .get fun _ => .ite (.bind frames.alloc fun _ => .modify fun _ => frames.rest rfl rfl) (.pure ())

theorem sticky_vmmMapPage : Sticky M (vmmMapPage rs mm virt phys flags) :=
  .bind sticky_growRoot fun _ => .bind sticky_growTable fun _ => .bind sticky_growTable fun _ =>
    .bind sticky_growTable fun _ => .modify fun _ => frames.rest rfl rfl

theorem sticky_whenEmpty {rest : Op Unit} (sticky : Sticky M rest) :
    Sticky M (whenEmpty mm p rest) :=
  .bind .get fun _ => .ite sticky (.pure ())

theorem sticky_dropTable : Sticky M (dropTable rs mm p i) :=
  .bind .get fun _ => .bind (frames.free _) fun _ => .modify fun _ => frames.rest rfl rfl

theorem sticky_dropRoot : Sticky M (dropRoot rs mm) :=
  .bind .get fun _ => .bind (frames.free _) fun _ => .modify fun _ => frames.rest rfl rfl

theorem sticky_vmmUnmapPage : Sticky M (vmmUnmapPage rs mm virt) :=
  .bind (.modify fun _ => frames.rest rfl rfl) fun _ => sticky_whenEmpty <|
    .bind sticky_dropTable fun _ => sticky_whenEmpty <|
      .bind sticky_dropTable fun _ => sticky_whenEmpty <|
        .bind sticky_dropTable fun _ => sticky_whenEmpty sticky_dropRoot

end OfFrames

/-! ## vmm_map_page -/

/-- A slot that has something in it afterwards. If it had before, that stays; else the flags are the
given ones. -/
structure Grown (s s' : Vmm) (mm : Nat) (q : Path) (flags : Nat) : Prop where
  others : ∀ k p, p.length ≤ 4 → ¬ (k = mm ∧ p = q) → s'.slot k p = s.slot k p
  kept : s.slot mm q ≠ 0 → s'.slot mm q = s.slot mm q
  made : s.slot mm q = 0 → s'.slot mm q % pageSize = flags

/-- A table that is there need not grow. -/
theorem Grown.refl (there : s.slot mm q ≠ 0) : Grown s s mm q flags :=
  ⟨fun _ _ _ _ => rfl, fun _ => rfl, fun zero => absurd zero there⟩

/-- One write into an empty entry is what growing a table comes to. -/
theorem Edit.grown (edit : Edit s s' mm q e) (empty : s.slot mm q = 0) (flagged : e % pageSize = flags) :
    Grown s s' mm q flags := by
  refine ⟨edit.others, fun there => absurd empty there, fun _ => ?_⟩
  rw [edit.here]
  exact flagged

/-- A table that was missing: a frame handed out, and its entry set. -/
theorem Tables.grow (tables : Tables rs s own spare (some (mm, p))) (here : s.slot mm p ≠ 0)
    (short : p.length ≤ 2) (empty : s.slot mm (i :: p) = 0) (small : flags < pageSize)
    (alloced : Alloced rs s f s₁) :
    Quiet s (s₁.setEntry mm p i (f ||| flags)) own spare mm ∧
      s.frames.taken ⊆ (s₁.setEntry mm p i (f ||| flags)).frames.taken ∧
      Tables rs (s₁.setEntry mm p i (f ||| flags)) own spare (some (mm, i :: p)) ∧
      (s₁.setEntry mm p i (f ||| flags)).slot mm (i :: p) ≠ 0 ∧
      Grown s (s₁.setEntry mm p i (f ||| flags)) mm (i :: p) flags := by
  have same : ∀ k q, q.length ≤ 4 → s₁.slot k q = s.slot k q := fun k q =>
    tables.slot_alloced alloced
  have mms : s₁.mms = s.mms := by rw [alloced.state]
  have layout : Layout rs s₁ := tables.layout.congr (fun k => by rw [mms]) same
  have here₁ : s₁.slot mm p ≠ 0 := by rwa [same mm p (by omega)]
  have table := layout.frame mm p (by omega) here₁
  have mem : pageOf (s₁.slot mm p) ∈ s.frames.taken := by
    rw [same mm p (by omega)]
    exact tables.exclusive.handed (some (mm, p)) _
      (held_eq_some.mpr ⟨.inl (by omega), here, rfl⟩)
  have other : f ≠ pageOf (s₁.slot mm p) := fun eq => alloced.fresh (eq ▸ mem)
  have page := pageOf_or alloced.frame.aligned small
  have nonzero : f ||| flags ≠ 0 := or_ne_zero (Nat.ne_of_gt alloced.frame.pos)
  have fits := alloced.frame.or_lt small
  have edit₁ : Edit s₁ (s₁.setEntry mm p i (f ||| flags)) mm (i :: p) (f ||| flags) := by
    refine layout.setEntry here₁ (by omega) fits (fun _ j => ?_) fun _ _ => ?_
    · rw [same mm (j :: i :: p) (by simp only [List.length_cons]; omega)]
      exact Radix.slot_cons_zero empty
    · rw [page]
      exact ⟨alloced.frame.aligned, other, fun j => entryAt_zeroed alloced.zeroed⟩
  have edit : Edit s (s₁.setEntry mm p i (f ||| flags)) mm (i :: p) (f ||| flags) :=
    ⟨edit₁.here, fun k q bound ne => (edit₁.others k q bound ne).trans (same k q bound)⟩
  refine ⟨⟨⟨fun g page a low high => ?_, ?_, edit.trees⟩,
    fun k v long => edit.others k v (by omega) ?_⟩,
    alloced.grows, ⟨?_, ?_, ?_, tables.tight.grow edit nonzero⟩, ?_,
    edit.grown empty (or_mod alloced.frame.aligned small)⟩
  · -- a page is neither the new table nor the one whose entry was set
    have fresh : g ≠ f := fun eq => alloced.fresh (eq ▸ page.mem tables)
    have ne : g ≠ pageOf (s₁.slot mm p) := by
      rw [same mm p (by omega)]
      exact page.ne_table tables (by omega) here
    rw [← alloced.kept g (page.frame tables) fresh a low high]
    simp only [Vmm.setEntry, Vmm.setMem, layout.tableAt_eq here₁]
    exact sameFrame_setEntryAt table (page.frame tables) ne a low high
  · exact alloced.records.trans (.of_frees (fun _ => rfl) rfl rfl)
  · rintro ⟨rfl, rfl⟩
    simp only [List.length_cons] at long
    omega
  · refine alloced.inv.outside table fun a out => ?_
    simp only [layout.tableAt_eq here₁]
    exact setEntryAt_outside out
  · have taken : (s₁.setEntry mm p i (f ||| flags)).frames.taken = f :: s.frames.taken :=
      alloced.taken
    rw [taken]
    refine tables.exclusive.gain alloced.fresh (held_eq_some.mpr ⟨.inl ?_, ?_, ?_⟩)
      (fun r ne => edit.held_eq ne (fun _ _ _ => .rfl) fun _ => rfl) (held_eq_none empty)
    · simp only [List.length_cons]
      omega
    · rw [edit.here]
      exact nonzero
    · rw [edit.here, page]
  · intro k
    show (s₁.mms k).p4 % pageSize = 0
    rw [mms]
    exact tables.root k
  · rw [edit.here]
    exact nonzero

/-- `growTable` ends, having used at most one frame, with the table there and nothing else
changed. -/
theorem growTable_runs (tables : Tables rs s own spare (some (mm, p))) (met : ¬ s.ranOut = true)
    (here : s.slot mm p ≠ 0) (short : p.length ≤ 2) (small : flags < pageSize) :
    Runs (meter rs) (growTable rs mm p i flags) 1 s fun _ s' =>
      Quiet s s' own spare mm ∧ s.frames.taken ⊆ s'.frames.taken ∧
        Tables rs s' own spare (some (mm, i :: p)) ∧ s'.slot mm (i :: p) ≠ 0 ∧
        Grown s s' mm (i :: p) flags := by
  unfold growTable
  refine .of_get ?_
  rw [tables.layout.getEntry_eq here]
  split
  · rename_i empty
    refine .bind (k := 0) ((allocFrame_runs tables.frames met).imp ?_)
      fun _ => .modify fun _ out => out
    intro f s₁ alloced met₁
    exact .done rfl met₁ (Nat.le_refl _) (tables.grow here short empty small alloced)
  · rename_i there
    refine .pure met
      ⟨.refl s, fun _ mem => mem, ⟨tables.frames, tables.exclusive, tables.root, ?_⟩, there,
        .refl there⟩
    exact (tables.tight.close fun _ _ => ⟨i, there⟩).weaken _

/-- A new root may be empty. -/
theorem Tight.root (tight : Tight s none) (edit : Edit s s' mm [] e) : Tight s' (some (mm, [])) := by
  intro k q short ne there
  have other : ¬ (k = mm ∧ q = []) := fun same => ne (by rw [same.1, same.2])
  rw [edit.others k q (by omega) other] at there
  obtain ⟨j, below⟩ := tight k q short (fun absurd => (by cases absurd)) there
  refine ⟨j, ?_⟩
  rwa [edit.others k (j :: q) (by simp only [List.length_cons]; omega)]
  intro same
  cases same.2

/-- A p4 that was missing: a frame handed out. -/
theorem Tables.growRoot (tables : Tables rs s own spare none) (empty : s.slot mm [] = 0)
    (alloced : Alloced rs s f s₁) :
    Quiet s (s₁.modifyMm mm ({ · with p4 := f })) own spare mm ∧
      s.frames.taken ⊆ (s₁.modifyMm mm ({ · with p4 := f })).frames.taken ∧
      Tables rs (s₁.modifyMm mm ({ · with p4 := f })) own spare (some (mm, [])) ∧
      (s₁.modifyMm mm ({ · with p4 := f })).slot mm [] ≠ 0 ∧
      Grown s (s₁.modifyMm mm ({ · with p4 := f })) mm [] 0 := by
  have same : ∀ k q, q.length ≤ 4 → s₁.slot k q = s.slot k q := fun k q =>
    tables.slot_alloced alloced
  have mms : s₁.mms = s.mms := by rw [alloced.state]
  have nonzero : f ≠ 0 := Nat.ne_of_gt alloced.frame.pos
  have page := pageOf_eq alloced.frame.aligned
  have edit₁ : Edit s₁ (s₁.modifyMm mm ({ · with p4 := f })) mm [] f := by
    refine edit_setRoot (fun j => Radix.slot_cons_zero ?_) fun _ j => ?_
    · exact (same mm [] (by decide)).trans empty
    · rw [page]
      exact entryAt_zeroed alloced.zeroed
  have edit : Edit s (s₁.modifyMm mm ({ · with p4 := f })) mm [] f :=
    ⟨edit₁.here, fun k q bound ne => (edit₁.others k q bound ne).trans (same k q bound)⟩
  refine ⟨⟨⟨fun g page => ?_, alloced.records.trans (.of_frees (fun k => ?_) rfl rfl), edit.trees⟩,
    fun k v long => edit.others k v (by omega) ?_⟩, alloced.grows,
    ⟨alloced.inv, ?_, fun k => ?_, tables.tight.root edit⟩, ?_,
    edit.grown empty alloced.frame.aligned⟩
  · exact alloced.kept g (page.frame tables) fun eq => alloced.fresh (eq ▸ page.mem tables)
  · simp only [Vmm.modifyMm, Function.update_apply]
    split
    · rename_i eq
      rw [eq]
    · rfl
  · rintro ⟨rfl, rfl⟩
    cases long
  · have taken : (s₁.modifyMm mm ({ · with p4 := f })).frames.taken = f :: s.frames.taken :=
      alloced.taken
    rw [taken]
    refine tables.exclusive.gain alloced.fresh (held_eq_some.mpr ⟨.inl (by decide), ?_, ?_⟩)
      (fun r ne => edit.held_eq ne (fun _ _ _ => .rfl) fun _ => rfl) (held_eq_none empty)
    · rw [edit.here]
      exact nonzero
    · rw [edit.here, page]
  · simp only [Vmm.modifyMm, Function.update_apply]
    split
    · exact alloced.frame.aligned
    · rw [mms]
      exact tables.root k
  · rw [edit.here]
    exact nonzero

/-- The same for the top table, whose address is the space's `p4`. -/
theorem growRoot_runs (tables : Tables rs s own spare none) (met : ¬ s.ranOut = true) :
    Runs (meter rs) (growRoot rs mm) 1 s fun _ s' =>
      Quiet s s' own spare mm ∧ s.frames.taken ⊆ s'.frames.taken ∧
        Tables rs s' own spare (some (mm, [])) ∧ s'.slot mm [] ≠ 0 ∧ Grown s s' mm [] 0 := by
  unfold growRoot
  refine .of_get ?_
  split
  · rename_i empty
    refine .bind (k := 0) ((allocFrame_runs tables.frames met).imp ?_)
      fun _ => .modify fun _ out => out
    intro f s₁ alloced met₁
    exact .done rfl met₁ (Nat.le_refl _) (tables.growRoot empty alloced)
  · rename_i there
    refine .pure met
      ⟨.refl s, fun _ mem => mem, ⟨tables.frames, tables.exclusive, tables.root, ?_⟩, there,
        .refl there⟩
    exact tables.tight.weaken _

/-- The set of owned pages with one more. -/
def withPage (own : Nat → Path → Prop) (mm : Nat) (v : Path) : Nat → Path → Prop :=
  fun k w => own k w ∨ k = mm ∧ w = v

/-- The set of owned pages without one. -/
def withoutPage (own : Nat → Path → Prop) (mm : Nat) (v : Path) : Nat → Path → Prop :=
  fun k w => own k w ∧ ¬ (k = mm ∧ w = v)

/-- Claiming one more page changes nothing about the others. -/
theorem withPage_iff (ne : ¬ (k = mm ∧ q = v)) : withPage own mm v k q ↔ own k q := by
  simp [withPage, ne]

/-- Giving up one page changes nothing about the others. -/
theorem withoutPage_iff (ne : ¬ (k = mm ∧ q = v)) : withoutPage own mm v k q ↔ own k q := by
  simp [withoutPage, ne]

/-- Setting an entry of a table keeps the bytes of the pages and the allocator's invariant. -/
theorem Tables.setEntry_kept (tables : Tables rs s own spare hole) (here : s.slot mm p ≠ 0)
    (short : p.length ≤ 3) :
    (∀ g, PageFrame s own spare g → SameFrame s.frames.mem (s.setEntry mm p i e).frames.mem g) ∧
      FramesInv rs (s.setEntry mm p i e).frames := by
  have table := tables.layout.frame mm p short here
  refine ⟨fun g page => ?_, tables.frames.outside table fun a out => ?_⟩
  · simp only [Vmm.setEntry, Vmm.setMem, tables.layout.tableAt_eq here]
    exact sameFrame_setEntryAt table (page.frame tables) (page.ne_table tables short here)
  · simp only [tables.layout.tableAt_eq here]
    exact setEntryAt_outside out

/-- Setting the entry of a page is an edit. -/
theorem Tables.setLeaf (tables : Tables rs s own spare hole) (here : s.slot mm p ≠ 0)
    (three : p.length = 3) (fits : e < 2 ^ 64) : Edit s (s.setEntry mm p i e) mm (i :: p) e :=
  tables.layout.setEntry here (Nat.le_of_eq three) fits (fun lt => absurd lt (by omega))
    fun lt => absurd lt (by omega)

/-- Writing a leaf entry is what remapping its page comes to, when the pages' frames keep their
bytes. -/
theorem Edit.remapped (edit : Edit s (s.setEntry mm p i e) mm v e)
    (pages : ∀ g, PageFrame s own spare g →
      SameFrame s.frames.mem (s.setEntry mm p i e).frames.mem g) :
    Remapped s (s.setEntry mm p i e) own spare mm v e :=
  ⟨⟨pages, .of_frees (fun _ => rfl) rfl rfl, edit.trees⟩, edit.here,
    fun k w long ne => edit.others k w (Nat.le_of_eq long) ne⟩

/-- A page is mapped to a frame that is not its own. -/
theorem Tables.shareLeaf (tables : Tables rs s own spare (some (mm, p))) (here : s.slot mm p ≠ 0)
    (three : p.length = 3) (fits : e < 2 ^ 64) (nonzero : e ≠ 0) (shared : ¬ own mm (i :: p)) :
    Remapped s (s.setEntry mm p i e) own spare mm (i :: p) e ∧
      Tables rs (s.setEntry mm p i e) own spare none := by
  have edit : Edit s (s.setEntry mm p i e) mm (i :: p) e := tables.setLeaf here three fits
  have long : (i :: p).length = 4 := by rw [List.length_cons, three]
  obtain ⟨kept, frames⟩ := tables.setEntry_kept here (Nat.le_of_eq three)
  refine ⟨edit.remapped kept, frames, tables.exclusive.congr fun r => ?_, tables.root,
    (tables.tight.grow edit nonzero).close fun short => absurd short (by omega)⟩
  by_cases same : r = some (mm, i :: p)
  · rw [same, held_shared long shared, held_shared long shared]
  · exact edit.held_eq same (fun _ _ _ => .rfl) fun _ => rfl

/-- A page is mapped to the frame in hand, and owns it. -/
theorem Tables.ownLeaf (tables : Tables rs s own (some f) (some (mm, p))) (here : s.slot mm p ≠ 0)
    (three : p.length = 3) (small : flags < pageSize) (shared : ¬ own mm (i :: p)) :
    Remapped s (s.setEntry mm p i (f ||| flags)) own (some f) mm (i :: p) (f ||| flags) ∧
      Tables rs (s.setEntry mm p i (f ||| flags)) (withPage own mm (i :: p)) none none := by
  have frame : IsFrame rs f := tables.held_frame (r := none) rfl
  have nonzero : f ||| flags ≠ 0 := or_ne_zero (Nat.ne_of_gt frame.pos)
  have fits := frame.or_lt small
  have edit : Edit s (s.setEntry mm p i (f ||| flags)) mm (i :: p) (f ||| flags) :=
    tables.setLeaf here three fits
  have long : (i :: p).length = 4 := by rw [List.length_cons, three]
  obtain ⟨kept, frames⟩ := tables.setEntry_kept here (Nat.le_of_eq three)
  refine ⟨edit.remapped kept, frames, ?_, tables.root,
    (tables.tight.grow edit nonzero).close fun short => absurd short (by omega)⟩
  -- the frame passes from the operation to the page
  refine tables.exclusive.pass (r := none) (q := some (mm, i :: p)) rfl rfl
    (held_shared long shared) (held_eq_some.mpr ⟨.inr ⟨long, .inr ⟨rfl, rfl⟩⟩, ?_, ?_⟩) ?_
  · rw [edit.here]
    exact nonzero
  · rw [edit.here, pageOf_or frame.aligned small]
  · intro r free ne
    exact edit.held_eq ne (fun _ _ other => withPage_iff other) fun none => absurd none free

/-- A page that is not its own is unmapped. -/
theorem Tables.unshareLeaf (tables : Tables rs s own spare none) (here : s.slot mm p ≠ 0)
    (three : p.length = 3) (shared : ¬ own mm (i :: p)) :
    Remapped s (s.setEntry mm p i 0) own spare mm (i :: p) 0 ∧
      Tables rs (s.setEntry mm p i 0) own spare (some (mm, p)) := by
  have edit : Edit s (s.setEntry mm p i 0) mm (i :: p) 0 := tables.setLeaf here three (by decide)
  have long : (i :: p).length = 4 := by rw [List.length_cons, three]
  obtain ⟨kept, frames⟩ := tables.setEntry_kept here (Nat.le_of_eq three)
  refine ⟨edit.remapped kept, frames, tables.exclusive.congr fun r => ?_, tables.root,
    (tables.tight.weaken _).clear edit⟩
  by_cases same : r = some (mm, i :: p)
  · rw [same, held_shared long shared, held_shared long shared]
  · exact edit.held_eq same (fun _ _ _ => .rfl) fun _ => rfl

/-- A page is unmapped, and its frame comes back to the operation. -/
theorem Tables.disownLeaf (tables : Tables rs s own none none) (there : s.slot mm (i :: p) ≠ 0)
    (three : p.length = 3) (owned : own mm (i :: p)) :
    Remapped s (s.setEntry mm p i 0) own none mm (i :: p) 0 ∧
      Tables rs (s.setEntry mm p i 0) (withoutPage own mm (i :: p))
        (some (pageOf (s.slot mm (i :: p)))) (some (mm, p)) := by
  have here : s.slot mm p ≠ 0 := Radix.slot_above there
  have edit : Edit s (s.setEntry mm p i 0) mm (i :: p) 0 := tables.setLeaf here three (by decide)
  have long : (i :: p).length = 4 := by rw [List.length_cons, three]
  obtain ⟨kept, frames⟩ := tables.setEntry_kept here (Nat.le_of_eq three)
  refine ⟨edit.remapped kept, frames, ?_, tables.root, (tables.tight.weaken _).clear edit⟩
  refine tables.exclusive.pass (r := some (mm, i :: p)) (q := none)
    (held_eq_some.mpr ⟨.inr ⟨long, owned⟩, there, rfl⟩) (held_eq_none edit.here) rfl rfl ?_
  intro r ne free
  exact edit.held_eq ne (fun _ _ other => withoutPage_iff other) fun none => absurd none free

/-- The path of a virtual address. -/
def pathOf (virt : Nat) : Path := [p1Ndx virt, p2Ndx virt, p3Ndx virt, p4Ndx virt]

/-- The tables on the way to a page after `vmm_map_page`: those that were missing have its flags, the
others are as they were. -/
structure Built (s s' : Vmm) (mm : Nat) (v : Path) (flags : Nat) : Prop where
  others : ∀ k p, p.length ≤ 3 → ¬ (k = mm ∧ p <:+ v) → s'.slot k p = s.slot k p
  kept : ∀ p, p.length ≤ 3 → s.slot mm p ≠ 0 → s'.slot mm p = s.slot mm p
  made : ∀ p, p ≠ [] → p.length ≤ 3 → p <:+ v → s.slot mm p = 0 → s'.slot mm p % pageSize = flags

section Stages

variable {a b c d : Fin 512}

/-- The proper parts of a path. -/
theorem suffix_cases (short : p.length ≤ 3) (part : p <:+ [a, b, c, d]) :
    p = [] ∨ p = [d] ∨ p = [c, d] ∨ p = [b, c, d] := by
  rw [List.suffix_cons_iff, List.suffix_cons_iff, List.suffix_cons_iff, List.suffix_cons_iff,
    List.suffix_nil] at part
  rcases part with rfl | rfl | rfl | rfl | rfl
  · simp at short
  · exact .inr (.inr (.inr rfl))
  · exact .inr (.inr (.inl rfl))
  · exact .inr (.inl rfl)
  · exact .inl rfl

/-- The four stages, each of which touches one slot. -/
theorem Built.of_grown {s₃ s₄ : Vmm} (root : Grown s s₁ mm [] 0) (one : Grown s₁ s₂ mm [d] flags)
    (two : Grown s₂ s₃ mm [c, d] flags) (three : Grown s₃ s₄ mm [b, c, d] flags) :
    Built s s₄ mm [a, b, c, d] flags := by
  have through : ∀ k p, p.length ≤ 3 → ¬ (k = mm ∧ p <:+ [a, b, c, d]) →
      s₄.slot k p = s.slot k p := by
    intro k p short out
    have ne : ∀ q, q <:+ [a, b, c, d] → ¬ (k = mm ∧ p = q) := by
      rintro q part ⟨rfl, rfl⟩
      exact out ⟨rfl, part⟩
    rw [three.others k p (by omega) (ne _ (List.suffix_cons a _)),
      two.others k p (by omega) (ne _ ⟨[a, b], rfl⟩),
      one.others k p (by omega) (ne _ ⟨[a, b, c], rfl⟩),
      root.others k p (by omega) (ne _ List.nil_suffix)]
  have atRoot : s₄.slot mm [] = s₁.slot mm [] := by
    rw [three.others mm [] (by decide) (by simp), two.others mm [] (by decide) (by simp),
      one.others mm [] (by decide) (by simp)]
  have atOne : s₄.slot mm [d] = s₂.slot mm [d] ∧ s₁.slot mm [d] = s.slot mm [d] := by
    rw [three.others mm [d] (by simp) (by simp), two.others mm [d] (by simp) (by simp),
      root.others mm [d] (by simp) (by simp)]
    exact ⟨rfl, rfl⟩
  have atTwo : s₄.slot mm [c, d] = s₃.slot mm [c, d] ∧ s₂.slot mm [c, d] = s.slot mm [c, d] := by
    rw [three.others mm [c, d] (by simp) (by simp), one.others mm [c, d] (by simp) (by simp),
      root.others mm [c, d] (by simp) (by simp)]
    exact ⟨rfl, rfl⟩
  have atThree : s₃.slot mm [b, c, d] = s.slot mm [b, c, d] := by
    rw [two.others mm [b, c, d] (by simp) (by simp), one.others mm [b, c, d] (by simp) (by simp),
      root.others mm [b, c, d] (by simp) (by simp)]
  refine ⟨through, fun p short there => ?_, fun p some short part zero => ?_⟩
  · by_cases part : p <:+ [a, b, c, d]
    · rcases suffix_cases short part with rfl | rfl | rfl | rfl
      · rw [atRoot, root.kept there]
      · rw [atOne.1, one.kept (by rwa [atOne.2]), atOne.2]
      · rw [atTwo.1, two.kept (by rwa [atTwo.2]), atTwo.2]
      · rw [three.kept (by rwa [atThree]), atThree]
    · exact through mm p short fun both => part both.2
  · rcases suffix_cases short part with rfl | rfl | rfl | rfl
    · exact absurd rfl some
    · rw [atOne.1]
      exact one.made (atOne.2.trans zero)
    · rw [atTwo.1]
      exact two.made (atTwo.2.trans zero)
    · exact three.made (atThree.trans zero)

end Stages

/-- `vmm_map_page` up to the entry of the page: the tables are there, and no page has changed. -/
theorem vmmMapPage_runs {Q : Vmm → Prop} (tables : Tables rs s own spare none)
    (met : ¬ s.ranOut = true) (small : flags < pageSize)
    (leaf : ∀ t, Quiet s t own spare mm → s.frames.taken ⊆ t.frames.taken →
      Built s t mm (pathOf virt) flags →
      Tables rs t own spare (some (mm, [p2Ndx virt, p3Ndx virt, p4Ndx virt])) →
      t.slot mm [p2Ndx virt, p3Ndx virt, p4Ndx virt] ≠ 0 →
      Q (t.setEntry mm [p2Ndx virt, p3Ndx virt, p4Ndx virt] (p1Ndx virt) (phys ||| flags))) :
    Runs (meter rs) (vmmMapPage rs mm virt phys flags) 4 s fun _ s' => Q s' := by
  unfold vmmMapPage
  refine .bind (n := 1) (k := 3) ((growRoot_runs tables met).imp ?_) fun _ =>
    .bind sticky_growTable fun _ => .bind sticky_growTable fun _ => .bind sticky_growTable fun _ =>
      .modify fun _ out => out
  intro _ s₁ ⟨quiet₁, grows₁, tables₁, here₁, root⟩ met₁
  refine .bind (n := 1) (k := 2)
    ((growTable_runs tables₁ met₁ here₁ (by decide) small).imp ?_) fun _ =>
    .bind sticky_growTable fun _ => .bind sticky_growTable fun _ => .modify fun _ out => out
  intro _ s₂ ⟨quiet₂, grows₂, tables₂, here₂, one⟩ met₂
  refine .bind (n := 1) (k := 1)
    ((growTable_runs tables₂ met₂ here₂ (Nat.le_succ 1) small).imp ?_) fun _ =>
    .bind sticky_growTable fun _ => .modify fun _ out => out
  intro _ s₃ ⟨quiet₃, grows₃, tables₃, here₃, two⟩ met₃
  refine .bind (n := 1) (k := 0)
    ((growTable_runs tables₃ met₃ here₃ (Nat.le_refl 2) small).imp ?_) fun _ =>
    .modify fun _ out => out
  intro _ s₄ ⟨quiet₄, grows₄, tables₄, here₄, three⟩ met₄
  have quiet := ((quiet₁.trans quiet₂).trans quiet₃).trans quiet₄
  have grows : s.frames.taken ⊆ s₄.frames.taken :=
    fun _ mem => grows₄ (grows₃ (grows₂ (grows₁ mem)))
  exact .done rfl met₄ (Nat.le_refl _) 
    (leaf s₄ quiet grows (.of_grown root one two three) tables₄ here₄)

theorem pathOf_length (virt : Nat) : (pathOf virt).length = 4 := rfl

/-- `vmm_map_page` of a frame that is not the page's own, with what becomes of the tables. -/
theorem vmmMapPage_built (tables : Tables rs s own spare none) (met : ¬ s.ranOut = true)
    (small : flags < pageSize) (fits : phys ||| flags < 2 ^ 64) (nonzero : phys ||| flags ≠ 0)
    (shared : ¬ own mm (pathOf virt)) :
    Runs (meter rs) (vmmMapPage rs mm virt phys flags) 4 s fun _ s' =>
      (Remapped s s' own spare mm (pathOf virt) (phys ||| flags) ∧
        s.frames.taken ⊆ s'.frames.taken ∧ Tables rs s' own spare none) ∧
        Built s s' mm (pathOf virt) flags := by
  refine vmmMapPage_runs tables met small fun t quiet grows built tables here => ?_
  obtain ⟨remapped, done⟩ := tables.shareLeaf here rfl fits nonzero shared
  have edit := tables.setLeaf (i := p1Ndx virt) here rfl fits
  -- the entry of the page is no table
  have same : ∀ k p, p.length ≤ 3 → (t.setEntry mm [p2Ndx virt, p3Ndx virt, p4Ndx virt] (p1Ndx virt)
      (phys ||| flags)).slot k p = t.slot k p := by
    intro k p short
    refine edit.others k p (by omega) ?_
    rintro ⟨_, rfl⟩
    simp at short
  refine ⟨⟨remapped.after quiet, grows, done⟩, fun k p short out => ?_, fun p short there => ?_,
    fun p some short part zero => ?_⟩
  · rw [same k p short]
    exact built.others k p short out
  · rw [same mm p short]
    exact built.kept p short there
  · rw [same mm p short]
    exact built.made p some short part zero

/-- `vmm_map_page` of a frame that is not the page's own. -/
theorem vmmMapPage_shared (tables : Tables rs s own spare none) (met : ¬ s.ranOut = true)
    (small : flags < pageSize) (fits : phys ||| flags < 2 ^ 64) (nonzero : phys ||| flags ≠ 0)
    (shared : ¬ own mm (pathOf virt)) :
    Runs (meter rs) (vmmMapPage rs mm virt phys flags) 4 s fun _ s' =>
      Remapped s s' own spare mm (pathOf virt) (phys ||| flags) ∧
        s.frames.taken ⊆ s'.frames.taken ∧ Tables rs s' own spare none :=
  (vmmMapPage_built tables met small fits nonzero shared).imp fun _ _ done => done.1

/-- `vmm_map_page` of the frame in hand. -/
theorem vmmMapPage_owned (tables : Tables rs s own (some f) none) (met : ¬ s.ranOut = true)
    (small : flags < pageSize) (shared : ¬ own mm (pathOf virt)) :
    Runs (meter rs) (vmmMapPage rs mm virt f flags) 4 s fun _ s' =>
      Remapped s s' own (some f) mm (pathOf virt) (f ||| flags) ∧
        s.frames.taken ⊆ s'.frames.taken ∧
        Tables rs s' (withPage own mm (pathOf virt)) none none := by
  refine vmmMapPage_runs tables met small fun t quiet grows _ tables here => ?_
  obtain ⟨remapped, done⟩ := tables.ownLeaf here rfl small shared
  exact ⟨remapped.after quiet, grows, done⟩

/-! ## vmm_unmap_page -/

/-- A table without entries: its frame freed, and its entry cleared. -/
theorem Tables.drop (tables : Tables rs s own spare (some (mm, i :: p)))
    (here : s.slot mm (i :: p) ≠ 0) (short : p.length ≤ 2) (empty : ∀ j, s.slot mm (j :: i :: p) = 0)
    (freed : Freed rs s (pageOf (s.slot mm (i :: p))) s₁) :
    Quiet s (s₁.setEntry mm p i 0) own spare mm ∧
      Tables rs (s₁.setEntry mm p i 0) own spare (some (mm, p)) ∧
      (s₁.setEntry mm p i 0).slot mm p ≠ 0 := by
  have same : ∀ k q, q.length ≤ 4 → s₁.slot k q = s.slot k q := fun k q => tables.slot_freed freed
  have mms : s₁.mms = s.mms := by rw [freed.state]
  have layout : Layout rs s₁ := tables.layout.congr (fun k => by rw [mms]) same
  have above : s.slot mm p ≠ 0 := Radix.slot_above here
  have above₁ : s₁.slot mm p ≠ 0 := by rwa [same mm p (by omega)]
  have table := layout.frame mm p (by omega) above₁
  have edit₁ : Edit s₁ (s₁.setEntry mm p i 0) mm (i :: p) 0 := by
    refine layout.setEntry above₁ (by omega) (by decide) (fun _ j => ?_)
      fun _ absurd => (by cases absurd rfl)
    rw [same mm (j :: i :: p) (by simp only [List.length_cons]; omega)]
    exact empty j
  have edit : Edit s (s₁.setEntry mm p i 0) mm (i :: p) 0 :=
    ⟨edit₁.here, fun k q bound ne => (edit₁.others k q bound ne).trans (same k q bound)⟩
  refine ⟨⟨⟨fun g page a low high => ?_, freed.records.trans (.of_frees (fun _ => rfl) rfl rfl),
    edit.trees⟩,
    fun k v long => edit.others k v (by omega) ?_⟩,
    ⟨?_, ?_, fun k => ?_, tables.tight.clear edit⟩, ?_⟩
  · have ne : g ≠ pageOf (s₁.slot mm p) := by
      rw [same mm p (by omega)]
      exact page.ne_table tables (by omega) above
    rw [← freed.kept g (page.frame tables) a low high]
    simp only [Vmm.setEntry, Vmm.setMem, layout.tableAt_eq above₁]
    exact sameFrame_setEntryAt table (page.frame tables) ne a low high
  · rintro ⟨rfl, rfl⟩
    simp only [List.length_cons] at long
    omega
  · refine freed.inv.outside table fun a out => ?_
    simp only [layout.tableAt_eq above₁]
    exact setEntryAt_outside out
  · have taken : (s₁.setEntry mm p i 0).frames.taken =
        s.frames.taken.erase (pageOf (s.slot mm (i :: p))) := freed.taken
    rw [taken]
    refine tables.exclusive.lose tables.frames.nodup (held_eq_some.mpr ⟨.inl ?_, here, rfl⟩)
      (fun r ne => edit.held_eq ne (fun _ _ _ => .rfl) fun _ => rfl) (held_eq_none edit.here)
    simp only [List.length_cons]
    omega
  · show (s₁.mms k).p4 % pageSize = 0
    rw [mms]
    exact tables.root k
  · rw [edit.above (by omega)]
    exact above

/-- A p4 without entries: its frame freed. -/
theorem Tables.dropRoot (tables : Tables rs s own spare (some (mm, []))) (here : s.slot mm [] ≠ 0)
    (empty : ∀ j, s.slot mm [j] = 0) (freed : Freed rs s (s.mms mm).p4 s₁) :
    Quiet s (s₁.modifyMm mm ({ · with p4 := 0 })) own spare mm ∧
      Tables rs (s₁.modifyMm mm ({ · with p4 := 0 })) own spare none := by
  have same : ∀ k q, q.length ≤ 4 → s₁.slot k q = s.slot k q := fun k q => tables.slot_freed freed
  have mms : s₁.mms = s.mms := by rw [freed.state]
  have edit₁ : Edit s₁ (s₁.modifyMm mm ({ · with p4 := 0 })) mm [] 0 := by
    refine edit_setRoot (fun j => ?_) fun absurd => (by cases absurd rfl)
    rw [same mm [j] (by simp)]
    exact empty j
  have edit : Edit s (s₁.modifyMm mm ({ · with p4 := 0 })) mm [] 0 :=
    ⟨edit₁.here, fun k q bound ne => (edit₁.others k q bound ne).trans (same k q bound)⟩
  refine ⟨⟨⟨fun g page => freed.kept g (page.frame tables),
    freed.records.trans (.of_frees (fun k => ?_) rfl rfl), edit.trees⟩,
    fun k v long => edit.others k v (by omega) ?_⟩, freed.inv, ?_, fun k => ?_, ?_⟩
  · simp only [Vmm.modifyMm, Function.update_apply]
    split
    · rename_i eq
      rw [eq]
    · rfl
  · rintro ⟨rfl, rfl⟩
    cases long
  · have taken : (s₁.modifyMm mm ({ · with p4 := 0 })).frames.taken =
        s.frames.taken.erase (s.mms mm).p4 := freed.taken
    rw [taken]
    exact tables.exclusive.lose tables.frames.nodup
      (held_eq_some.mpr ⟨.inl (by decide), here, pageOf_eq (tables.root mm)⟩)
      (fun r ne => edit.held_eq ne (fun _ _ _ => .rfl) fun _ => rfl) (held_eq_none edit.here)
  · simp only [Vmm.modifyMm, Function.update_apply]
    split
    · rfl
    · rw [mms]
      exact tables.root k
  · intro k q short _ there
    have other : ¬ (k = mm ∧ q = []) := by
      rintro ⟨rfl, rfl⟩
      exact there edit.here
    rw [edit.others k q (by omega) other] at there
    obtain ⟨j, below⟩ := tables.tight k q short
      (fun eq => other (by cases eq; exact ⟨rfl, rfl⟩)) there
    refine ⟨j, ?_⟩
    rwa [edit.others k (j :: q) (by simp only [List.length_cons]; omega)]
    intro eq
    cases eq.2

/-- `dropTable` ends without a new frame: the empty table is given back and its entry is zero. -/
theorem dropTable_runs (tables : Tables rs s own spare (some (mm, i :: p)))
    (met : ¬ s.ranOut = true) (here : s.slot mm (i :: p) ≠ 0) (short : p.length ≤ 2)
    (empty : ∀ j, s.slot mm (j :: i :: p) = 0) :
    Runs (meter rs) (dropTable rs mm p i) 0 s fun _ s' =>
      Quiet s s' own spare mm ∧ Tables rs s' own spare (some (mm, p)) ∧ s'.slot mm p ≠ 0 := by
  have above : s.slot mm p ≠ 0 := Radix.slot_above here
  have mem := tables.exclusive.handed (some (mm, i :: p)) _
    (held_eq_some.mpr ⟨.inl (by simp only [List.length_cons]; omega), here, rfl⟩)
  obtain ⟨s₁, ran, freed, kept⟩ := freeFrame_spec tables.frames mem
  unfold dropTable
  refine .of_get ?_
  rw [tables.layout.getEntry_eq above]
  refine .step ran kept (.done rfl ?_ (Nat.le_refl _) (tables.drop here short empty freed))
  rw [freed.state]
  exact met

/-- The same for the top table, after which the space has none. -/
theorem dropRoot_runs (tables : Tables rs s own spare (some (mm, []))) (met : ¬ s.ranOut = true)
    (here : s.slot mm [] ≠ 0) (empty : ∀ j, s.slot mm [j] = 0) :
    Runs (meter rs) (dropRoot rs mm) 0 s fun _ s' =>
      Quiet s s' own spare mm ∧ Tables rs s' own spare none := by
  have mem := tables.exclusive.handed (some (mm, [])) _
    (held_eq_some.mpr ⟨.inl (by decide), here, pageOf_eq (tables.root mm)⟩)
  obtain ⟨s₁, ran, freed, kept⟩ := freeFrame_spec tables.frames mem
  unfold Blackcomb.Mm.dropRoot
  refine .of_get (.step ran kept (.done rfl ?_ (Nat.le_refl _) (tables.dropRoot here empty freed)))
  rw [freed.state]
  exact met

/-- A loop of `vmm_unmap_page` over the table at the hole: the rest goes on, or the hole is none. -/
theorem whenEmpty_runs {rest : Op Unit} {Q : Vmm → Prop}
    (tables : Tables rs s own spare (some (mm, p))) (met : ¬ s.ranOut = true)
    (here : s.slot mm p ≠ 0) (full : Tables rs s own spare none → Q s)
    (empty : (∀ j, s.slot mm (j :: p) = 0) → Runs (meter rs) rest 0 s fun _ s' => Q s') :
    Runs (meter rs) (whenEmpty mm p rest) 0 s fun _ s' => Q s' := by
  unfold whenEmpty
  refine .of_get ?_
  simp only [tables.layout.getEntry_eq here]
  split
  · rename_i none
    exact empty none
  · rename_i some
    refine .pure met (full ⟨tables.frames, tables.exclusive, tables.root, ?_⟩)
    exact tables.tight.close fun _ _ => not_forall.mp some

/-- `vmm_unmap_page` after the entry of the page is cleared: the empty tables go. -/
theorem vmmUnmapPage_runs {Q : Vmm → Prop}
    (tables : Tables rs (s.setEntry mm [p2Ndx virt, p3Ndx virt, p4Ndx virt] (p1Ndx virt) 0) own spare
      (some (mm, [p2Ndx virt, p3Ndx virt, p4Ndx virt]))) (met : ¬ s.ranOut = true)
    (here : (s.setEntry mm [p2Ndx virt, p3Ndx virt, p4Ndx virt] (p1Ndx virt) 0).slot mm
      [p2Ndx virt, p3Ndx virt, p4Ndx virt] ≠ 0)
    (pruned : ∀ t,
      Quiet (s.setEntry mm [p2Ndx virt, p3Ndx virt, p4Ndx virt] (p1Ndx virt) 0) t own spare mm →
      Tables rs t own spare none → Q t) :
    Runs (meter rs) (vmmUnmapPage rs mm virt) 0 s fun _ s' => Q s' := by
  unfold vmmUnmapPage
  refine .of_modify (Nat.le_refl _) ?_
  refine whenEmpty_runs tables met here (pruned _ (.refl _)) fun empty => ?_
  refine .bind (n := 0) (k := 0) ((dropTable_runs tables met here (Nat.le_refl 2) empty).imp ?_)
    fun _ => sticky_whenEmpty <| .bind sticky_dropTable fun _ => sticky_whenEmpty <|
      .bind sticky_dropTable fun _ => sticky_whenEmpty sticky_dropRoot
  intro _ s₁ ⟨quiet₁, tables₁, here₁⟩ met₁
  refine whenEmpty_runs tables₁ met₁ here₁ (pruned _ quiet₁) fun empty => ?_
  refine .bind (n := 0) (k := 0) ((dropTable_runs tables₁ met₁ here₁ (Nat.le_succ 1) empty).imp ?_)
    fun _ => sticky_whenEmpty <| .bind sticky_dropTable fun _ => sticky_whenEmpty sticky_dropRoot
  intro _ s₂ ⟨quiet₂, tables₂, here₂⟩ met₂
  have two := quiet₁.trans quiet₂
  refine whenEmpty_runs tables₂ met₂ here₂ (pruned _ two) fun empty => ?_
  refine .bind (n := 0) (k := 0) ((dropTable_runs tables₂ met₂ here₂ (Nat.zero_le 2) empty).imp ?_)
    fun _ => sticky_whenEmpty sticky_dropRoot
  intro _ s₃ ⟨quiet₃, tables₃, here₃⟩ met₃
  have three := two.trans quiet₃
  refine whenEmpty_runs tables₃ met₃ here₃ (pruned _ three) fun empty => ?_
  refine (dropRoot_runs tables₃ met₃ here₃ empty).imp ?_
  intro _ s₄ ⟨quiet₄, tables₄⟩
  exact pruned s₄ (three.trans quiet₄) tables₄

/-- A page remapped before a quiet call is remapped after it, if the call still knows the page's
frame. -/
theorem Remapped.before (one : Remapped s s₁ own spare mm v e) (two : Quiet s₁ s₂ own' spare' mm)
    (pages : ∀ g, PageFrame s own spare g → PageFrame s₁ own' spare' g) (long : v.length = 4) :
    Remapped s s₂ own spare mm v e := by
  refine ⟨⟨fun g page a low high => ?_, one.records.trans two.records, fun k p ne short => ?_⟩,
    (two.leaves mm v long).trans one.here, fun k w long ne => ?_⟩
  · rw [two.pages g (pages g page) a low high, one.pages g page a low high]
  · rw [two.trees k p ne short, one.trees k p ne short]
  · rw [two.leaves k w long, one.others k w long ne]

/-- `vmm_unmap_page` of a page that is not its own. -/
theorem vmmUnmapPage_shared (tables : Tables rs s own spare none) (met : ¬ s.ranOut = true)
    (there : s.slot mm (pathOf virt) ≠ 0) (shared : ¬ own mm (pathOf virt)) :
    Runs (meter rs) (vmmUnmapPage rs mm virt) 0 s fun _ s' =>
      Remapped s s' own spare mm (pathOf virt) 0 ∧ Tables rs s' own spare none := by
  have above : s.slot mm [p2Ndx virt, p3Ndx virt, p4Ndx virt] ≠ 0 := Radix.slot_above there
  obtain ⟨remapped, cleared⟩ := tables.unshareLeaf above rfl shared
  have edit := tables.setLeaf (i := p1Ndx virt) (e := 0) above rfl (by decide)
  refine vmmUnmapPage_runs cleared met ?_ fun t quiet done => ⟨?_, done⟩
  · exact (edit.above (by simp)).trans_ne above
  · refine remapped.before quiet (fun g page => ?_) (pathOf_length virt)
    rcases page with free | ⟨k, v, long, owns, here, frame⟩
    · exact .inl free
    · have other : ¬ (k = mm ∧ v = pathOf virt) := by
        rintro ⟨rfl, rfl⟩
        exact shared owns
      refine .inr ⟨k, v, long, owns, ?_⟩
      rw [remapped.others k v long other]
      exact ⟨here, frame⟩

/-- `vmm_unmap_page` of a page that owns its frame: the frame is left in hand. -/
theorem vmmUnmapPage_owned (tables : Tables rs s own none none) (met : ¬ s.ranOut = true)
    (there : s.slot mm (pathOf virt) ≠ 0) (owned : own mm (pathOf virt)) :
    Runs (meter rs) (vmmUnmapPage rs mm virt) 0 s fun _ s' =>
      Remapped s s' own none mm (pathOf virt) 0 ∧
        Tables rs s' (withoutPage own mm (pathOf virt)) (some (pageOf (s.slot mm (pathOf virt))))
          none := by
  have above : s.slot mm [p2Ndx virt, p3Ndx virt, p4Ndx virt] ≠ 0 := Radix.slot_above there
  obtain ⟨remapped, cleared⟩ := tables.disownLeaf there rfl owned
  have edit := tables.setLeaf (i := p1Ndx virt) (e := 0) above rfl (by decide)
  refine vmmUnmapPage_runs cleared met ?_ fun t quiet done => ⟨?_, done⟩
  · exact (edit.above (by simp)).trans_ne above
  · refine remapped.before quiet (fun g page => ?_) (pathOf_length virt)
    rcases page with free | ⟨k, v, long, owns, here, frame⟩
    · cases free
    · by_cases same : k = mm ∧ v = pathOf virt
      · obtain ⟨rfl, rfl⟩ := same
        exact .inl (congrArg some frame)
      · refine .inr ⟨k, v, long, ⟨owns, same⟩, ?_⟩
        rw [remapped.others k v long same]
        exact ⟨here, frame⟩

end Blackcomb.Mm
