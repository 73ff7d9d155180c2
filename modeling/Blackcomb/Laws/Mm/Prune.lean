import Blackcomb.Laws.Mm.Walk

/-!
# Unmapping a page of one space

`vmm_unmap_page` clears the entry of a page and goes up from its table as long as the table at hand
has no entry left: it frees the table and clears the entry above. In a tree without empty tables
what goes are the tables that map no other page, so that mapping a page and unmapping it again
leaves no trace but in the history.

**What it does not establish.** Unmapping an address that is not mapped is outside: the walkers
would follow entries that are not there.
-/

namespace Blackcomb.Mm

open Memory Ownership

variable {rs : RegionTable} {s s' s₁ s₂ : Vmm} {mm f g e phys flags virt : Nat} {p q v : Path}
  {i j : Fin 512} {tables new freed : List Nat}

/-! ## Tables that are removed -/

/-- Tables were removed from the tree of a space and freed, the latest first. Slots have what they
had or nothing, and the entries of the pages stay. -/
structure Removed (rs : RegionTable) (s s' : Vmm) (mm : Nat) (tables freed : List Nat) : Prop where
  tree : Tree rs s' mm (tables.diff freed)
  taken : s'.frames.taken = s.frames.taken.diff freed
  calls : s'.pmmFrees = freed.map (fun f => (f, true)) ++ s.pmmFrees
  nodup : freed.Nodup
  sub : freed ⊆ tables
  kept : ∀ p, p.length ≤ 4 → s'.slot mm p ≠ 0 → s'.slot mm p = s.slot mm p
  leaves : ∀ v, v.length = 4 → s'.slot mm v = s.slot mm v

/-- Nothing is removed before the first table goes. -/
theorem Tree.removed (tree : Tree rs s mm tables) : Removed rs s s mm tables [] :=
  ⟨tree, rfl, rfl, List.nodup_nil, List.nil_subset _, fun _ _ _ => rfl, fun _ _ => rfl⟩

/-- One more table. -/
theorem Removed.more (done : Removed rs s s₁ mm tables freed) (edit : EditOf s₁ s₂ mm q 0)
    (short : q.length ≤ 3) (mem : f ∈ tables.diff freed)
    (tree : Tree rs s₂ mm ((tables.diff freed).erase f))
    (taken : s₂.frames.taken = s₁.frames.taken.erase f)
    (calls : s₂.pmmFrees = (f, true) :: s₁.pmmFrees) (nodup : tables.Nodup) :
    Removed rs s s₂ mm tables (f :: freed) := by
  obtain ⟨mem, out⟩ := nodup.mem_sdiff_iff.mp mem
  refine ⟨?_, ?_, ?_, List.nodup_cons.mpr ⟨out, done.nodup⟩, List.cons_subset.mpr ⟨mem, done.sub⟩,
    fun p bound here => ?_, fun v long => ?_⟩
  · rw [List.diff_cons_right]
    exact tree
  · rw [List.diff_cons_right, taken, done.taken]
  · rw [calls, done.calls]
    rfl
  · have ne : p ≠ q := by
      rintro rfl
      exact here edit.value
    have same := edit.apart bound ne
    rw [same] at here ⊢
    exact done.kept p bound here
  · rw [edit.apart (Nat.le_of_eq long), done.leaves v long]
    rintro rfl
    omega

namespace Tree

/-- The frames of the tables without one. -/
theorem lose (tree : Tree rs s mm tables) (freed : Freed rs s f s₁) (edit : EditOf s s' mm q 0)
    (was : s.tableOf mm q = some f) (frames : FramesInv rs s'.frames)
    (root : (s'.mms mm).p4 % pageSize = 0) (taken : s'.frames.taken = s₁.frames.taken) :
    Tree rs s' mm (tables.erase f) := by
  refine ⟨frames, root, ?_, tree.nodup.erase f, fun g mem => ?_⟩
  · exact tree.exclusive.lose tree.nodup was (fun p ne => edit.tableOf_eq ne)
      (tableOf_eq_none edit.value)
  · obtain ⟨ne, mem⟩ := tree.nodup.mem_erase_iff.mp mem
    rw [taken, freed.taken]
    exact (List.mem_erase_of_ne ne).mpr (tree.handed mem)

/-- Giving a frame back keeps the bytes of the tree's tables. -/
theorem freed_kept (tree : Tree rs s mm tables) (freed : Freed rs s f s₁) :
    ∀ g ∈ tables, SameFrame s.frames.mem s₁.frames.mem g :=
  fun g mem => freed.kept g (tree.frames.frames g (tree.handed mem))

/-- A table without entries: its frame freed, and its entry cleared. -/
theorem removeTable (tree : Tree rs s mm tables) (here : s.slot mm (i :: p) ≠ 0)
    (short : p.length ≤ 2) (empty : ∀ j, s.slot mm (j :: i :: p) = 0)
    (freed : Freed rs s (pageOf (s.slot mm (i :: p))) s₁) :
    EditOf s (s₁.setEntry mm p i 0) mm (i :: p) 0 ∧
      Tree rs (s₁.setEntry mm p i 0) mm (tables.erase (pageOf (s.slot mm (i :: p)))) := by
  have mms : s₁.mms = s.mms := by rw [freed.state]
  have kept := tree.freed_kept freed
  have layout := tree.only_congr mms kept
  have same : ∀ q : Path, q.length ≤ 4 → s₁.slot mm q = s.slot mm q := fun q =>
    tree.slot_congr mms kept
  have longer : (i :: p).length ≤ 3 := by
    simp only [List.length_cons]
    omega
  have above : s₁.slot mm p ≠ 0 := by
    rw [same p (by omega)]
    exact Radix.slot_above here
  have edit₁ : EditOf s₁ (s₁.setEntry mm p i 0) mm (i :: p) 0 := by
    refine .of_setEntry layout above (by omega) (Nat.two_pow_pos 64) (fun _ j => ?_)
      fun _ absurd => (by cases absurd rfl)
    rw [same (j :: i :: p) (Nat.succ_le_succ longer)]
    exact empty j
  have edit := tree.edit mms kept edit₁
  refine ⟨edit, tree.lose freed edit (tableOf_eq_some.mpr ⟨longer, here, rfl⟩) ?_ ?_ rfl⟩
  · exact frames_setEntry layout freed.inv above (by omega)
  · show (s₁.mms mm).p4 % pageSize = 0
    rw [mms]
    exact tree.root

/-- A p4 without entries: its frame freed. -/
theorem removeRoot (tree : Tree rs s mm tables) (here : s.slot mm [] ≠ 0)
    (empty : ∀ j, s.slot mm [j] = 0) (freed : Freed rs s (s.mms mm).p4 s₁) :
    EditOf s (s₁.modifyMm mm ({ · with p4 := 0 })) mm [] 0 ∧
      Tree rs (s₁.modifyMm mm ({ · with p4 := 0 })) mm (tables.erase (s.mms mm).p4) := by
  have mms : s₁.mms = s.mms := by rw [freed.state]
  have kept := tree.freed_kept freed
  have edit₁ : EditOf s₁ (s₁.modifyMm mm ({ · with p4 := 0 })) mm [] 0 := by
    unfold EditOf
    rw [Vmm.only_setRoot]
    refine edit_setRoot (fun j => ?_) fun absurd => (by cases absurd rfl)
    rw [Vmm.only_slot, tree.slot_congr (p := [j]) mms kept (Nat.le_add_left 1 3)]
    exact empty j
  have edit := tree.edit mms kept edit₁
  have was : s.tableOf mm [] = some (s.mms mm).p4 :=
    tableOf_eq_some.mpr ⟨Nat.zero_le 3, here, pageOf_eq tree.root⟩
  refine ⟨edit, tree.lose freed edit was freed.inv ?_ rfl⟩
  change (s₁.modifyMm mm ({ · with p4 := 0 })).slot mm [] % pageSize = 0
  rw [edit.value]
  exact Nat.zero_mod pageSize

end Tree

/-- Having no empty table is a matter of the space alone. -/
theorem noEmptyTable_iff : Tight (s.only mm) none ↔ s.NoEmptyTable mm := by
  constructor
  · intro tight p short here
    rw [← s.only_slot] at here
    obtain ⟨i, below⟩ := tight mm p short (fun absurd => (by cases absurd)) here
    rw [s.only_slot] at below
    exact ⟨i, below⟩
  · intro tight k p short _ here
    obtain ⟨rfl, here⟩ := Vmm.only_here here
    obtain ⟨i, below⟩ := tight p short here
    refine ⟨i, ?_⟩
    rwa [s.only_slot]

/-- The space's tables have entries, but for the one at a path. -/
abbrev TightBut (s : Vmm) (mm : Nat) (p : Path) : Prop := Tight (s.only mm) (some (mm, p))

/-- Dropping an empty table removes its frame from the tree, and only the table above may be empty
now. -/
theorem Removed.dropTable (done : Removed rs s s₁ mm tables freed) (nodup : tables.Nodup)
    (tight : TightBut s₁ mm (i :: p)) (here : s₁.slot mm (i :: p) ≠ 0) (short : p.length ≤ 2)
    (empty : ∀ j, s₁.slot mm (j :: i :: p) = 0) :
    ∃ s₂ f, dropTable rs mm p i s₁ = .ok ((), s₂) ∧ Removed rs s s₂ mm tables (f :: freed) ∧
      TightBut s₂ mm p ∧ s₂.slot mm p ≠ 0 := by
  have longer : (i :: p).length ≤ 3 := by
    simp only [List.length_cons]
    omega
  have above : s₁.slot mm p ≠ 0 := Radix.slot_above here
  have mem := done.tree.mem longer here
  obtain ⟨t, ran, gone, _⟩ := freeFrame_spec done.tree.frames (done.tree.handed mem)
  obtain ⟨edit, tree⟩ := done.tree.removeTable here short empty gone
  have calls : t.pmmFrees = (pageOf (s₁.slot mm (i :: p)), true) :: s₁.pmmFrees := by
    rw [gone.state]
  refine ⟨_, _, ?_, done.more edit longer mem tree gone.taken calls nodup, tight.clear edit, ?_⟩
  · unfold Blackcomb.Mm.dropTable
    rw [Budget.get_bind_apply, done.tree.getEntry_eq above]
    exact Budget.bind_eq_ok.mpr ⟨(), t, ran, rfl⟩
  · rw [edit.apart (by omega) (List.cons_ne_self i p).symm]
    exact above

/-- Dropping the top table leaves no table at all. -/
theorem Removed.dropRoot (done : Removed rs s s₁ mm tables freed) (nodup : tables.Nodup)
    (here : s₁.slot mm [] ≠ 0) (empty : ∀ j, s₁.slot mm [j] = 0) :
    ∃ s₂ f, dropRoot rs mm s₁ = .ok ((), s₂) ∧ Removed rs s s₂ mm tables (f :: freed) ∧
      s₂.NoEmptyTable mm := by
  have mem := done.tree.mem (p := []) (Nat.zero_le 3) here
  have page : pageOf (s₁.slot mm []) = (s₁.mms mm).p4 := pageOf_eq done.tree.root
  rw [page] at mem
  obtain ⟨t, ran, gone, _⟩ := freeFrame_spec done.tree.frames (done.tree.handed mem)
  obtain ⟨edit, tree⟩ := done.tree.removeRoot here empty gone
  have calls : t.pmmFrees = ((s₁.mms mm).p4, true) :: s₁.pmmFrees := by
    rw [gone.state]
  refine ⟨_, _, ?_, done.more edit (Nat.zero_le 3) mem tree gone.taken calls nodup, ?_⟩
  · unfold Blackcomb.Mm.dropRoot
    rw [Budget.get_bind_apply]
    exact Budget.bind_eq_ok.mpr ⟨(), t, ran, rfl⟩
  · -- nothing hangs below the empty slot
    intro p _ there
    exact absurd edit.value (Radix.slot_suffix List.nil_suffix there)

/-- A first part that is known. -/
theorem exists_then {x : Op Unit} {rest : Unit → Op Unit} {Q : Vmm → Prop}
    (ran : x s = .ok ((), s₁)) (more : ∃ s', rest () s₁ = .ok ((), s') ∧ Q s') :
    ∃ s', (x >>= rest) s = .ok ((), s') ∧ Q s' := by
  obtain ⟨s', ran', done⟩ := more
  exact ⟨s', Budget.bind_eq_ok.mpr ⟨(), s₁, ran, ran'⟩, done⟩

/-- A loop over a table that may have become empty. -/
theorem whenEmpty_spec {rest : Op Unit} {Q : Vmm → Prop} (tree : Tree rs s mm tables)
    (tight : TightBut s mm p) (here : s.slot mm p ≠ 0) (full : s.NoEmptyTable mm → Q s)
    (empty : (∀ j, s.slot mm (j :: p) = 0) → ∃ s', rest s = .ok ((), s') ∧ Q s') :
    ∃ s', whenEmpty mm p rest s = .ok ((), s') ∧ Q s' := by
  unfold whenEmpty
  rw [Budget.get_bind_apply]
  simp only [tree.getEntry_eq here]
  split
  · rename_i none
    exact empty none
  · rename_i some
    obtain ⟨i, below⟩ := not_forall.mp some
    refine ⟨s, rfl, full (noEmptyTable_iff.mp (tight.close fun _ _ => ⟨i, ?_⟩))⟩
    rwa [s.only_slot]

/-! ## vmm_unmap_page -/

/-- What `vmm_unmap_page` did to the tables of a space. -/
structure PageUnmapped (rs : RegionTable) (s s' : Vmm) (mm virt : Nat) (tables freed : List Nat) :
    Prop where
  tree : Tree rs s' mm (tables.diff freed)
  tight : s'.NoEmptyTable mm
  taken : s'.frames.taken = s.frames.taken.diff freed
  calls : s'.pmmFrees = freed.map (fun f => (f, true)) ++ s.pmmFrees
  nodup : freed.Nodup
  sub : freed ⊆ tables
  page : s'.slot mm (pathOf virt) = 0
  kept : ∀ p, p.length ≤ 4 → s'.slot mm p ≠ 0 → s'.slot mm p = s.slot mm p
  leaves : ∀ v, v.length = 4 → v ≠ pathOf virt → s'.slot mm v = s.slot mm v

/-- Removing tables after the leaf was cleared is unmapping the page. -/
theorem Removed.unmapped (done : Removed rs s₁ s' mm tables freed)
    (edit : EditOf s s₁ mm (pathOf virt) 0) (same : s₁.frames.taken = s.frames.taken)
    (calls : s₁.pmmFrees = s.pmmFrees) (tight : s'.NoEmptyTable mm) :
    PageUnmapped rs s s' mm virt tables freed := by
  have gone : s'.slot mm (pathOf virt) = 0 := (done.leaves _ (pathOf_length virt)).trans edit.value
  refine ⟨done.tree, tight, same ▸ done.taken, calls ▸ done.calls, done.nodup, done.sub, gone,
    fun p bound here => ?_, fun v long ne => ?_⟩
  · have other : p ≠ pathOf virt := by
      rintro rfl
      exact here gone
    exact (done.kept p bound here).trans (edit.apart bound other)
  · exact (done.leaves v long).trans (edit.apart (Nat.le_of_eq long) ne)

/-- `vmm_unmap_page` returns, and what it freed are the tables it emptied. -/
theorem vmmUnmapPage_spec (tree : Tree rs s mm tables) (tight : s.NoEmptyTable mm)
    (mapped : s.slot mm (pathOf virt) ≠ 0) :
    ∃ s', vmmUnmapPage rs mm virt s = .ok ((), s') ∧
      ∃ freed, PageUnmapped rs s s' mm virt tables freed := by
  have above : s.slot mm [p2Ndx virt, p3Ndx virt, p4Ndx virt] ≠ 0 := Radix.slot_above mapped
  obtain ⟨edit, cleared⟩ := tree.setLeaf (i := p1Ndx virt) above rfl (Nat.two_pow_pos 64)
  have page : TightBut _ mm (pathOf virt) := (noEmptyTable_iff.mpr tight).weaken _
  have tight₀ := page.clear edit
  have here₀ := edit.apart (p := [p2Ndx virt, p3Ndx virt, p4Ndx virt]) (by simp) (by simp)
  rw [← here₀] at above
  have stop : ∀ t freed, Removed rs _ t mm tables freed → t.NoEmptyTable mm →
      ∃ freed, PageUnmapped rs s t mm virt tables freed := fun t freed done tight =>
    ⟨freed, done.unmapped edit rfl rfl tight⟩
  unfold vmmUnmapPage
  refine exists_then rfl ?_
  -- the table of the page, then the ones above as long as nothing is left
  refine whenEmpty_spec cleared tight₀ above (stop _ _ cleared.removed) fun empty => ?_
  obtain ⟨s₁, _, ran₁, done₁, tight₁, here₁⟩ := cleared.removed.dropTable tree.nodup tight₀ above
    (Nat.le_refl 2) empty
  refine exists_then ran₁ (whenEmpty_spec done₁.tree tight₁ here₁ (stop _ _ done₁) fun empty => ?_)
  obtain ⟨s₂, _, ran₂, done₂, tight₂, here₂⟩ := done₁.dropTable tree.nodup tight₁ here₁
    (Nat.le_succ 1) empty
  refine exists_then ran₂ (whenEmpty_spec done₂.tree tight₂ here₂ (stop _ _ done₂) fun empty => ?_)
  obtain ⟨s₃, _, ran₃, done₃, tight₃, here₃⟩ := done₂.dropTable tree.nodup tight₂ here₂
    (Nat.zero_le 2) empty
  refine exists_then ran₃ (whenEmpty_spec done₃.tree tight₃ here₃ (stop _ _ done₃) fun empty => ?_)
  obtain ⟨s₄, _, ran₄, done₄, tight₄⟩ := done₃.dropRoot tree.nodup here₃ empty
  exact ⟨s₄, ran₄, stop _ _ done₄ tight₄⟩

/-! ## Pages and tables -/

/-- Every whole path is some address's. -/
theorem exists_pathOf (long : v.length = 4) : ∃ virt, pathOf virt = v := by
  obtain ⟨a, b, c, d, rfl⟩ := List.length_eq_four.mp long
  refine ⟨(((d.val * 512 + c) * 512 + b) * 512 + a) * 4096, ?_⟩
  have boundA := a.isLt
  have boundB := b.isLt
  have boundC := c.isLt
  have boundD := d.isLt
  simp only [pathOf, p1Ndx, p2Ndx, p3Ndx, p4Ndx, List.cons.injEq, and_true, Fin.ext_iff,
    Fin.val_ofNat, Nat.shiftRight_eq_div_pow]
  omega

/-- Below an empty entry no address is translated. -/
theorem walk_none_below (zero : s.slot mm p = 0) (part : p <:+ pathOf virt) :
    s.walk mm virt = none := by
  rw [walk_eq_none]
  by_contra here
  exact Radix.slot_suffix part here zero

namespace Vmm.NoEmptyTable

/-- Every table maps a page. -/
theorem exists_page (tight : s.NoEmptyTable mm) (short : p.length ≤ 4) (here : s.slot mm p ≠ 0) :
    ∃ w, p <:+ pathOf w ∧ s.slot mm (pathOf w) ≠ 0 := by
  obtain ⟨v, long, part, leaf⟩ :=
    Radix.exists_leaf (d := 4) (fun p lt here => tight p (Nat.le_of_lt_succ lt) here) here short
  obtain ⟨w, rfl⟩ := exists_pathOf long
  exact ⟨w, part, leaf⟩

/-- There are tables where there are pages. -/
theorem root_eq_zero_iff (tight : s.NoEmptyTable mm) :
    (s.mms mm).p4 = 0 ↔ ∀ w, s.walk mm w = none := by
  constructor
  · intro zero w
    exact walk_none_below (p := []) zero List.nil_suffix
  · intro none
    by_contra here
    obtain ⟨w, _, there⟩ := tight.exists_page (p := []) (Nat.zero_le 4) here
    exact there (walk_eq_none.mp (none w))

end Vmm.NoEmptyTable

/-- Addresses of different pages have different paths. -/
theorem pathOf_ne {w : Nat} (ne : w / 2 ^ 12 % 2 ^ 36 ≠ virt / 2 ^ 12 % 2 ^ 36) :
    pathOf w ≠ pathOf virt := fun same => ne (pathOf_eq_iff.mp same)

/-- Unmapping a page translates every other address as before. -/
theorem PageUnmapped.walk_eq {w : Nat} (done : PageUnmapped rs s s' mm virt tables freed)
    (ne : pathOf w ≠ pathOf virt) : s'.walk mm w = s.walk mm w := by
  unfold Vmm.walk
  rw [done.leaves _ (pathOf_length w) ne]

/-- What is freed are the tables that map no page any more. -/
theorem PageUnmapped.mem_freed (done : PageUnmapped rs s s' mm virt tables freed)
    (tree : Tree rs s mm tables) : f ∈ freed ↔
      ∃ p, s.tableOf mm p = some f ∧ ∀ w, p <:+ pathOf w → s'.walk mm w = none := by
  have left : ∀ g, g ∈ tables.diff freed ↔ g ∈ tables ∧ g ∉ freed := fun g =>
    tree.nodup.mem_sdiff_iff
  constructor
  · intro mem
    obtain ⟨p, short, here, page⟩ := tree.mem_tables.mp (done.sub mem)
    refine ⟨p, tableOf_eq_some.mpr ⟨short, here, page⟩, fun w => walk_none_below ?_⟩
    by_contra there
    -- the table would be in the tree still
    have still := done.tree.mem short there
    rw [done.kept p (by omega) there, page] at still
    exact ((left f).mp still).2 mem
  · rintro ⟨p, holds, unmapped⟩
    obtain ⟨short, here, page⟩ := tableOf_eq_some.mp holds
    by_contra out
    have still : f ∈ tables.diff freed :=
      (left f).mpr ⟨tree.exclusive.handed p f holds, out⟩
    obtain ⟨q, short', here', page'⟩ := done.tree.mem_tables.mp still
    have same := done.kept q (by omega) here'
    rw [same] at page'
    have there : s.slot mm q ≠ 0 := by rwa [← same]
    obtain rfl := tree.unique short' there short here (page'.trans page.symm)
    obtain ⟨w, part, leaf⟩ := done.tight.exists_page (by omega) here'
    exact leaf (walk_eq_none.mp (unmapped w part))

/-! ## Mapping and unmapping again -/

/-- Mapping a page leaves no empty table. -/
theorem PageMapped.tight (done : PageMapped rs s s' mm virt e tables new)
    (tight : s.NoEmptyTable mm) (nonzero : e ≠ 0) : s'.NoEmptyTable mm := by
  have way : ∀ p, p.length ≤ 4 → p <:+ pathOf virt → s'.slot mm p ≠ 0 := by
    intro p short part
    have page : s'.slot mm (pathOf virt) ≠ 0 := by
      rw [done.page]
      exact nonzero
    exact Radix.slot_suffix part page
  intro p short here
  by_cases part : p <:+ pathOf virt
  · -- the next table on the way, or the page
    obtain ⟨rest, whole⟩ := part
    rcases List.eq_nil_or_concat rest with rfl | ⟨more, i, rfl⟩
    · have long := pathOf_length virt
      rw [← whole, List.nil_append] at long
      omega
    · rw [List.concat_eq_append, List.append_assoc] at whole
      refine ⟨i, way (i :: p) (Nat.succ_le_succ short) ⟨more, whole⟩⟩
  · have ne : p ≠ pathOf virt := fun same => part (same ▸ List.suffix_refl _)
    rw [done.kept p (by omega) ne (.inr part)] at here
    obtain ⟨i, below⟩ := tight p short here
    have out : ¬ (i :: p) <:+ pathOf virt := fun longer =>
      part ((List.suffix_cons i p).trans longer)
    refine ⟨i, ?_⟩
    rwa [done.kept (i :: p) (Nat.succ_le_succ short) (fun same => out (same ▸ List.suffix_refl _))
      (.inr out)]

section Restored

variable (mapped : PageMapped rs s s₁ mm virt e tables new)
  (unmapped : PageUnmapped rs s₁ s₂ mm virt (new ++ tables) freed) (tight : s.NoEmptyTable mm)
  (free : s.walk mm virt = none)

include mapped unmapped free

/-- The pages are what they were. -/
theorem restored_page (w : Nat) : s₂.slot mm (pathOf w) = s.slot mm (pathOf w) := by
  by_cases same : pathOf w = pathOf virt
  · rw [same, unmapped.page, walk_eq_none.mp free]
  · have apart : ¬ pathOf w <:+ pathOf virt := fun part =>
      same (part.eq_of_length ((pathOf_length w).trans (pathOf_length virt).symm))
    rw [unmapped.leaves _ (pathOf_length w) same,
      mapped.kept _ (Nat.le_of_eq (pathOf_length w)) same (.inr apart)]

include tight

/-- So are the tables. A table has a page, before and after, and stays where it is. -/
theorem restored_slot (short : p.length ≤ 3) : s₂.slot mm p = s.slot mm p := by
  by_cases here : s₂.slot mm p = 0
  · rw [here]
    by_contra there
    obtain ⟨w, part, leaf⟩ := tight.exists_page (p := p) (by omega) fun zero => there zero.symm
    rw [← restored_page mapped unmapped free w] at leaf
    exact Radix.slot_suffix part leaf here
  · obtain ⟨w, part, leaf⟩ := unmapped.tight.exists_page (by omega) here
    rw [restored_page mapped unmapped free w] at leaf
    have there : s.slot mm p ≠ 0 := Radix.slot_suffix part leaf
    have ne : p ≠ pathOf virt := by
      rintro rfl
      rw [pathOf_length] at short
      omega
    rw [unmapped.kept p (by omega) here, mapped.kept p (by omega) ne (.inl there)]

/-- What was freed is what was handed out. -/
theorem restored_taken (tree : Tree rs s mm tables) :
    f ∈ s₂.frames.taken ↔ f ∈ s.frames.taken := by
  have tables₂ : f ∈ (new ++ tables).diff freed ↔ f ∈ tables := by
    rw [unmapped.tree.mem_tables, tree.mem_tables]
    refine exists_congr fun p => and_congr_right fun short => ?_
    rw [restored_slot mapped unmapped tight free short]
  rw [mapped.tree.nodup.mem_sdiff_iff, List.mem_append] at tables₂
  rw [unmapped.taken, mapped.tree.frames.nodup.mem_sdiff_iff, mapped.taken, List.mem_append]
  constructor
  · rintro ⟨fresh | before, kept⟩
    · exact tree.handed (tables₂.mp ⟨.inl fresh, kept⟩)
    · exact before
  · intro before
    refine ⟨.inr before, fun gone => ?_⟩
    rcases List.mem_append.mp (unmapped.sub gone) with fresh | table
    · exact mapped.unused f fresh before
    · exact (tables₂.mpr table).2 gone

end Restored

/-- Unmapping a page clears its entry, and frees each table that maps no page any more, once; the
other pages translate as before. So mapping a page that was not mapped and unmapping it again leaves
the translation and the frames handed out as they were. -/
theorem vmmUnmapPage_prunes (tree : Tree rs s mm tables) (tight : s.NoEmptyTable mm) :
    (∀ virt, s.walk mm virt ≠ none → ∃ s' freed, vmmUnmapPage rs mm virt s = .ok ((), s') ∧
      s'.walk mm virt = none ∧
      (∀ w, w / 2 ^ 12 % 2 ^ 36 ≠ virt / 2 ^ 12 % 2 ^ 36 → s'.walk mm w = s.walk mm w) ∧
      Tree rs s' mm (tables.diff freed) ∧ s'.NoEmptyTable mm ∧
      ((s'.mms mm).p4 = 0 ↔ ∀ w, s'.walk mm w = none) ∧
      s'.frames.taken = s.frames.taken.diff freed ∧
      s'.pmmFrees = freed.map (fun f => (f, true)) ++ s.pmmFrees ∧ freed.Nodup ∧
      ∀ f, f ∈ freed ↔
        ∃ p, s.tableOf mm p = some f ∧ ∀ w, p <:+ pathOf w → s'.walk mm w = none) ∧
    ∀ virt phys flags, s.walk mm virt = none → phys < 2 ^ 64 → flags < pageSize →
      flags &&& pagePresent ≠ 0 → s.missing mm virt ≤ (freeFrames rs s.frames).card →
      ∃ s₁ s₂, vmmMapPage rs mm virt phys flags s = .ok ((), s₁) ∧
        vmmUnmapPage rs mm virt s₁ = .ok ((), s₂) ∧ (∀ w, s₂.walk mm w = s.walk mm w) ∧
        (∀ f, f ∈ s₂.frames.taken ↔ f ∈ s.frames.taken) ∧
        ((s₂.mms mm).p4 = 0 ↔ (s.mms mm).p4 = 0) := by
  constructor
  · intro virt mapped
    obtain ⟨s', ran, freed, done⟩ :=
      vmmUnmapPage_spec tree tight fun zero => mapped (walk_eq_none.mpr zero)
    exact ⟨s', freed, ran, walk_eq_none.mpr done.page, fun w ne => done.walk_eq (pathOf_ne ne),
      done.tree, done.tight, done.tight.root_eq_zero_iff, done.taken, done.calls, done.nodup,
      fun f => done.mem_freed tree⟩
  · intro virt phys flags free wide small present enough
    have fits : phys ||| flags < 2 ^ 64 := Nat.or_lt_two_pow wide (Nat.lt_trans small (by decide))
    have nonzero : phys ||| flags ≠ 0 := by
      intro zero
      rw [(Nat.or_eq_zero_iff.mp zero).2, Nat.zero_and] at present
      exact present rfl
    obtain ⟨s₁, new, ran₁, mapped⟩ := vmmMapPage_spec tree small fits enough
    have page : s₁.slot mm (pathOf virt) ≠ 0 := by
      rw [mapped.page]
      exact nonzero
    obtain ⟨s₂, ran₂, freed, unmapped⟩ :=
      vmmUnmapPage_spec mapped.tree (mapped.tight tight nonzero) page
    refine ⟨s₁, s₂, ran₁, ran₂, fun w => ?_, fun f => ?_, ?_⟩
    · unfold Vmm.walk
      rw [restored_page mapped unmapped free w]
    · exact restored_taken mapped unmapped tight free tree
    · have root := restored_slot mapped unmapped tight free (p := []) (Nat.zero_le 3)
      change (s₂.mms mm).p4 = (s.mms mm).p4 at root
      rw [root]

/-- A page that shares its tables with another is mapped and unmapped, and the other stays mapped. -/
theorem vmmUnmapPage_prunes_second : ∃ s₁ s₂ s₃,
    vmmMapPage wideTable 0 0x400000 0xb8000 3 (Vmm.boot wideTable fun _ => 0) = .ok ((), s₁) ∧
      vmmMapPage wideTable 0 0x401000 0xb9000 3 s₁ = .ok ((), s₂) ∧
      vmmUnmapPage wideTable 0 0x401000 s₂ = .ok ((), s₃) ∧
      s₃.walk 0 0x400000 = some (0xb8000 ||| 3) ∧ s₃.walk 0 0x401000 = none ∧
      ∀ f, f ∈ s₃.frames.taken ↔ f ∈ s₁.frames.taken := by
  obtain ⟨s₁, new, ran₁, done, whole⟩ := exists_first_page
  have enough : s₁.missing 0 0x401000 ≤ (freeFrames wideTable s₁.frames).card := by
    rw [whole]
    exact Nat.zero_le _
  have tight₀ : (Vmm.boot wideTable fun _ => 0).NoEmptyTable 0 := by
    intro p _ here
    have root : (Vmm.boot wideTable fun _ => 0).slot 0 [] ≠ 0 :=
      Radix.slot_suffix List.nil_suffix here
    exact absurd rfl root
  have tight := done.tight tight₀ (by decide)
  have other : (0x401000 : Nat) / 2 ^ 12 % 2 ^ 36 ≠ 0x400000 / 2 ^ 12 % 2 ^ 36 := by decide
  have free : s₁.walk 0 0x401000 = none := by
    have apart : ¬ pathOf 0x401000 <:+ pathOf 0x400000 := by decide
    rw [walk_eq_none, done.kept _ (Nat.le_of_eq (pathOf_length _)) (pathOf_ne other) (.inr apart)]
    rfl
  obtain ⟨s₂, s₃, ran₂, ran₃, same, taken, _⟩ :=
    (vmmUnmapPage_prunes done.tree tight).2 0x401000 0xb9000 3 free (by decide) (by decide) (by decide)
      enough
  refine ⟨s₁, s₂, s₃, ran₁, ran₂, ran₃, ?_, (same _).trans free, taken⟩
  exact (same _).trans (walk_eq_some.mpr ⟨done.page, by decide⟩)

end Blackcomb.Mm
