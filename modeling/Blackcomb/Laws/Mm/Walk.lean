import Blackcomb.Laws.Mm.Ownership

/-!
# Walking the tables of one space

What `vmm_map_page` and `vmm_unmap_page` do to the translation of a space, when nothing is known but
that the tables of this space are different frames handed out. Whatever else is handed out, and the
tables of the other spaces, may overlap or be broken.

A space is looked at alone: with the other spaces empty, its tables are a layout, and each stage of
the two functions is an edit of one slot. The frames of the tables are counted along.

**What it does not establish.** The frames of pages are not counted here, and may be anything,
tables of other spaces included.
-/

namespace Blackcomb.Mm

open Memory Ownership

variable {rs : RegionTable} {s s' s₁ s₂ : Vmm} {mm k f g e phys flags virt : Nat} {p q v : Path}
  {i j : Fin 512} {tables new freed : List Nat}

/-- Walking the tables for a virtual address: the entry of its page, or none where an entry on the
way is `0`. -/
def Vmm.walk (s : Vmm) (mm virt : Nat) : Option Nat :=
  if s.slot mm (pathOf virt) = 0 then none else some (s.slot mm (pathOf virt))

/-- The frame of the table at a path. -/
def Vmm.tableOf (s : Vmm) (mm : Nat) (p : Path) : Option Nat :=
  if p.length ≤ 3 ∧ s.slot mm p ≠ 0 then some (pageOf (s.slot mm p)) else none

/-- The tables of a space form a tree of different frames handed out. There is none when its p4 is
`0`. -/
structure Tree (rs : RegionTable) (s : Vmm) (mm : Nat) (tables : List Nat) : Prop where
  frames : FramesInv rs s.frames
  root : (s.mms mm).p4 % pageSize = 0
  exclusive : Exclusive (s.tableOf mm) tables
  nodup : tables.Nodup
  handed : tables ⊆ s.frames.taken

/-- Every table of a space has an entry that is not `0`. -/
def Vmm.NoEmptyTable (s : Vmm) (mm : Nat) : Prop :=
  ∀ p, p.length ≤ 3 → s.slot mm p ≠ 0 → ∃ i, s.slot mm (i :: p) ≠ 0

/-! ## One space alone -/

namespace Vmm

/-- The other spaces have no tables. -/
def only (s : Vmm) (mm : Nat) : Vmm :=
  { s with mms := Function.update (fun _ => {}) mm (s.mms mm) }

theorem only_mms (s : Vmm) (mm : Nat) : (s.only mm).mms mm = s.mms mm := by
  simp [only]

/-- Looking at one space alone changes none of its entries. -/
theorem only_slot (s : Vmm) (mm : Nat) (p : Path) : (s.only mm).slot mm p = s.slot mm p := by
  induction p with
  | nil => exact congrArg MmStruct.p4 (s.only_mms mm)
  | cons i p ih =>
    unfold slot at ih ⊢
    rw [Radix.slot, Radix.slot, ih]
    rfl

/-- The other spaces have no entries there. -/
theorem only_slot_ne (s : Vmm) (ne : k ≠ mm) (p : Path) : (s.only mm).slot k p = 0 := by
  by_contra here
  apply Radix.slot_suffix List.nil_suffix here
  change ((s.only mm).mms k).p4 = 0
  simp [only, ne]

/-- An entry seen there is one of the space's own. -/
theorem only_here (here : (s.only mm).slot k p ≠ 0) : k = mm ∧ s.slot mm p ≠ 0 := by
  by_cases same : k = mm
  · rw [same, only_slot] at here
    exact ⟨same, here⟩
  · exact absurd (s.only_slot_ne same p) here

/-- The space's tables are where they were. -/
theorem only_tableAt (s : Vmm) (mm : Nat) (p : Path) :
    (s.only mm).tableAt mm p = s.tableAt mm p := by
  induction p with
  | nil => exact congrArg MmStruct.p4 (s.only_mms mm)
  | cons i p ih =>
    rw [tableAt, tableAt, ih]
    rfl

/-- Writing an entry of the space commutes with looking at it alone. -/
theorem only_setEntry (s : Vmm) (mm : Nat) (p : Path) (i : Fin 512) (e : Nat) :
    (s.setEntry mm p i e).only mm = (s.only mm).setEntry mm p i e := by
  rw [setEntry, setEntry, only_tableAt]
  rfl

/-- So does writing its `p4`. -/
theorem only_setRoot (s : Vmm) (mm e : Nat) :
    (s.modifyMm mm ({ · with p4 := e })).only mm =
      (s.only mm).modifyMm mm ({ · with p4 := e }) := by
  simp [only, modifyMm]

end Vmm

/-- One slot of the space was set. -/
abbrev EditOf (s s' : Vmm) (mm : Nat) (q : Path) (e : Nat) : Prop :=
  Edit (s.only mm) (s'.only mm) mm q e

/-- The edited entry has the new value. -/
theorem EditOf.value (edit : EditOf s s' mm q e) : s'.slot mm q = e := by
  rw [← s'.only_slot]
  exact edit.here

/-- Every other entry of the space is kept. -/
theorem EditOf.apart (edit : EditOf s s' mm q e) (short : p.length ≤ 4) (ne : p ≠ q) :
    s'.slot mm p = s.slot mm p := by
  have same := edit.others mm p short fun both => ne both.2
  rwa [Vmm.only_slot, Vmm.only_slot] at same

/-- A table's frame is the one its entry names. -/
theorem tableOf_eq_some : s.tableOf mm p = some f ↔
    p.length ≤ 3 ∧ s.slot mm p ≠ 0 ∧ pageOf (s.slot mm p) = f := by
  unfold Vmm.tableOf
  split
  · rename_i met
    rw [Option.some.injEq]
    exact ⟨fun same => ⟨met.1, met.2, same⟩, fun all => all.2.2⟩
  · rename_i unmet
    exact ⟨fun absurd => (by cases absurd), fun all => absurd ⟨all.1, all.2.1⟩ unmet⟩

/-- Below an empty entry there is no table. -/
theorem tableOf_eq_none (zero : s.slot mm p = 0) : s.tableOf mm p = none := by
  simp [Vmm.tableOf, zero]

/-- An edit changes the table at the edited path. -/
theorem EditOf.tableOf_eq (edit : EditOf s s' mm q e) (ne : p ≠ q) :
    s'.tableOf mm p = s.tableOf mm p := by
  by_cases short : p.length ≤ 3
  · unfold Vmm.tableOf
    rw [edit.apart (by omega) ne]
  · simp [Vmm.tableOf, short]

namespace Tree

/-- The frames of a tree are those its entries above the leaves name. -/
theorem mem_tables (tree : Tree rs s mm tables) :
    f ∈ tables ↔ ∃ p, p.length ≤ 3 ∧ s.slot mm p ≠ 0 ∧ pageOf (s.slot mm p) = f := by
  constructor
  · intro mem
    obtain ⟨p, holds⟩ := tree.exclusive.holder f mem
    exact ⟨p, tableOf_eq_some.mp holds⟩
  · rintro ⟨p, holds⟩
    exact tree.exclusive.handed p f (tableOf_eq_some.mpr holds)

/-- The table below an entry is among the tree's frames. -/
theorem mem (tree : Tree rs s mm tables) (short : p.length ≤ 3) (here : s.slot mm p ≠ 0) :
    pageOf (s.slot mm p) ∈ tables :=
  tree.mem_tables.mpr ⟨p, short, here, rfl⟩

/-- The tables of a tree are frames of the region table. -/
theorem frame (tree : Tree rs s mm tables) (short : p.length ≤ 3) (here : s.slot mm p ≠ 0) :
    IsFrame rs (pageOf (s.slot mm p)) :=
  tree.frames.frames _ (tree.handed (tree.mem short here))

/-- Two entries never name one table. -/
theorem unique (tree : Tree rs s mm tables) (short : p.length ≤ 3) (here : s.slot mm p ≠ 0)
    (short' : q.length ≤ 3) (here' : s.slot mm q ≠ 0)
    (same : pageOf (s.slot mm p) = pageOf (s.slot mm q)) : p = q :=
  tree.exclusive.unique p q _ (tableOf_eq_some.mpr ⟨short, here, rfl⟩)
    (tableOf_eq_some.mpr ⟨short', here', same.symm⟩)

/-- A tree alone is laid out as the walk expects. -/
theorem layout (tree : Tree rs s mm tables) : Layout rs (s.only mm) := by
  refine ⟨fun k p short here => ?_, fun k p k' p' short short' here here' same => ?_, fun k => ?_⟩
  · obtain ⟨rfl, here⟩ := Vmm.only_here here
    rw [Vmm.only_slot]
    exact tree.frame short here
  · obtain ⟨rfl, here⟩ := Vmm.only_here here
    obtain ⟨rfl, here'⟩ := Vmm.only_here here'
    change pageOf ((s.only k').slot k' p) = pageOf ((s.only k').slot k' p') at same
    rw [Vmm.only_slot, Vmm.only_slot] at same
    exact ⟨rfl, tree.unique (by omega) here (by omega) here' same⟩
  · by_cases same : k = mm
    · rw [same, Vmm.only_mms]
      exact tree.root
    · simp [Vmm.only, same]

/-- The walk's read at a table is the entry of the path. -/
theorem getEntry_eq (tree : Tree rs s mm tables) (here : s.slot mm p ≠ 0) :
    s.getEntry mm p i = s.slot mm (i :: p) := by
  have alone : (s.only mm).getEntry mm p i = (s.only mm).slot mm (i :: p) :=
    tree.layout.getEntry_eq (by rwa [Vmm.only_slot])
  rwa [Vmm.getEntry, Vmm.only_tableAt, Vmm.only_slot] at alone

/-- The slots of the tree are read from its tables. -/
theorem slot_congr (tree : Tree rs s mm tables) (mms : s'.mms = s.mms)
    (kept : ∀ g ∈ tables, SameFrame s.frames.mem s'.frames.mem g) (short : p.length ≤ 4) :
    s'.slot mm p = s.slot mm p := by
  rw [← s'.only_slot, ← s.only_slot]
  refine Blackcomb.Mm.slot_congr (fun k => ?_) (fun k q depth here => ?_) short
  · simp only [Vmm.only, mms]
  · obtain ⟨rfl, here⟩ := Vmm.only_here here
    rw [Vmm.only_slot]
    exact kept _ (tree.mem depth here)

/-- A tree stays laid out while its tables keep their bytes. -/
theorem only_congr (tree : Tree rs s mm tables) (mms : s'.mms = s.mms)
    (kept : ∀ g ∈ tables, SameFrame s.frames.mem s'.frames.mem g) : Layout rs (s'.only mm) := by
  refine tree.layout.congr (fun k => by simp only [Vmm.only, mms]) fun k p short => ?_
  by_cases same : k = mm
  · rw [same, Vmm.only_slot, Vmm.only_slot]
    exact tree.slot_congr mms kept short
  · rw [Vmm.only_slot_ne s' same, Vmm.only_slot_ne s same]

/-- An edit of the space after one that the tree does not notice. -/
theorem edit (tree : Tree rs s mm tables) (mms : s₁.mms = s.mms)
    (kept : ∀ g ∈ tables, SameFrame s.frames.mem s₁.frames.mem g)
    (edit : EditOf s₁ s' mm q e) : EditOf s s' mm q e := by
  refine ⟨edit.here, fun k p short ne => (edit.others k p short ne).trans ?_⟩
  by_cases same : k = mm
  · rw [same, Vmm.only_slot, Vmm.only_slot]
    exact tree.slot_congr mms kept short
  · rw [Vmm.only_slot_ne s₁ same, Vmm.only_slot_ne s same]

end Tree

/-- Setting an entry of a table is an edit of the space. -/
theorem EditOf.of_setEntry (layout : Layout rs (s.only mm)) (here : s.slot mm p ≠ 0)
    (short : p.length ≤ 3) (fits : e < 2 ^ 64)
    (old : p.length < 3 → ∀ j, s.slot mm (j :: i :: p) = 0)
    (new : p.length < 3 → e ≠ 0 → pageOf e % pageSize = 0 ∧ pageOf e ≠ pageOf (s.slot mm p) ∧
      ∀ j, entryAt s.frames.mem (pageOf e) j = 0) :
    EditOf s (s.setEntry mm p i e) mm (i :: p) e := by
  unfold EditOf
  rw [Vmm.only_setEntry]
  apply layout.setEntry
  · rwa [Vmm.only_slot]
  · exact short
  · exact fits
  · intro shallow j
    rw [Vmm.only_slot]
    exact old shallow j
  · rw [Vmm.only_slot]
    exact new

/-- The allocator's own bytes are outside the tables. -/
theorem frames_setEntry (layout : Layout rs (s.only mm)) (inv : FramesInv rs s.frames)
    (here : s.slot mm p ≠ 0) (short : p.length ≤ 3) :
    FramesInv rs (s.setEntry mm p i e).frames := by
  have alone : (s.only mm).slot mm p ≠ 0 := by rwa [Vmm.only_slot]
  have table := layout.tableAt_eq alone
  rw [Vmm.only_tableAt] at table
  refine inv.outside (layout.frame mm p short alone) fun a out => ?_
  simp only [table]
  exact setEntryAt_outside out

/-! ## Tables that are added -/

/-- How many of the slots at some paths have nothing in them. -/
def Vmm.vacant (s : Vmm) (mm : Nat) (qs : List Path) : Nat :=
  qs.countP fun q => decide (s.slot mm q = 0)

/-- The slots at some paths have something in them. Where they had nothing, a table was added to the
tree, in a frame that was free. -/
structure Added (rs : RegionTable) (s s' : Vmm) (mm : Nat) (qs : List Path)
    (tables new : List Nat) : Prop where
  tree : Tree rs s' mm (new ++ tables)
  taken : s'.frames.taken = new ++ s.frames.taken
  unused : ∀ f ∈ new, f ∉ s.frames.taken
  count : new.length = s.vacant mm qs
  left : (meter rs).left s = (meter rs).left s' + new.length
  here : ∀ q ∈ qs, s'.slot mm q ≠ 0
  kept : ∀ p, p.length ≤ 4 → s.slot mm p ≠ 0 ∨ p ∉ qs → s'.slot mm p = s.slot mm p

/-- A slot that had something. -/
theorem Tree.added (tree : Tree rs s mm tables) (there : s.slot mm q ≠ 0) :
    Added rs s s mm [q] tables [] := by
  refine ⟨tree, rfl, fun f absurd => (by cases absurd), ?_, rfl, fun p mem => ?_, fun _ _ _ => rfl⟩
  · simp [Vmm.vacant, there]
  · rwa [List.mem_singleton.mp mem]

/-- A slot that had nothing. -/
theorem EditOf.added (edit : EditOf s s' mm q e) (empty : s.slot mm q = 0) (nonzero : e ≠ 0)
    (tree : Tree rs s' mm (f :: tables)) (taken : s'.frames.taken = f :: s.frames.taken)
    (unused : f ∉ s.frames.taken) (left : (meter rs).left s = (meter rs).left s' + 1) :
    Added rs s s' mm [q] tables [f] := by
  refine ⟨tree, taken, fun g mem => ?_, ?_, left, fun p mem => ?_, fun p short stays => ?_⟩
  · rwa [List.mem_singleton.mp mem]
  · simp [Vmm.vacant, empty]
  · rw [List.mem_singleton.mp mem, edit.value]
    exact nonzero
  · apply edit.apart short
    rintro rfl
    rcases stays with there | out
    · exact there empty
    · exact out List.mem_cons_self

/-- More slots, others than before. -/
theorem Added.trans {qs qs' : List Path} {new' : List Nat} (one : Added rs s s₁ mm qs tables new)
    (two : Added rs s₁ s₂ mm qs' (new ++ tables) new') (short : ∀ q ∈ qs ++ qs', q.length ≤ 4)
    (other : ∀ q ∈ qs', q ∉ qs) : Added rs s s₂ mm (qs ++ qs') tables (new' ++ new) := by
  have same : ∀ q ∈ qs', s₁.slot mm q = s.slot mm q := fun q mem =>
    one.kept q (short q (List.mem_append_right qs mem)) (.inr (other q mem))
  refine ⟨?_, ?_, fun f mem => ?_, ?_, ?_, fun q mem => ?_, fun p bound stays => ?_⟩
  · rw [List.append_assoc]
    exact two.tree
  · rw [two.taken, one.taken, List.append_assoc]
  · rcases List.mem_append.mp mem with later | first
    · have free := two.unused f later
      rw [one.taken] at free
      exact fun before => free (List.mem_append_right new before)
    · exact one.unused f first
  · have later : s₁.vacant mm qs' = s.vacant mm qs' := by
      apply List.countP_congr
      intro q mem
      rw [same q mem]
    have counted : s.vacant mm (qs ++ qs') = s.vacant mm qs + s.vacant mm qs' :=
      List.countP_append
    rw [List.length_append, two.count, one.count, later, counted, Nat.add_comm]
  · rw [one.left, two.left, List.length_append]
    omega
  · rcases List.mem_append.mp mem with first | later
    · have there := one.here q first
      rw [two.kept q (short q mem) (.inl there)]
      exact there
    · exact two.here q later
  · have first : s₁.slot mm p = s.slot mm p :=
      one.kept p bound (stays.imp id fun out mem => out (List.mem_append_left qs' mem))
    rw [two.kept p bound, first]
    rw [first]
    exact stays.imp id fun out mem => out (List.mem_append_right qs mem)

namespace Tree

/-- The tree after `pmm_alloc`. -/
theorem alloced_kept (tree : Tree rs s mm tables) (alloced : Alloced rs s f s₁) :
    ∀ g ∈ tables, SameFrame s.frames.mem s₁.frames.mem g := by
  intro g mem
  have taken := tree.handed mem
  apply alloced.kept g (tree.frames.frames g taken)
  rintro rfl
  exact alloced.fresh taken

/-- The frames of the tables with a new one. -/
theorem gain (tree : Tree rs s mm tables) (alloced : Alloced rs s f s₁)
    (edit : EditOf s s' mm q e) (short : q.length ≤ 3) (empty : s.slot mm q = 0) (nonzero : e ≠ 0)
    (page : pageOf e = f) (frames : FramesInv rs s'.frames)
    (root : (s'.mms mm).p4 % pageSize = 0) (taken : s'.frames.taken = s₁.frames.taken) :
    Tree rs s' mm (f :: tables) := by
  have fresh : f ∉ tables := fun mem => alloced.fresh (tree.handed mem)
  have now : s'.tableOf mm q = some f := by
    refine tableOf_eq_some.mpr ⟨short, ?_, ?_⟩
    · rw [edit.value]
      exact nonzero
    · rw [edit.value]
      exact page
  refine ⟨frames, root, ?_, List.nodup_cons.mpr ⟨fresh, tree.nodup⟩, ?_⟩
  · exact tree.exclusive.gain fresh now (fun p ne => edit.tableOf_eq ne) (tableOf_eq_none empty)
  · rw [taken, alloced.taken]
    exact List.cons_subset_cons f tree.handed

/-- A table that was missing: a frame handed out, and its entry set. -/
theorem addTable (tree : Tree rs s mm tables) (here : s.slot mm p ≠ 0) (short : p.length ≤ 2)
    (empty : s.slot mm (i :: p) = 0) (small : flags < pageSize) (alloced : Alloced rs s f s₁) :
    EditOf s (s₁.setEntry mm p i (f ||| flags)) mm (i :: p) (f ||| flags) ∧
      Tree rs (s₁.setEntry mm p i (f ||| flags)) mm (f :: tables) := by
  have mms : s₁.mms = s.mms := by rw [alloced.state]
  have kept := tree.alloced_kept alloced
  have layout := tree.only_congr mms kept
  have same : ∀ q : Path, q.length ≤ 4 → s₁.slot mm q = s.slot mm q := fun q =>
    tree.slot_congr mms kept
  have here₁ : s₁.slot mm p ≠ 0 := by rwa [same p (by omega)]
  have page := pageOf_or alloced.frame.aligned small
  have nonzero : f ||| flags ≠ 0 := or_ne_zero (Nat.ne_of_gt alloced.frame.pos)
  have fits := alloced.frame.or_lt small
  have edit₁ : EditOf s₁ (s₁.setEntry mm p i (f ||| flags)) mm (i :: p) (f ||| flags) := by
    refine .of_setEntry layout here₁ (by omega) fits (fun _ j => ?_) fun _ _ => ?_
    · rw [same (j :: i :: p) (by simp only [List.length_cons]; omega)]
      exact Radix.slot_cons_zero empty
    · rw [page, same p (by omega)]
      refine ⟨alloced.frame.aligned, fun eq => alloced.fresh ?_, fun j => ?_⟩
      · rw [eq]
        exact tree.handed (tree.mem (by omega) here)
      · exact entryAt_zeroed alloced.zeroed
  have edit := tree.edit mms kept edit₁
  refine ⟨edit, tree.gain alloced edit ?_ empty nonzero page ?_ ?_ rfl⟩
  · simp only [List.length_cons]
    omega
  · exact frames_setEntry layout alloced.inv here₁ (by omega)
  · show (s₁.mms mm).p4 % pageSize = 0
    rw [mms]
    exact tree.root

/-- A p4 that was missing: a frame handed out. -/
theorem addRoot (tree : Tree rs s mm tables) (empty : s.slot mm [] = 0)
    (alloced : Alloced rs s f s₁) :
    EditOf s (s₁.modifyMm mm ({ · with p4 := f })) mm [] f ∧
      Tree rs (s₁.modifyMm mm ({ · with p4 := f })) mm (f :: tables) := by
  have mms : s₁.mms = s.mms := by rw [alloced.state]
  have kept := tree.alloced_kept alloced
  have page := pageOf_eq alloced.frame.aligned
  have edit₁ : EditOf s₁ (s₁.modifyMm mm ({ · with p4 := f })) mm [] f := by
    unfold EditOf
    rw [Vmm.only_setRoot]
    refine edit_setRoot (fun j => Radix.slot_cons_zero ?_) fun _ j => ?_
    · rw [← tree.slot_congr (p := []) mms kept (Nat.zero_le 4)] at empty
      exact (s₁.only_slot mm []).trans empty
    · rw [page]
      exact entryAt_zeroed alloced.zeroed
  have edit := tree.edit mms kept edit₁
  refine ⟨edit, tree.gain alloced edit (Nat.zero_le 3) empty (Nat.ne_of_gt alloced.frame.pos) page
    alloced.inv ?_ rfl⟩
  change (s₁.modifyMm mm ({ · with p4 := f })).slot mm [] % pageSize = 0
  rw [edit.value]
  exact alloced.frame.aligned

end Tree

/-- What is free is a frame. -/
theorem exists_free (some : 0 < (meter rs).left s) : ∃ g, IsFrame rs g ∧ g ∉ s.frames.taken := by
  have nonempty : 0 < (freeFrames rs s.frames).card := some
  obtain ⟨g, mem⟩ := Finset.card_pos.mp nonempty
  exact ⟨g, mem_freeFrames.mp mem⟩

/-- `growTable` returns with the table there, using a frame only if its entry was empty. -/
theorem growTable_added (tree : Tree rs s mm tables) (here : s.slot mm p ≠ 0)
    (short : p.length ≤ 2) (small : flags < pageSize)
    (enough : s.vacant mm [i :: p] ≤ (meter rs).left s) :
    ∃ s' new, growTable rs mm p i flags s = .ok ((), s') ∧
      Added rs s s' mm [i :: p] tables new := by
  unfold growTable
  rw [Budget.get_bind_apply, tree.getEntry_eq here]
  by_cases empty : s.slot mm (i :: p) = 0
  · rw [if_pos empty]
    have some : 0 < (meter rs).left s := by
      simp only [Vmm.vacant, empty, decide_true, List.countP_singleton, if_true] at enough
      exact enough
    obtain ⟨f, s₁, ran, alloced, left⟩ := allocFrame_spec tree.frames (exists_free some)
    obtain ⟨edit, grown⟩ := tree.addTable here short empty small alloced
    refine ⟨_, [f], Budget.bind_eq_ok.mpr ⟨f, s₁, ran, rfl⟩, ?_⟩
    apply edit.added empty _ grown alloced.taken alloced.fresh left
    exact or_ne_zero (Nat.ne_of_gt alloced.frame.pos)
  · rw [if_neg empty]
    exact ⟨s, [], rfl, tree.added empty⟩

/-- The same for the top table. -/
theorem growRoot_added (tree : Tree rs s mm tables)
    (enough : s.vacant mm [[]] ≤ (meter rs).left s) :
    ∃ s' new, growRoot rs mm s = .ok ((), s') ∧ Added rs s s' mm [[]] tables new := by
  unfold growRoot
  rw [Budget.get_bind_apply]
  by_cases empty : (s.mms mm).p4 = 0
  · rw [if_pos empty]
    have none : s.slot mm [] = 0 := empty
    have some : 0 < (meter rs).left s := by
      simp only [Vmm.vacant, none, decide_true, List.countP_singleton, if_true] at enough
      exact enough
    obtain ⟨f, s₁, ran, alloced, left⟩ := allocFrame_spec tree.frames (exists_free some)
    obtain ⟨edit, grown⟩ := tree.addRoot empty alloced
    refine ⟨_, [f], Budget.bind_eq_ok.mpr ⟨f, s₁, ran, rfl⟩, ?_⟩
    exact edit.added empty (Nat.ne_of_gt alloced.frame.pos) grown alloced.taken alloced.fresh left
  · rw [if_neg empty]
    exact ⟨s, [], rfl, tree.added empty⟩

/-- One more `if` of `vmm_map_page`. -/
theorem Added.grow {qs : List Path} (added : Added rs s s₁ mm qs tables new) (above : p ∈ qs)
    (other : i :: p ∉ qs) (short : p.length ≤ 2) (bound : ∀ q ∈ qs, q.length ≤ 4)
    (small : flags < pageSize) (enough : s.vacant mm (qs ++ [i :: p]) ≤ (meter rs).left s) :
    ∃ s₂ more, growTable rs mm p i flags s₁ = .ok ((), s₂) ∧
      Added rs s s₂ mm (qs ++ [i :: p]) tables (more ++ new) := by
  have long : (i :: p).length ≤ 4 := by
    simp only [List.length_cons]
    omega
  have same : s₁.slot mm (i :: p) = s.slot mm (i :: p) := added.kept (i :: p) long (.inr other)
  have enough₁ : s₁.vacant mm [i :: p] ≤ (meter rs).left s₁ := by
    have counted : s.vacant mm (qs ++ [i :: p]) = s.vacant mm qs + s.vacant mm [i :: p] :=
      List.countP_append
    have vacant : s₁.vacant mm [i :: p] = s.vacant mm [i :: p] := by
      simp only [Vmm.vacant, List.countP_singleton, same]
    rw [vacant]
    rw [counted, added.left, added.count] at enough
    omega
  obtain ⟨s₂, more, ran, next⟩ :=
    growTable_added added.tree (added.here p above) short small enough₁
  refine ⟨s₂, more, ran, added.trans next (fun q mem => ?_) fun q mem => ?_⟩
  · rcases List.mem_append.mp mem with first | last
    · exact bound q first
    · rwa [List.mem_singleton.mp last]
  · rwa [List.mem_singleton.mp mem]

/-- The paths to the tables on the way to a page. -/
def wayTo (virt : Nat) : List Path :=
  [[], [p4Ndx virt], [p3Ndx virt, p4Ndx virt], [p2Ndx virt, p3Ndx virt, p4Ndx virt]]

/-- The way to an address is the entries above its leaf. -/
theorem mem_wayTo : p ∈ wayTo virt ↔ p.length ≤ 3 ∧ p <:+ pathOf virt := by
  constructor
  · intro mem
    simp only [wayTo, List.mem_cons, List.not_mem_nil, or_false] at mem
    rcases mem with rfl | rfl | rfl | rfl
    · exact ⟨Nat.zero_le 3, List.nil_suffix⟩
    · exact ⟨by simp, ⟨[p1Ndx virt, p2Ndx virt, p3Ndx virt], rfl⟩⟩
    · exact ⟨by simp, ⟨[p1Ndx virt, p2Ndx virt], rfl⟩⟩
    · exact ⟨by simp, ⟨[p1Ndx virt], rfl⟩⟩
  · rintro ⟨short, part⟩
    simp only [wayTo, List.mem_cons, List.not_mem_nil, or_false]
    exact suffix_cases short part

/-- How many tables are missing on the way to a page. -/
def Vmm.missing (s : Vmm) (mm virt : Nat) : Nat := s.vacant mm (wayTo virt)

/-- At most four tables are missing on the way to an address. -/
theorem missing_le (s : Vmm) (mm virt : Nat) : s.missing mm virt ≤ 4 := List.countP_le_length

/-- Setting the entry of a page changes no table. -/
theorem Tree.setLeaf (tree : Tree rs s mm tables) (here : s.slot mm p ≠ 0) (three : p.length = 3)
    (fits : e < 2 ^ 64) : EditOf s (s.setEntry mm p i e) mm (i :: p) e ∧
      Tree rs (s.setEntry mm p i e) mm tables := by
  have edit : EditOf s (s.setEntry mm p i e) mm (i :: p) e :=
    .of_setEntry tree.layout here (Nat.le_of_eq three) fits (fun lt => absurd lt (by omega))
      fun lt => absurd lt (by omega)
  refine ⟨edit, frames_setEntry tree.layout tree.frames here (Nat.le_of_eq three), tree.root,
    tree.exclusive.congr fun q => ?_, tree.nodup, tree.handed⟩
  by_cases same : q = i :: p
  · have long : ¬ q.length ≤ 3 := by
      rw [same, List.length_cons]
      omega
    simp [Vmm.tableOf, long]
  · exact edit.tableOf_eq same

/-- What `vmm_map_page` did to the tables of a space. -/
structure PageMapped (rs : RegionTable) (s s' : Vmm) (mm virt e : Nat) (tables new : List Nat) :
    Prop where
  tree : Tree rs s' mm (new ++ tables)
  taken : s'.frames.taken = new ++ s.frames.taken
  unused : ∀ f ∈ new, f ∉ s.frames.taken
  count : new.length = s.missing mm virt
  page : s'.slot mm (pathOf virt) = e
  way : ∀ p, p.length ≤ 3 → p <:+ pathOf virt → s'.slot mm p ≠ 0
  kept : ∀ p, p.length ≤ 4 → p ≠ pathOf virt → s.slot mm p ≠ 0 ∨ ¬ p <:+ pathOf virt →
    s'.slot mm p = s.slot mm p

/-- With frames for the tables that are missing, `vmm_map_page` returns, the leaf holding the page
and its flags. -/
theorem vmmMapPage_spec (tree : Tree rs s mm tables) (small : flags < pageSize)
    (fits : phys ||| flags < 2 ^ 64) (enough : s.missing mm virt ≤ (meter rs).left s) :
    ∃ s' new, vmmMapPage rs mm virt phys flags s = .ok ((), s') ∧
      PageMapped rs s s' mm virt (phys ||| flags) tables new := by
  have part : ∀ qs more, wayTo virt = qs ++ more → s.vacant mm qs ≤ (meter rs).left s := by
    intro qs more whole
    refine Nat.le_trans ?_ enough
    unfold Vmm.missing Vmm.vacant
    rw [whole, List.countP_append]
    exact Nat.le_add_right _ _
  -- the root, then a table of every level
  obtain ⟨s₁, _, ran₁, added₁⟩ := growRoot_added tree (part [[]] _ rfl)
  obtain ⟨s₂, _, ran₂, added₂⟩ := added₁.grow (i := p4Ndx virt) (p := []) (by simp) (by simp)
    (by simp) (by simp) small (part _ _ rfl)
  obtain ⟨s₃, _, ran₃, added₃⟩ := added₂.grow (i := p3Ndx virt) (p := [p4Ndx virt]) (by simp)
    (by simp) (by simp) (by simp) small (part _ _ rfl)
  obtain ⟨s₄, _, ran₄, added⟩ := added₃.grow (i := p2Ndx virt) (p := [p3Ndx virt, p4Ndx virt])
    (by simp) (by simp) (by simp) (by simp) small (part _ [] rfl)
  have way : ∀ p, p ∈ wayTo virt → s₄.slot mm p ≠ 0 := added.here
  have last : s₄.slot mm [p2Ndx virt, p3Ndx virt, p4Ndx virt] ≠ 0 :=
    way _ (mem_wayTo.mpr ⟨by simp, List.suffix_cons (p1Ndx virt) _⟩)
  -- the entry of the page
  obtain ⟨edit, done⟩ := added.tree.setLeaf (i := p1Ndx virt) last rfl fits
  have same : ∀ p, p.length ≤ 4 → p ≠ pathOf virt → _ = s₄.slot mm p := fun p => edit.apart
  refine ⟨_, _, ?_, done, added.taken, added.unused, added.count, edit.value, fun p short part => ?_,
    fun p bound ne stays => ?_⟩
  · unfold vmmMapPage
    refine Budget.bind_eq_ok.mpr ⟨(), s₁, ran₁, Budget.bind_eq_ok.mpr ⟨(), s₂, ran₂, ?_⟩⟩
    exact Budget.bind_eq_ok.mpr ⟨(), s₃, ran₃, Budget.bind_eq_ok.mpr ⟨(), s₄, ran₄, rfl⟩⟩
  · have ne : p ≠ pathOf virt := by
      rintro rfl
      rw [pathOf_length] at short
      omega
    rw [same p (by omega) ne]
    exact way p (mem_wayTo.mpr ⟨short, part⟩)
  · rw [same p bound ne]
    exact added.kept p bound (stays.imp id fun out mem => out (mem_wayTo.mp mem).2)

/-- The walk gives the leaf entry, unless it is zero. -/
theorem walk_eq_some : s.walk mm virt = some e ↔ s.slot mm (pathOf virt) = e ∧ e ≠ 0 := by
  unfold Vmm.walk
  split
  · rename_i zero
    rw [zero]
    constructor
    · intro absurd
      cases absurd
    · rintro ⟨rfl, nonzero⟩
      exact absurd rfl nonzero
  · rename_i here
    rw [Option.some.injEq]
    exact ⟨fun same => ⟨same, same ▸ here⟩, fun both => both.1⟩

/-- The walk fails where the leaf entry is zero. -/
theorem walk_eq_none : s.walk mm virt = none ↔ s.slot mm (pathOf virt) = 0 := by
  unfold Vmm.walk
  split
  · rename_i zero
    exact ⟨fun _ => zero, fun _ => rfl⟩
  · rename_i here
    exact ⟨fun absurd => (by cases absurd), fun zero => absurd zero here⟩

/-- The walkers of the source read the entry of a page that is mapped. -/
theorem Tree.leafEntry_eq (tree : Tree rs s mm tables) (walked : s.walk mm virt = some e) :
    s.leafEntry mm virt = e := by
  obtain ⟨here, nonzero⟩ := walk_eq_some.mp walked
  have there : s.slot mm (pathOf virt) ≠ 0 := by rwa [here]
  exact (tree.getEntry_eq (Radix.slot_above there)).trans here

/-- Mapping a page is an update of the translation: the page has the frame and the flags given, every
other page what it had, and the tables are a tree again, with a frame that was free for each table
that was missing. -/
theorem vmmMapPage_updates (tree : Tree rs s mm tables) (aligned : phys % pageSize = 0)
    (wide : phys < 2 ^ 64) (small : flags < pageSize) (present : flags &&& pagePresent ≠ 0)
    (enough : s.missing mm virt ≤ (freeFrames rs s.frames).card) :
    ∃ s', vmmMapPage rs mm virt phys flags s = .ok ((), s') ∧
      (s'.vmmGetPhys mm virt = phys ∧ s'.leafEntry mm virt % pageSize = flags ∧
        s'.walk mm virt = some (phys ||| flags)) ∧
      (∀ w, w / 2 ^ 12 % 2 ^ 36 ≠ virt / 2 ^ 12 % 2 ^ 36 → s'.walk mm w = s.walk mm w ∧
        (s.walk mm w ≠ none → s'.vmmGetPhys mm w = s.vmmGetPhys mm w)) ∧
      ∃ new, new.length ≤ 4 ∧ (∀ f ∈ new, IsFrame rs f ∧ f ∉ s.frames.taken) ∧
        s'.frames.taken = new ++ s.frames.taken ∧ Tree rs s' mm (new ++ tables) := by
  have fits : phys ||| flags < 2 ^ 64 := by
    rw [or_eq_add aligned small]
    simp only [pageSize] at aligned small
    omega
  have nonzero : phys ||| flags ≠ 0 := by
    intro zero
    rw [(Nat.or_eq_zero_iff.mp zero).2, Nat.zero_and] at present
    exact present rfl
  obtain ⟨s', new, ran, done⟩ := vmmMapPage_spec tree small fits enough
  have here : s'.walk mm virt = some (phys ||| flags) := walk_eq_some.mpr ⟨done.page, nonzero⟩
  have leaf := done.tree.leafEntry_eq here
  have others : ∀ w, w / 2 ^ 12 % 2 ^ 36 ≠ virt / 2 ^ 12 % 2 ^ 36 →
      s'.walk mm w = s.walk mm w := by
    intro w ne
    have other : pathOf w ≠ pathOf virt := fun same => ne (pathOf_eq_iff.mp same)
    have apart : ¬ pathOf w <:+ pathOf virt := fun part =>
      other (part.eq_of_length ((pathOf_length w).trans (pathOf_length virt).symm))
    unfold Vmm.walk
    rw [done.kept (pathOf w) (Nat.le_of_eq (pathOf_length w)) other (.inr apart)]
  refine ⟨s', ran, ⟨?_, ?_, here⟩, fun w ne => ⟨others w ne, fun mapped => ?_⟩, new, ?_, ?_,
    done.taken, done.tree⟩
  · unfold Vmm.vmmGetPhys
    rw [leaf, pageOf_or aligned small]
  · rw [leaf, or_mod aligned small]
  · obtain ⟨e, walked⟩ := Option.ne_none_iff_exists'.mp mapped
    unfold Vmm.vmmGetPhys
    rw [tree.leafEntry_eq walked, done.tree.leafEntry_eq ((others w ne).trans walked)]
  · rw [done.count]
    exact missing_le s mm virt
  · intro f mem
    refine ⟨done.tree.frames.frames f ?_, done.unused f mem⟩
    rw [done.taken]
    exact List.mem_append_left _ mem

open Classical in
/-- Where every frame that is handed out has one holder, the tables of each space form a tree. -/
theorem Tables.tree {own : Nat → Path → Prop} {spare : Option Nat} {hole : Role}
    (tables : Tables rs s own spare hole) (mm : Nat) :
    Tree rs s mm (s.frames.taken.filter fun f => ∃ p, s.tableOf mm p = some f) := by
  have holds : ∀ p f, s.tableOf mm p = some f → held s own spare (some (mm, p)) = some f := by
    intro p f table
    obtain ⟨short, here, page⟩ := tableOf_eq_some.mp table
    exact held_eq_some.mpr ⟨.inl short, here, page⟩
  have handed : ∀ p f, s.tableOf mm p = some f → f ∈ s.frames.taken := fun p f table =>
    tables.exclusive.handed _ f (holds p f table)
  refine ⟨tables.frames, tables.root mm, ⟨fun p f table => ?_, fun f mem => ?_, fun p q f one two => ?_⟩,
    tables.frames.nodup.filter _, List.filter_subset_self _⟩
  · exact List.mem_filter.mpr ⟨handed p f table, decide_eq_true ⟨p, table⟩⟩
  · exact of_decide_eq_true (List.mem_filter.mp mem).2
  · have same := tables.exclusive.unique _ _ f (holds p f one) (holds q f two)
    cases same
    rfl

/-- Before anything is mapped there is no tree. -/
theorem boot_tree (rs : RegionTable) (m : Bytes) (mm : Nat) : Tree rs (Vmm.boot rs m) mm [] := by
  have none : ∀ p, (Vmm.boot rs m).tableOf mm p = none := by
    intro p
    apply tableOf_eq_none
    by_contra here
    exact Radix.slot_suffix List.nil_suffix here rfl
  refine ⟨FramesInv.reach .start, rfl, ⟨fun p f holds => ?_, fun f absurd => (by cases absurd),
    fun p q f holds => ?_⟩, List.nodup_nil, List.nil_subset _⟩
  · rw [none p] at holds
    cases holds
  · rw [none p] at holds
    cases holds

/-- In a wide region there is room for the tables of a page. -/
theorem boot_room (m : Bytes) (mm virt : Nat) : (Vmm.boot wideTable m).missing mm virt ≤
    (freeFrames wideTable (Vmm.boot wideTable m).frames).card := by
  have room := wide_left m
  simp only [meter] at room
  exact Nat.le_trans (missing_le _ mm virt) (by omega)

/-- A first page is mapped, and the tables on the way to the second are there. -/
theorem exists_first_page : ∃ s new,
    vmmMapPage wideTable 0 0x400000 0xb8000 3 (Vmm.boot wideTable fun _ => 0) = .ok ((), s) ∧
      PageMapped wideTable (Vmm.boot wideTable fun _ => 0) s 0 0x400000 (0xb8000 ||| 3) [] new ∧
      s.missing 0 0x401000 = 0 := by
  have small : 3 < pageSize := by decide
  have fits : 0xb8000 ||| 3 < 2 ^ 64 := by decide
  have enough : (Vmm.boot wideTable fun _ => 0).missing 0 0x400000 ≤
      (meter wideTable).left (Vmm.boot wideTable fun _ => 0) := by
    simp only [meter]
    exact boot_room (fun _ => 0) 0 0x400000
  obtain ⟨s, new, ran, done⟩ := vmmMapPage_spec (boot_tree wideTable (fun _ => 0) 0) small fits enough
  refine ⟨s, new, ran, done, ?_⟩
  have way : wayTo 0x401000 = wayTo 0x400000 := by decide
  rw [Vmm.missing, way, Vmm.vacant, List.countP_eq_zero]
  intro q mem
  obtain ⟨short, part⟩ := mem_wayTo.mp mem
  simpa using done.way q short part

/-- A second page is mapped with the tables of the first, and the first stays mapped. -/
theorem vmmMapPage_updates_second : ∃ s₁ s₂ tables,
    vmmMapPage wideTable 0 0x400000 0xb8000 3 (Vmm.boot wideTable fun _ => 0) = .ok ((), s₁) ∧
      vmmMapPage wideTable 0 0x401000 0xb9000 3 s₁ = .ok ((), s₂) ∧
      s₂.walk 0 0x400000 = some (0xb8000 ||| 3) ∧ s₂.walk 0 0x401000 = some (0xb9000 ||| 3) ∧
      Tree wideTable s₂ 0 tables := by
  obtain ⟨s₁, new, ran₁, done, none⟩ := exists_first_page
  have aligned : 0xb9000 % pageSize = 0 := by decide
  have wide : 0xb9000 < 2 ^ 64 := by decide
  have small : 3 < pageSize := by decide
  have present : 3 &&& pagePresent ≠ 0 := by decide
  have enough : s₁.missing 0 0x401000 ≤ (freeFrames wideTable s₁.frames).card := by
    rw [none]
    exact Nat.zero_le _
  obtain ⟨s₂, ran₂, ⟨_, _, here⟩, others, more, _, _, _, tree⟩ :=
    vmmMapPage_updates done.tree aligned wide small present enough
  refine ⟨s₁, s₂, _, ran₁, ran₂, ?_, here, tree⟩
  rw [(others 0x400000 (by decide)).1]
  exact walk_eq_some.mpr ⟨done.page, by decide⟩

end Blackcomb.Mm
