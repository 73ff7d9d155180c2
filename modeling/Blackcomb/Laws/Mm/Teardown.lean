import Blackcomb.Laws.Mm.MmNew

/-!
# Freeing a space

`mm_free` walks the areas of a space: the frames of a regular area go back to the allocator, the
pages of the kernel's are only unmapped. The invariant of the walk says that the pages of the areas
still to come are as they were, that the space has no others, and that the other spaces are
untouched. At the end no page is left, so no table is, and the last `pmm_free` is one of address
`0`, which no region has.

**What it does not establish.** The areas that are freed are those of the list. A space whose list
and tables disagree is not one of the invariant's.
-/

namespace Blackcomb.Mm

open Memory Run Budget Ownership Chain

variable {rs : RegionTable} {s s' t t' u : Vmm} {own : Nat → Path → Prop} {mm k n a r : Nat}
  {v : Path} {lis regs left : List Nat} {lists areas : Nat → List Nat}

/-! ## All areas of a space -/

/-- The kernel's areas are those of the boot. -/
theorem KernelSpace.inArea_iff (kernel : KernelSpace s) (ha : a < 3) :
    InArea (s.vmas a) v ↔ InArea (kernelShape a) v := by
  apply inArea_congr
  rw [kernel.shape a ha, kernelShape_shape]

/-- The kernel's three areas come last in every list. -/
theorem mem_kernelAreas : a ∈ [2, 1, 0] ↔ a < 3 := by
  simp only [List.mem_cons, List.not_mem_nil, or_false]
  omega

section All

variable (kernel : KernelSpace s) (space : Space s mm lis regs)

include kernel space

/-- The areas of a space share no page, the kernel's included. -/
theorem Space.all_apart {b : Nat} (memA : a ∈ regs ++ [2, 1, 0]) (memB : b ∈ regs ++ [2, 1, 0])
    (inA : InArea (s.vmas a) v) (inB : InArea (s.vmas b) v) : a = b := by
  rw [List.mem_append, mem_kernelAreas] at memA memB
  rcases memA with memA | ha
  · rcases memB with memB | hb
    · exact space.apart a memA b memB v inA inB
    · exact absurd ((kernel.inArea_iff hb).mp inB) ((space.regular a memA).off b hb v inA)
  · rcases memB with memB | hb
    · exact absurd ((kernel.inArea_iff ha).mp inA) ((space.regular b memB).off a ha v inB)
    · exact kernelShape_apart ha hb ((kernel.inArea_iff ha).mp inA) ((kernel.inArea_iff hb).mp inB)

/-- The pages of its areas are mapped. -/
theorem Space.all_mapped (mem : a ∈ regs ++ [2, 1, 0]) (inside : InArea (s.vmas a) v) :
    s.slot mm v ≠ 0 := by
  rw [List.mem_append, mem_kernelAreas] at mem
  rcases mem with mem | ha
  · exact (space.mapped a mem v inside).1
  · rw [kernel.inArea_iff ha] at inside
    rw [space.kernel a ha v inside]
    exact (kernel.mapped a ha v inside).1

/-- No other page is. -/
theorem Space.all_unmapped (long : v.length = 4)
    (out : ∀ a ∈ regs ++ [2, 1, 0], ¬ InArea (s.vmas a) v) : s.slot mm v = 0 := by
  refine space.unmapped v long (fun r mem => out r (List.mem_append_left _ mem)) fun a ha => ?_
  rw [← kernel.inArea_iff ha]
  exact out a (List.mem_append_right _ (mem_kernelAreas.mpr ha))

/-- Every area of a space is a range that does not wrap. -/
theorem Space.all_range (mem : a ∈ regs ++ [2, 1, 0]) :
    Range (s.vmas a).start (s.vmas a).pages := by
  rw [List.mem_append, mem_kernelAreas] at mem
  rcases mem with mem | ha
  · exact (space.regular a mem).range
  · obtain ⟨_, start, pages, _⟩ := VmArea.shape_inj ((kernel.shape a ha).trans
      (kernelShape_shape a).symm)
    rw [start, pages]
    exact kernelShape_range a

/-- The pages of every area are canonical. -/
theorem Space.all_canonical (mem : a ∈ regs ++ [2, 1, 0]) (lt : k < (s.vmas a).pages) :
    Canonical ((s.vmas a).start + k * pageSize) := by
  rw [List.mem_append, mem_kernelAreas] at mem
  rcases mem with mem | ha
  · exact (space.regular a mem).canonical k lt
  · obtain ⟨_, start, pages, _⟩ := VmArea.shape_inj ((kernel.shape a ha).trans
      (kernelShape_shape a).symm)
    rw [pages] at lt
    rw [start]
    exact kernelShape_canonical a lt

end All

/-! ## Counts -/

/-- What `if (--vma->refcnt == 0) free(vma)` did. -/
def Dropped (s s' : Vmm) (r : Nat) : Prop :=
  s' = { s.modifyVma r fun v => { v with refcnt := v.refcnt - 1 } with
    freedVmas := if (s.vmas r).refcnt = 1 then r :: s.freedVmas else s.freedVmas }

theorem Dropped.frames (dropped : Dropped s s' r) : s'.frames = s.frames := by
  rw [dropped]
  rfl

theorem Dropped.mms (dropped : Dropped s s' r) : s'.mms = s.mms := by
  rw [dropped]
  rfl

/-- Dropping an area counts its record down and no other. -/
theorem Dropped.vmas (dropped : Dropped s s' r) : s'.vmas =
    Function.update s.vmas r { s.vmas r with refcnt := (s.vmas r).refcnt - 1 } := by
  rw [dropped]
  rfl

theorem Dropped.rest (dropped : Dropped s s' r) : s'.lis = s.lis ∧ s'.nlis = s.nlis ∧
    s'.nvmas = s.nvmas ∧ s'.nmms = s.nmms ∧ s'.freedMms = s.freedMms ∧ s'.pmmFrees = s.pmmFrees ∧
    s'.freedLis = s.freedLis := by
  rw [dropped]
  exact ⟨rfl, rfl, rfl, rfl, rfl, rfl, rfl⟩

/-- Dropping an area changes no entry. -/
theorem Dropped.slot (dropped : Dropped s s' r) (k : Nat) (p : Path) : s'.slot k p = s.slot k p :=
  slot_records dropped.frames (fun k => by rw [dropped.mms]) k p

theorem sticky_dropVma {M : Meter Vmm} (frames : OfFrames rs M) : Sticky M (dropVma r) :=
  .bind (.modify fun _ => frames.rest rfl rfl) fun _ => .bind .get fun _ =>
    .ite (.ite (.throw _) (.modify fun _ => frames.rest rfl rfl)) (.pure _)

/-- A static area is not freed while another space counts. -/
theorem dropVma_runs (met : ¬ s.ranOut = true) (dynamic : (s.vmas r).refcnt = 1 → 3 ≤ r) :
    Runs (meter rs) (dropVma r) 0 s fun _ s' => Dropped s s' r := by
  unfold dropVma
  refine .of_modify (Nat.le_refl _) (.of_get ?_)
  have count : ((s.modifyVma r fun v => { v with refcnt := v.refcnt - 1 }).vmas r).refcnt =
      (s.vmas r).refcnt - 1 := by
    simp [Vmm.modifyVma]
  rw [count]
  split
  · rename_i zero
    have one : (s.vmas r).refcnt = 1 := by omega
    have three : ¬ r < 3 := Nat.not_lt.mpr (dynamic one)
    unfold freeVma
    rw [if_neg three]
    refine .done rfl met (Nat.le_refl _) ?_
    rw [Dropped, if_pos one]
    rfl
  · rename_i more
    refine .pure met ?_
    rw [Dropped, if_neg (by omega)]
    rfl

/-! ## The walk -/

/-- The pages owned while the areas `left` of the space `mm` are still there. -/
def remaining (s : Vmm) (regs : Nat → List Nat) (mm : Nat) (left : List Nat) (k : Nat) (v : Path) :
    Prop :=
  k ≠ mm ∧ owns s regs k v ∨ k = mm ∧ ∃ r ∈ left, 3 ≤ r ∧ InArea (s.vmas r) v

/-- `mm_free` under way: the areas `left` of the space `mm` are still there. -/
structure Freeing (rs : RegionTable) (s t : Vmm) (regs : Nat → List Nat) (mm : Nat)
    (left : List Nat) : Prop where
  tables : Tables rs t (remaining s regs mm left) none none
  slots : ∀ k p, p.length ≤ 4 → k ≠ mm → t.slot k p = s.slot k p
  still : ∀ r ∈ left, ∀ v, InArea (s.vmas r) v → t.slot mm v = s.slot mm v
  gone : ∀ v, v.length = 4 → (∀ r ∈ left, ¬ InArea (s.vmas r) v) → t.slot mm v = 0
  pages : ∀ g, PageFrame s (remaining s regs mm []) none g →
    SameFrame s.frames.mem t.frames.mem g
  heads : ∀ k, (t.mms k).vmAreas = (s.mms k).vmAreas
  lis : t.lis = s.lis
  named : t.nlis = s.nlis ∧ t.nvmas = s.nvmas ∧ t.nmms = s.nmms
  freed : t.freedMms = s.freedMms
  shapes : ∀ r, (t.vmas r).shape = (s.vmas r).shape
  areas : ∀ r, 3 ≤ r → r ∉ regs mm ∨ r ∈ left → t.vmas r = s.vmas r
  refcnt : ∀ a < 3, (t.vmas a).refcnt = (s.vmas a).refcnt - if a ∈ left then 0 else 1
  frees : ∃ calls, t.pmmFrees = calls ++ s.pmmFrees ∧ ∀ c ∈ calls, c.2 = true
  freedVmas : ∀ r, r ∈ t.freedVmas ↔ r ∈ s.freedVmas ∨ r ∈ regs mm ∧ r ∉ left

/-- The pages of the other spaces are still pages. -/
theorem Freeing.page {g : Nat} {rest : List Nat} (freeing : Freeing rs s t areas mm left)
    (page : PageFrame s (remaining s areas mm []) none g) :
    PageFrame t (remaining s areas mm rest) none g := by
  rcases page with free | ⟨k, v, long, owned, there, frame⟩
  · cases free
  · rcases owned with ⟨ne, owned⟩ | ⟨_, r, absurd, _⟩
    · refine .inr ⟨k, v, long, .inl ⟨ne, owned⟩, ?_⟩
      rw [freeing.slots k v long.le ne]
      exact ⟨there, frame⟩
    · cases absurd

/-- The areas freed, when the next one is freed if it is the space's own. -/
theorem mem_freed_iff {own freed freed₀ : List Nat} (out : r ∉ left)
    (before : ∀ q, q ∈ freed ↔ q ∈ freed₀ ∨ q ∈ own ∧ q ∉ r :: left) (q : Nat) :
    (q ∈ if r ∈ own then r :: freed else freed) ↔ q ∈ freed₀ ∨ q ∈ own ∧ q ∉ left := by
  split
  · rename_i here
    by_cases same : q = r
    · subst same
      exact ⟨fun _ => .inr ⟨here, out⟩, fun _ => List.mem_cons_self⟩
    · rw [List.mem_cons, before, List.mem_cons]
      simp [same]
  · rename_i away
    have ne : q ∈ own → q ≠ r := fun here same => away (same ▸ here)
    rw [before, List.mem_cons, not_or]
    constructor
    · exact Or.imp_right fun both => ⟨both.1, both.2.2⟩
    · exact Or.imp_right fun both => ⟨both.1, ne both.1, both.2⟩

/-- An area is unmapped and no longer counted. -/
theorem Freeing.drop (freeing : Freeing rs s t areas mm (r :: left)) (out : r ∉ left)
    (mem : 3 ≤ r → r ∈ areas mm) (last : (t.vmas r).refcnt = 1 ↔ r ∈ areas mm)
    (apart : ∀ q ∈ left, ∀ v, InArea (s.vmas q) v → ¬ InArea (s.vmas r) v)
    (unmapped : Repaged t t' (remaining s areas mm left) mm (s.vmas r).start (s.vmas r).pages
      fun _ => 0)
    (tables : Tables rs t' (remaining s areas mm left) none none) (dropped : Dropped t' u r) :
    Freeing rs s u areas mm left := by
  obtain ⟨nmms, vmas, nvmas, lis, nlis, freed, freedV, _⟩ := unmapped.records.fields
  obtain ⟨lis', nlis', nvmas', nmms', freed', frees', _⟩ := dropped.rest
  have other : ∀ v, v.length = 4 → ¬ InArea (s.vmas r) v → t'.slot mm v = t.slot mm v :=
    fun v long outside => unmapped.others mm v long fun same => outside same.2
  have kept : ∀ q, q ≠ r → u.vmas q = t.vmas q := by
    intro q ne
    rw [dropped.vmas, Function.update_of_ne ne, vmas]
  have here : u.vmas r = { t.vmas r with refcnt := (t.vmas r).refcnt - 1 } := by
    rw [dropped.vmas, Function.update_self, vmas]
  refine ⟨tables.records dropped.frames fun k => by rw [dropped.mms], fun k v long ne => ?_,
    fun q memQ v inside => ?_, fun v long outside => ?_, fun g page x low high => ?_, fun k => ?_, ?_,
    ?_, ?_, fun q => ?_, fun q three still => ?_, fun a ha => ?_, ?_, fun q => ?_⟩
  · rw [dropped.slot, unmapped.trees k v ne long]
    exact freeing.slots k v long ne
  · rw [dropped.slot, other v inside.length (apart q memQ v inside)]
    exact freeing.still q (List.mem_cons_of_mem r memQ) v inside
  · rw [dropped.slot]
    by_cases inside : InArea (s.vmas r) v
    · obtain ⟨i, lt, rfl⟩ := inside
      exact unmapped.here i lt
    · rw [other v long inside]
      refine freeing.gone v long fun q memQ => ?_
      rcases List.mem_cons.mp memQ with rfl | memQ
      · exact inside
      · exact outside q memQ
  · rw [dropped.frames, unmapped.pages g (freeing.page page) x low high]
    exact freeing.pages g page x low high
  · rw [dropped.mms, unmapped.records.areas k]
    exact freeing.heads k
  · exact (lis'.trans lis).trans freeing.lis
  · have := freeing.named
    omega
  · exact (freed'.trans freed).trans freeing.freed
  · by_cases same : q = r
    · subst same
      rw [here]
      exact freeing.shapes q
    · rw [kept q same]
      exact freeing.shapes q
  · have ne : q ≠ r := by
      rintro rfl
      exact still.elim (fun absent => absent (mem three)) out
    rw [kept q ne]
    exact freeing.areas q three (still.imp_right (List.mem_cons_of_mem r))
  · have before := freeing.refcnt a ha
    by_cases same : a = r
    · subst same
      rw [if_pos List.mem_cons_self] at before
      rw [here, if_neg out, before]
      simp
    · rw [kept a same, before]
      simp [same]
  · obtain ⟨first, done, all⟩ := freeing.frees
    obtain ⟨second, done', all'⟩ := unmapped.records.frees
    refine ⟨second ++ first, ?_, fun c memC => ?_⟩
    · rw [frees', done', done, List.append_assoc]
    · exact (List.mem_append.mp memC).elim (all' c) (all c)
  · have list : u.freedVmas = if r ∈ areas mm then r :: t.freedVmas else t.freedVmas := by
      rw [dropped]
      simp only [vmas, last, freedV]
    rw [list]
    exact mem_freed_iff out freeing.freedVmas q

/-- An area of the kernel was never owned, so that giving it up changes nothing owned. -/
theorem remaining_static (static : r < 3) :
    remaining s areas mm (r :: left) = remaining s areas mm left := by
  funext k v
  simp only [remaining, List.mem_cons, exists_eq_or_imp, Nat.not_le.mpr static, false_and, false_or]

/-- Giving up an area of a program takes its pages from what is left. -/
theorem remaining_regular (three : 3 ≤ r)
    (apart : ∀ q ∈ left, ∀ v, InArea (s.vmas q) v → ¬ InArea (s.vmas r) v) :
    withoutPages (remaining s areas mm (r :: left)) mm (s.vmas r).start (s.vmas r).pages =
      remaining s areas mm left := by
  funext k v
  apply propext
  constructor
  · rintro ⟨⟨ne, owned⟩ | ⟨rfl, q, memQ, le, inside⟩, outside⟩
    · exact .inl ⟨ne, owned⟩
    · rcases List.mem_cons.mp memQ with rfl | memQ
      · exact absurd ⟨rfl, inside⟩ outside
      · exact .inr ⟨rfl, q, memQ, le, inside⟩
  · rintro (⟨ne, owned⟩ | ⟨rfl, q, memQ, le, inside⟩)
    · exact ⟨.inl ⟨ne, owned⟩, fun same => ne same.1⟩
    · refine ⟨.inr ⟨rfl, q, List.mem_cons_of_mem r memQ, le, inside⟩, fun same => ?_⟩
      exact apart q memQ v inside same.2

theorem sticky_freeArea {M : Meter Vmm} [frames : OfFrames rs M] : Sticky M (freeArea rs mm r) := by
  apply Sticky.bind .get
  intro t
  have unshare : Sticky M (mmUnshareVma rs mm r) := .bind .get fun _ =>
    .bind (.forTo fun _ => .bind sticky_intOffset fun _ => sticky_vmmUnmapPage) fun _ =>
    sticky_dropVma frames
  split
  · exact .bind .get fun _ => .bind sticky_panicIf fun _ => .bind (.forTo fun _ =>
      .bind sticky_intOffset fun _ => .bind .get fun _ => .bind sticky_vmmUnmapPage fun _ =>
      frames.free _) fun _ => sticky_dropVma frames
  · exact unshare
  · exact unshare
  · exact unshare

section Area

variable (spaces : Spaces rs s lists areas) (live : s.Live mm) (mem : r ∈ areas mm ++ [2, 1, 0])

include spaces live mem

/-- The areas still to come share no page with the next one. -/
theorem Spaces.next_apart (sub : ∀ q ∈ left, q ∈ areas mm ++ [2, 1, 0]) (out : r ∉ left) (q : Nat)
    (memQ : q ∈ left) (v : Path) (inQ : InArea (s.vmas q) v) : ¬ InArea (s.vmas r) v := by
  intro inR
  have same := (spaces.space mm live).all_apart spaces.kernel (sub q memQ) mem inQ inR
  exact out (same ▸ memQ)

/-- The pages of the next area are there. -/
theorem Freeing.there (freeing : Freeing rs s t areas mm (r :: left)) (k : Nat)
    (lt : k < (s.vmas r).pages) : t.slot mm (pageAt (s.vmas r).start k) ≠ 0 := by
  have inside : InArea (s.vmas r) (pageAt (s.vmas r).start k) := ⟨k, lt, rfl⟩
  rw [freeing.still r List.mem_cons_self _ inside]
  exact (spaces.space mm live).all_mapped spaces.kernel mem inside

variable (freeing : Freeing rs s t areas mm (r :: left)) (met : ¬ t.ranOut = true)
  (sub : ∀ q ∈ left, q ∈ areas mm ++ [2, 1, 0]) (out : r ∉ left)

include freeing met sub out

/-- `mm_free_reg_vma`. -/
theorem mmFreeRegVma_runs (here : r ∈ areas mm) :
    Runs (meter rs) (mmFreeRegVma rs mm r) 0 t fun _ t' =>
      Freeing rs s t' areas mm left ∧ t'.freedLis = t.freedLis := by
  have space := spaces.space mm live
  have three := (space.named r here).1
  have same := freeing.areas r three (.inr List.mem_cons_self)
  have apart := spaces.next_apart live mem sub out
  unfold mmFreeRegVma
  refine .of_get ?_
  dsimp only
  rw [same]
  refine .step (panicIf_eq (not_not.mpr (space.regular r here).type)) (Nat.le_refl _) ?_
  refine .bind (n := (s.vmas r).pages * 0) (k := 0) ((reclaim_loop freeing.tables met
    (space.regular r here).range (freeing.there spaces live mem) fun j lt => ?_).imp ?_) fun _ =>
    sticky_dropVma ofFrames_meter
  · exact .inr ⟨rfl, r, List.mem_cons_self, three, j, lt, rfl⟩
  · intro _ t' reclaimed met'
    have keep : withoutPages (remaining s areas mm (r :: left)) mm (s.vmas r).start
        (s.vmas r).pages = remaining s areas mm left := remaining_regular three apart
    have unmapped := reclaimed.toRepaged
    have tables := reclaimed.tables
    rw [keep] at unmapped tables
    refine (dropVma_runs met' fun _ => three).imp fun _ u dropped => ?_
    have count : (t.vmas r).refcnt = 1 := by
      rw [same]
      exact space.single r here
    refine ⟨freeing.drop out (fun _ => here) (iff_of_true count here) apart unmapped tables dropped,
      ?_⟩
    exact dropped.rest.2.2.2.2.2.2.trans unmapped.records.fields.2.2.2.2.2.2.2

/-- `mm_unshare_vma` of one of the kernel's areas, which another space still counts. -/
theorem mmUnshareVma_runs (static : r < 3) (shared : (s.vmas r).refcnt ≠ 1) :
    Runs (meter rs) (mmUnshareVma rs mm r) 0 t fun _ t' =>
      Freeing rs s t' areas mm left ∧ t'.freedLis = t.freedLis := by
  have space := spaces.space mm live
  have apart := spaces.next_apart live mem sub out
  have keep : remaining s areas mm (r :: left) = remaining s areas mm left := remaining_static static
  have tables := freeing.tables
  rw [keep] at tables
  obtain ⟨_, start, pages, _⟩ := VmArea.shape_inj (freeing.shapes r)
  have count : (t.vmas r).refcnt = (s.vmas r).refcnt := by
    have := freeing.refcnt r static
    rwa [if_pos List.mem_cons_self, Int.sub_zero] at this
  have unowned : ∀ j < (s.vmas r).pages,
      ¬ remaining s areas mm left mm (pageAt (s.vmas r).start j) := by
    rintro j lt (⟨ne, _⟩ | ⟨_, q, memQ, _, inside⟩)
    · exact ne rfl
    · exact apart q memQ _ inside ⟨j, lt, rfl⟩
  unfold mmUnshareVma
  refine .of_get ?_
  dsimp only
  rw [start, pages]
  refine .bind (n := (s.vmas r).pages * 0) (k := 0) ((unshare_loop tables met
    (space.all_range spaces.kernel mem) (freeing.there spaces live mem) unowned).imp ?_) fun _ =>
    sticky_dropVma ofFrames_meter
  intro _ t' unshared met'
  obtain ⟨_, vmas, _⟩ := unshared.records.fields
  refine (dropVma_runs met' fun one => ?_).imp fun _ u dropped => ?_
  · rw [vmas, count] at one
    exact absurd one shared
  · have other : r ∉ areas mm := fun here => absurd static (Nat.not_lt.mpr (space.named r here).1)
    refine ⟨freeing.drop out (fun three => absurd static (Nat.not_lt.mpr three))
      (iff_of_false ?_ other) apart unshared.toRepaged unshared.tables dropped, ?_⟩
    · rw [count]
      exact shared
    · exact dropped.rest.2.2.2.2.2.2.trans unshared.records.fields.2.2.2.2.2.2.2

/-- The body of `mm_free`'s loop. -/
theorem freeArea_runs (shared : ∀ a < 3, (s.vmas a).refcnt ≠ 1) :
    Runs (meter rs) (freeArea rs mm r) 0 t fun _ t' =>
      Freeing rs s t' areas mm left ∧ t'.freedLis = t.freedLis := by
  have type := (VmArea.shape_inj (freeing.shapes r)).1
  unfold freeArea
  refine .of_get ?_
  rw [type]
  rcases List.mem_append.mp mem with here | static
  · rw [((spaces.space mm live).regular r here).type]
    exact mmFreeRegVma_runs spaces live mem freeing met sub out here
  · rw [mem_kernelAreas] at static
    have unshare := mmUnshareVma_runs spaces live mem freeing met sub out static (shared r static)
    have kind := (VmArea.shape_inj ((spaces.kernel.shape r static).trans
      (kernelShape_shape r).symm)).1
    rw [kind]
    obtain rfl | rfl | rfl : r = 0 ∨ r = 1 ∨ r = 2 := by omega
    · exact unshare
    · exact unshare
    · exact unshare

end Area

/-! ## mm_free -/

/-- The end of `mm_free`, where the p4 table is gone already: `pmm_free` of address `0`, and `free`
of the `struct mm`. -/
def Vmm.reclaimed (t : Vmm) (rs : RegionTable) (mm : Nat) : Vmm := { t with
  frames := ⟨rs.regions.foldl (freeIn 0) t.frames.mem, t.frames.taken⟩
  pmmFrees := (0, false) :: t.pmmFrees
  freedMms := mm :: t.freedMms }

/-- `pmm_free` of address `0`, which was never handed out. -/
theorem freeFrame_zero (inv : FramesInv rs s.frames) :
    freeFrame rs 0 s = .ok ((), { s with
      frames := ⟨rs.regions.foldl (freeIn 0) s.frames.mem, s.frames.taken⟩
      pmmFrees := (0, false) :: s.pmmFrees }) := by
  have absent : 0 ∉ s.frames.taken := fun mem => Nat.lt_irrefl 0 (inv.frames 0 mem).pos
  have passed : pmmFree rs s.frames.mem 0 = .ok (rs.regions.foldl (freeIn 0) s.frames.mem) := by
    unfold pmmFree
    rw [if_neg (by decide)]
  have call : freeFrame rs 0 s = (pmmFree rs s.frames.mem 0 >>= fun m =>
      .ok ((), { s with
        frames := ⟨m, s.frames.taken.erase 0⟩, pmmFrees := (0, false) :: s.pmmFrees })) := by
    simp only [freeFrame, Frames.step, absent, decide_false]
    cases pmmFree rs s.frames.mem 0 <;> rfl
  rw [call, passed, List.erase_of_not_mem absent]
  rfl

/-- The histories are no matter. -/
theorem Spaces.marked (spaces : Spaces rs s lists areas) (calls : List (Nat × Bool)) :
    Spaces rs { s with pmmFrees := calls } lists areas :=
  ⟨spaces.tables.records rfl fun _ => rfl,
    spaces.kernel.congr rfl (fun _ _ => rfl) (fun _ _ => rfl) (fun _ _ => rfl)
      ⟨Nat.le_refl _, Nat.le_refl _, Nat.le_refl _⟩,
    fun k liveK => (spaces.space k liveK).congr rfl (fun _ _ => rfl) (fun _ _ => rfl)
      (Nat.le_refl _) (Nat.le_refl _) (fun _ _ => rfl) fun _ _ => rfl,
    spaces.dead, spaces.lisApart, spaces.regsApart, spaces.refcnt, spaces.freed⟩

/-- So is the list of freed nodes. -/
theorem Freeing.marked {nodes : List Nat} (freeing : Freeing rs s t areas mm left) :
    Freeing rs s { t with freedLis := nodes } areas mm left :=
  ⟨freeing.tables.records rfl fun _ => rfl, freeing.slots, freeing.still, freeing.gone,
    freeing.pages, freeing.heads, freeing.lis, freeing.named, freeing.freed, freeing.shapes,
    freeing.areas, freeing.refcnt, freeing.frees, freeing.freedVmas⟩

section Free

variable (spaces : Spaces rs s lists areas) (live : s.Live mm)

include spaces live

/-- At the start of `mm_free` all areas are left. -/
theorem Spaces.freeing : Freeing rs s s areas mm (areas mm ++ [2, 1, 0]) := by
  have space := spaces.space mm live
  have nonzero : mm ≠ 0 := Nat.ne_of_gt live.1
  have all : remaining s areas mm (areas mm ++ [2, 1, 0]) = owns s areas := by
    funext k v
    apply propext
    constructor
    · rintro (⟨_, owned⟩ | ⟨rfl, r, mem, three, inside⟩)
      · exact owned
      · rw [List.mem_append, mem_kernelAreas] at mem
        exact .inr ⟨live, r, mem.resolve_right (by omega), inside⟩
    · intro owned
      by_cases same : k = mm
      · subst same
        rcases owned with ⟨zero, _⟩ | ⟨_, r, mem, inside⟩
        · exact absurd zero nonzero
        · exact .inr ⟨rfl, r, List.mem_append_left _ mem, (space.named r mem).1, inside⟩
      · exact .inl ⟨same, owned⟩
  refine ⟨?_, fun _ _ _ _ => rfl, fun _ _ _ _ => rfl, fun v long => ?_, fun _ _ _ _ _ => rfl,
    fun _ => rfl, rfl, ⟨rfl, rfl, rfl⟩, rfl, fun _ => rfl, fun _ _ _ => rfl, fun a ha => ?_,
    ⟨[], rfl, fun _ absurd => (by cases absurd)⟩, fun r => ?_⟩
  · rw [all]
    exact spaces.tables
  · exact space.all_unmapped spaces.kernel long
  · rw [if_pos (List.mem_append_right _ (mem_kernelAreas.mpr ha)), Int.sub_zero]
  · rw [List.mem_append, not_or]
    exact ⟨.inl, fun freed => freed.resolve_right fun both => both.2.1 both.1⟩

omit spaces live in
/-- A space less is live. -/
theorem Vmm.live_cons (nmms : t.nmms = s.nmms) (freed : t.freedMms = mm :: s.freedMms) :
    t.Live k ↔ s.Live k ∧ k ≠ mm := by
  simp only [Vmm.Live, nmms, freed, List.mem_cons, not_or]
  constructor
  · rintro ⟨pos, lt, ne, kept⟩
    exact ⟨⟨pos, lt, kept⟩, ne⟩
  · rintro ⟨⟨pos, lt, kept⟩, ne⟩
    exact ⟨pos, lt, ne, kept⟩

omit spaces live in
/-- The spaces right after `free` of the `struct mm`. -/
theorem Freeing.live_iff (freeing : Freeing rs s t areas mm []) :
    ({ t with freedMms := mm :: t.freedMms } : Vmm).Live k ↔ s.Live k ∧ k ≠ mm :=
  Vmm.live_cons freeing.named.2.2 (congrArg (mm :: ·) freeing.freed)

/-- The areas of the other spaces are as they were. -/
theorem Freeing.area (freeing : Freeing rs s t areas mm []) (liveK : s.Live k) (ne : k ≠ mm)
    (mem : r ∈ areas k) : t.vmas r = s.vmas r := by
  refine freeing.areas r ((spaces.space k liveK).named r mem).1 (.inl fun here => ne ?_)
  exact spaces.regsApart k mm r liveK live mem here

/-- At its end the space owns nothing. -/
theorem Freeing.owns_eq (freeing : Freeing rs s t areas mm []) :
    owns { t with freedMms := mm :: t.freedMms } areas = remaining s areas mm [] := by
  have nonzero : mm ≠ 0 := Nat.ne_of_gt live.1
  funext k v
  apply propext
  constructor
  · rintro (⟨rfl, inside⟩ | ⟨liveK, r, mem, inside⟩)
    · exact .inl ⟨nonzero.symm, .inl ⟨rfl, inside⟩⟩
    · obtain ⟨was, ne⟩ := (freeing.live_iff).mp liveK
      refine .inl ⟨ne, .inr ⟨was, r, mem, ?_⟩⟩
      exact freeing.area spaces live was ne mem ▸ inside
  · rintro (⟨ne, ⟨zero, inside⟩ | ⟨was, r, mem, inside⟩⟩ | ⟨_, r, absurd, _⟩)
    · exact .inl ⟨zero, inside⟩
    · refine .inr ⟨(freeing.live_iff).mpr ⟨was, ne⟩, r, mem, ?_⟩
      exact (freeing.area spaces live was ne mem).symm ▸ inside
    · cases absurd

/-- The invariant after the last `free`. -/
theorem Freeing.freed_spaces (freeing : Freeing rs s t areas mm []) :
    Spaces rs { t with freedMms := mm :: t.freedMms } lists areas := by
  have nonzero : mm ≠ 0 := Nat.ne_of_gt live.1
  have alive : ∀ {k}, ({ t with freedMms := mm :: t.freedMms } : Vmm).Live k ↔ s.Live k ∧ k ≠ mm :=
    freeing.live_iff
  obtain ⟨nlis, nvmas, nmms⟩ := freeing.named
  refine ⟨?_, ?_, fun k liveK => ?_, fun k ne dead v long => ?_, fun j k l liveJ liveK => ?_,
    fun j k r liveJ liveK => ?_, fun a ha => ?_, fun k mem => ?_⟩
  · rw [freeing.owns_eq spaces live]
    exact freeing.tables.records rfl fun _ => rfl
  · exact spaces.kernel.congr (freeing.heads 0) (fun l _ => congrFun freeing.lis l)
      (fun a _ => freeing.shapes a) (fun v long => freeing.slots 0 v long.le nonzero.symm)
      ⟨nmms.ge, nvmas.ge, nlis.ge⟩
  · obtain ⟨was, ne⟩ := alive.mp liveK
    have same : ∀ r ∈ areas k, t.vmas r = s.vmas r := fun r mem =>
      freeing.area spaces live was ne mem
    exact (spaces.space k was).congr (freeing.heads k) (fun l _ => congrFun freeing.lis l) same
      nlis.ge nvmas.ge
      (fun v long => freeing.slots k v long.le ne) fun v long =>
        freeing.slots 0 v long.le nonzero.symm
  · by_cases same : k = mm
    · subst same
      exact freeing.gone v long fun r absurd => (by cases absurd)
    · refine (freeing.slots k v long.le same).trans (spaces.dead k ne (fun was => ?_) v long)
      exact dead (alive.mpr ⟨was, same⟩)
  · exact spaces.lisApart j k l (alive.mp liveJ).1 (alive.mp liveK).1
  · exact spaces.regsApart j k r (alive.mp liveJ).1 (alive.mp liveK).1
  · have fewer := Vmm.card_lives_pred live alive
    have count := freeing.refcnt a ha
    rw [if_neg List.not_mem_nil, spaces.refcnt a ha] at count
    dsimp only
    omega
  · dsimp only at mem ⊢
    rw [nmms]
    rcases List.mem_cons.mp mem with rfl | mem
    · exact live.2.1
    · rw [freeing.freed] at mem
      exact spaces.freed k mem

/-- The loop of `mm_free`, while another space counts the kernel's areas. -/
theorem freeAreas_runs (met : ¬ s.ranOut = true) (shared : ∀ a < 3, (s.vmas a).refcnt ≠ 1) :
    Runs (meter rs) (forAreas mm (freeArea rs mm) fun li =>
      modify fun s => { s with freedLis := li :: s.freedLis }) 0 s fun _ t =>
      Freeing rs s t areas mm [] ∧ ∀ l, l ∈ t.freedLis ↔ l ∈ s.freedLis ∨ l ∈ lists mm := by
  have space := spaces.space mm live
  have start := spaces.freeing live
  rw [← space.areas] at start
  have fuel : (lists mm).length ≤ s.nlis :=
    length_le_of_nodup space.listed.nodup fun l mem => (space.listed.bound l mem).2
  have free : ((lists mm).map fun _ => 0).sum = 0 := by simp
  have marks : ∀ li, Sticky (meter rs)
      (modify fun s => { s with freedLis := li :: s.freedLis } : Op Unit) :=
    fun li => .modify fun _ out => out
  unfold forAreas
  refine .of_get ?_
  rw [space.listed.head, ← free]
  refine (walkAreas_runs (fun ls t => (∃ pre, lists mm = pre ++ ls ∧
      ∀ l, l ∈ t.freedLis ↔ l ∈ s.freedLis ∨ l ∈ pre) ∧
      Freeing rs s t areas mm (s.vmasOf ls)) (fun _ => 0) (fun _ => sticky_freeArea)
    marks ?_ fuel met ⟨⟨[], rfl, fun l => by simp⟩, start⟩).imp ?_
  · intro l ls t met' inv
    obtain ⟨⟨pre, split, freed⟩, freeing⟩ := inv
    have next := space.listed.next split
    rw [split] at space
    have names : s.vmasOf (l :: ls) ⊆ areas mm ++ [2, 1, 0] :=
      space.vmasOf_subset (List.subset_append_right _ _)
    rw [freeing.lis]
    refine (freeArea_runs spaces live (names List.mem_cons_self) freeing met'
      (fun q mem => names (List.mem_cons_of_mem _ mem)) space.vma_once.2 shared).imp ?_
    intro _ t' left
    obtain ⟨freeing', freedLis⟩ := left
    rw [freeing'.lis]
    refine ⟨next, fun met'' => .done rfl met'' (Nat.le_refl _)
      ⟨⟨pre ++ [l], ?_, fun q => ?_⟩, freeing'.marked⟩⟩
    · rw [split, List.append_assoc]
      rfl
    · dsimp only
      rw [List.mem_cons, freedLis, freed, List.mem_append, List.mem_singleton, or_comm, or_assoc]
  · intro _ t ⟨⟨pre, split, freed⟩, freeing⟩
    rw [List.append_nil] at split
    refine ⟨freeing, fun l => ?_⟩
    rw [freed, split]

omit spaces live in
theorem sticky_mmFree {M : Meter Vmm} [frames : OfFrames rs M] : Sticky M (mmFree rs mm) :=
  .bind (sticky_forAreas (fun _ => sticky_freeArea) fun _ => .modify fun _ => frames.rest rfl rfl) fun _ =>
    .bind .get fun _ => .bind (frames.free _) fun _ => .modify fun _ => frames.rest rfl rfl

/-- `mm_free` on any memory, while another space stays. -/
theorem mmFree_reclaims (met : ¬ s.ranOut = true) (other : ∃ k, k ≠ mm ∧ s.Live k) :
    Runs (meter rs) (mmFree rs mm) 0 s fun _ s' => ∃ t, Freeing rs s t areas mm [] ∧
      (∀ l, l ∈ t.freedLis ↔ l ∈ s.freedLis ∨ l ∈ lists mm) ∧ s' = t.reclaimed rs mm := by
  have shared : ∀ a < 3, (s.vmas a).refcnt ≠ 1 := by
    obtain ⟨k, ne, liveK⟩ := other
    have two : 1 < s.lives.card :=
      Finset.one_lt_card.mpr ⟨k, Vmm.mem_lives.mpr liveK, mm, Vmm.mem_lives.mpr live, ne⟩
    intro a ha
    rw [spaces.refcnt a ha]
    omega
  unfold mmFree
  refine .seq ((freeAreas_runs spaces live met shared).imp ?_) fun _ => .bind .get fun _ =>
    .bind (ofFrames_meter.free _) fun _ => .modify fun _ out => out
  intro _ t ⟨freeing, freed⟩ met'
  have empty : (t.mms mm).p4 = 0 := freeing.tables.no_tables fun v long =>
    freeing.gone v long fun r absurd => (by cases absurd)
  refine .of_get ?_
  rw [empty]
  refine .step (freeFrame_zero freeing.tables.frames) (Nat.le_refl _) ?_
  exact .done rfl met' (Nat.le_refl _) ⟨t, freeing, freed, rfl⟩

omit spaces live in
/-- The last `pmm_free` does nothing when no region starts at `0`. -/
theorem reclaimed_above (above : ∀ r ∈ rs.regions, 0 < r.start) : t.reclaimed rs mm =
    { t with freedMms := mm :: t.freedMms, pmmFrees := (0, false) :: t.pmmFrees } := by
  rw [Vmm.reclaimed, foldl_freeIn_outside _ _ fun r mem => .inl (above r mem)]

/-- `mm_free` when no region starts at `0`. The tables of the other spaces stay. -/
theorem mmFree_runs (above : ∀ r ∈ rs.regions, 0 < r.start) (met : ¬ s.ranOut = true)
    (other : ∃ k, k ≠ mm ∧ s.Live k) :
    Runs (meter rs) (mmFree rs mm) 0 s fun _ s' => Spaces rs s' lists areas ∧
      (∀ k p, p.length ≤ 4 → k ≠ mm → s'.slot k p = s.slot k p) ∧ s'.nmms = s.nmms ∧
      s'.freedMms = mm :: s.freedMms := by
  refine (mmFree_reclaims spaces live met other).imp ?_
  rintro _ s' ⟨t, freeing, _, rfl⟩
  rw [reclaimed_above above]
  refine ⟨(freeing.freed_spaces spaces live).marked _, freeing.slots, freeing.named.2.2, ?_⟩
  dsimp only
  rw [freeing.freed]

end Free

end Blackcomb.Mm
