import Blackcomb.Laws.Mm.Agreement
import Blackcomb.Laws.Mm.Carried
import Blackcomb.Lib.Paging

/-!
# The processor on the tables

The walkers of `vmm.c` follow an entry that is not `0`, whatever its lower bits are. The processor wants
it present, and takes some for large pages. Every entry that `vmm_map_page` makes has flags that both
read in the same way (`Wired`): so the processor translates what lies in an area of the space's list, as
the walkers do, and nothing else (`processor_translates`).

**What it does not establish.** The walk is made on the tables as they are in memory. What the
processor remembers of an entry that was changed since is not modelled.
-/

namespace Blackcomb.Mm

open Memory Run Budget Ownership

variable {rs : RegionTable} {s s' t : Vmm} {own : Nat → Path → Prop} {spare : Option Nat}
  {mm k n virt phys flags start prot : Nat} {user : Bool} {p : Path} {lists areas : Nat → List Nat}

/-! ## Tables that the processor follows -/

/-- Every entry of a space above its pages leads to a table. -/
def Wired (slots : Path → Nat) : Prop :=
  ∀ p, p ≠ [] → p.length ≤ 3 → slots p ≠ 0 → Followed (slots p % pageSize)

theorem Wired.congr (wired : Wired (s.slot mm)) (same : ∀ p, p.length ≤ 3 → s'.slot k p = s.slot mm p) :
    Wired (s'.slot k) := by
  intro p below short there
  rw [same p short] at there ⊢
  exact wired p below short there

/-- `vmm_map_page` makes entries with flags that lead to tables. -/
theorem vmmMapPage_wired (tables : Tables rs s own spare none) (met : ¬ s.ranOut = true)
    (followed : Followed flags) (fits : phys ||| flags < 2 ^ 64) (wired : Wired (s.slot mm)) :
    Runs (meter rs) (vmmMapPage rs mm virt phys flags) 4 s fun _ s' => Wired (s'.slot mm) := by
  have small : flags < pageSize := Nat.lt_trans followed.2 (by decide)
  refine vmmMapPage_runs tables met small fun t _ _ built tables here => ?_
  have edit := tables.setLeaf (i := p1Ndx virt) here rfl fits
  have made : Wired (t.slot mm) := by
    intro p below short there
    by_cases part : p <:+ pathOf virt
    · by_cases old : s.slot mm p = 0
      · rw [built.made p below short part old]
        exact followed
      · rw [built.kept p short old]
        exact wired p below short old
    · have same := built.others mm p short fun both => part both.2
      rw [same] at there ⊢
      exact wired p below short there
  refine made.congr fun p short => edit.others mm p (by omega) ?_
  rintro ⟨_, rfl⟩
  simp at short

/-- So the calls that map pages keep the tables of a space so. -/
theorem wired_carried (rs : RegionTable) (mm : Nat) : Carried rs mm fun s => Wired (s.slot mm) := by
  refine ⟨fun s s' frames p4 wired => ?_, fun tables met wired => ?_, fun tables met followed fits wired =>
    vmmMapPage_wired tables met followed fits wired, ?_⟩
  · exact wired.congr fun p _ => slot_records frames p4 mm p
  · exact (allocFrame_runs tables.frames met).imp fun _ _ alloced =>
      wired.congr fun p short => tables.slot_alloced alloced (by omega)
  · intro s own src start n tables met ne range ownSrc ownDst thereSrc thereDst wired
    exact (mmCopyFromMm_runs tables met ne range ownSrc ownDst thereSrc thereDst).imp fun _ _ copied =>
      wired.congr fun p short => copied.slots mm p (by omega)

/-- A space without tables. -/
theorem wired_of_empty (empty : s.slot mm [] = 0) : Wired (s.slot mm) := by
  intro p _ _ there
  exact absurd empty (Radix.slot_suffix List.nil_suffix there)

/-- What the tables of `kernel_mm` keep: the pages of the kernel text and of physical memory stand for
those of the same number. -/
structure Booted (slots : Path → Nat) : Prop where
  text : Direct 0 slots
  phys : Direct 1 slots
  wired : Wired slots

/-! ## Runs -/

variable {call : SpaceCall} {s₀ : Vmm}

theorem Booted.congr (booted : Booted (s.slot 0)) (same : ∀ p, p.length ≤ 4 → s'.slot 0 p = s.slot 0 p) :
    Booted (s'.slot 0) := by
  refine ⟨fun k lt => ?_, fun k lt => ?_, booted.wired.congr fun p short => same p (by omega)⟩
  · rw [same _ (pageAt_length _ k).le]
    exact booted.text k lt
  · rw [same _ (pageAt_length _ k).le]
    exact booted.phys k lt

/-- What the tables of `kernel_mm` and of the live spaces keep. -/
structure Walkable (s : Vmm) : Prop where
  booted : Booted (s.slot 0)
  wired : ∀ mm, s.Live mm → Wired (s.slot mm)

/-- A call with one space as its subject. -/
theorem Walkable.next (walkable : Walkable s) (nonzero : mm ≠ 0)
    (slots : ∀ k p, p.length ≤ 4 → k ≠ mm → s'.slot k p = s.slot k p)
    (old : ∀ k, k ≠ mm → s'.Live k → s.Live k) (here : s'.Live mm → Wired (s'.slot mm)) :
    Walkable s' := by
  refine ⟨walkable.booted.congr fun p short => slots 0 p short nonzero.symm, fun k live => ?_⟩
  by_cases same : k = mm
  · subst same
    exact here live
  · exact (walkable.wired k (old k same live)).congr fun p short => slots k p (by omega) same

theorem Spaces.walkable_step (spaces : Spaces rs s lists areas) (met : ¬ s.ranOut = true)
    (allowed : Vmm.Permitted rs call s) (taken : Vmm.step rs call s = .ok s')
    (met' : ¬ s'.ranOut = true) (walkable : Walkable s) : Walkable s' := by
  have nonzero : s.nmms ≠ 0 := Nat.ne_of_gt spaces.kernel.named.1
  have empty : s.slot s.nmms [] = 0 :=
    spaces.tables.no_tables fun v long => spaces.dead s.nmms nonzero s.not_live v long
  cases call with
  | mmNew =>
    obtain ⟨_, ran⟩ := map_eq_ok taken
    obtain ⟨_, born⟩ := (mmNew_runs spaces met).safe ran met'
    have wired := ((wired_carried rs s.nmms).mmNew_held spaces met (wired_of_empty empty)).safe ran met'
    exact walkable.next nonzero born.slots
      (fun k ne live => ((spaces.live_succ born.nmms born.freed).mp live).resolve_right ne) fun _ => wired
  | anonMmap mm start pages prot user =>
    obtain ⟨live, fits, canonical, apart⟩ := allowed
    obtain ⟨_, ran⟩ := map_eq_ok taken
    obtain ⟨aligned, small⟩ := anonMmap_returned ran
    obtain ⟨regular, free⟩ := spaces.anon_regular live ⟨aligned, fits, small⟩ canonical apart
    obtain ⟨_, mapped⟩ := (anonMmap_runs spaces met live regular free).safe ran met'
    have wired := ((wired_carried rs mm).anonMmap_held spaces.tables met aligned small
      (unowned_pages live free) (walkable.wired mm live)).safe ran met'
    exact walkable.next (Nat.ne_of_gt live.1) mapped.slots (fun k _ => mapped.live_iff.mp) fun _ => wired
  | mmDupe mm =>
    obtain ⟨_, ran⟩ := map_eq_ok taken
    obtain ⟨_, _, _, copying⟩ := (mmDupe_runs spaces met allowed).safe ran met'
    have wired := ((wired_carried rs s.nmms).mmDupe_held spaces allowed met
      (wired_of_empty empty)).safe ran met'
    exact walkable.next nonzero copying.slots
      (fun k ne live => ((copying.live_iff spaces).mp live).resolve_right ne) fun _ => wired
  | mmFree mm =>
    have took := spaces.took met allowed taken met'
    cases took with
    | mmFree live freeing nodes left =>
      subst left
      refine walkable.next (Nat.ne_of_gt live.1) freeing.slots
        (fun k _ alive => (freeing.live_iff.mp alive).1) fun alive => ?_
      exact absurd rfl (freeing.live_iff.mp alive).2
  | write mm virt byte =>
    have took := spaces.took met allowed taken met'
    cases took with
    | write live mem inside left =>
      subst left
      have same := (spaces.write live byte mem inside).2
      refine ⟨walkable.booted.congr fun p short => same 0 p short, fun k alive => ?_⟩
      exact (walkable.wired k alive).congr fun p short => same k p (by omega)

/-- They do in every state of a run in which frames did not run out. -/
theorem walkable_of_permitted {m : Bytes} (booted : kernelMmInit rs 0 (Vmm.boot rs m) = .ok ((), s₀))
    (reached : Reach (Vmm.step rs) (Vmm.Permitted rs) s₀ s) (met : ¬ s.ranOut = true) :
    (∃ lists areas, Spaces rs s lists areas) ∧ Walkable s := by
  refine reached.avoiding (fun s => s.ranOut = true) (fun _ _ _ taken => step_ranOut taken)
    (fun s => (∃ lists areas, Spaces rs s lists areas) ∧ Walkable s) (fun start => ?_) ?_ met
  · obtain ⟨spaces, _, one⟩ := (kernelMmInit_runs rs m).safe booted start
    obtain ⟨⟨text, phys⟩, wired⟩ :=
      ((wired_carried rs 0).kernelMmInit_held m (wired_of_empty rfl)).safe booted start
    refine ⟨⟨_, _, spaces⟩, ⟨text, phys, wired⟩, fun mm live => ?_⟩
    have := live.1
    have := live.2.1
    omega
  · rintro call s s' before ⟨⟨lists, areas, spaces⟩, walkable⟩ allowed taken after
    exact ⟨spaces.step (spaces.took before allowed taken after),
      spaces.walkable_step before allowed taken after walkable⟩

/-! ## The walk -/

/-- The indices of a path are the processor's. -/
theorem pathOf_drop (virt : Nat) {level : Nat} (small : level < 4) :
    ∃ i : Fin 512, i.val = X86.tableIndex virt level ∧
      (pathOf virt).drop level = i :: (pathOf virt).drop (level + 1) := by
  have index : ∀ level, (Fin.ofNat 512 (virt >>> (12 + 9 * level))).val = X86.tableIndex virt level := by
    intro level
    rw [Fin.val_ofNat, Nat.shiftRight_eq_div_pow]
    rfl
  match level, small with
  | 0, _ => exact ⟨p1Ndx virt, index 0, rfl⟩
  | 1, _ => exact ⟨p2Ndx virt, index 1, rfl⟩
  | 2, _ => exact ⟨p3Ndx virt, index 2, rfl⟩
  | 3, _ => exact ⟨p4Ndx virt, index 3, rfl⟩

/-- An entry as its frame and its flags. -/
theorem pageOf_add (e : Nat) : pageOf e + e % pageSize = e := Nat.sub_add_cancel (Nat.mod_le _ _)

theorem IsFrame.below {f : Nat} (frame : IsFrame rs f) : f < 2 ^ 52 := by
  obtain ⟨r, _, i, _, lt, rfl⟩ := frame
  have := r.fits
  simp only [pageSize] at *
  omega

/-- The processor's walk, from a table on the way. -/
theorem walk_from (layout : Layout rs s) (wired : Wired (s.slot mm))
    (leaf : s.slot mm (pathOf virt) ≠ 0 → s.slot mm (pathOf virt) % pageSize % 2 = 1 ∧
      pageOf (s.slot mm (pathOf virt)) < 2 ^ 52) (level : Nat) (small : level < 4)
    (there : s.slot mm ((pathOf virt).drop (level + 1)) ≠ 0) :
    X86.walkFrom s.frames.mem virt (level + 1) (pageOf (s.slot mm ((pathOf virt).drop (level + 1)))) =
      if s.slot mm (pathOf virt) = 0 then none
      else some (pageOf (s.slot mm (pathOf virt)) + virt % pageSize) := by
  induction level with
  | zero =>
    obtain ⟨i, index, path⟩ := pathOf_drop virt small
    rw [X86.walkFrom, ← index, ← entryAt, ← slot_cons there, ← path, List.drop_zero]
    split
    · rename_i absent
      rw [absent]
      rfl
    · rename_i present
      obtain ⟨odd, fits⟩ := leaf present
      have walk := X86.entryWalk_page virt (X86.walkFrom s.frames.mem virt 0)
        (pageOf_mod (s.slot mm (pathOf virt))) fits odd (Nat.mod_lt _ (by decide))
      rw [pageOf_add] at walk
      exact walk
  | succ level ih =>
    obtain ⟨i, index, path⟩ := pathOf_drop virt small
    rw [X86.walkFrom, ← index, ← entryAt, ← slot_cons there, ← path]
    by_cases absent : s.slot mm ((pathOf virt).drop (level + 1)) = 0
    · rw [absent, if_pos]
      · rfl
      · by_contra leaf
        exact Radix.slot_suffix (List.drop_suffix _ _) leaf absent
    · have short : ((pathOf virt).drop (level + 1)).length ≤ 3 := by
        rw [List.length_drop, pathOf_length]
        omega
      have follow := wired _ (by simp [path]) short absent
      have walk := X86.entryWalk_table virt level (X86.walkFrom s.frames.mem virt (level + 1))
        (pageOf_mod _) (layout.frame mm _ short absent).below follow.1 follow.2
      rw [pageOf_add] at walk
      rw [walk]
      exact ih (by omega) absent

/-! ## The pages -/

/-- A page of the kernel's areas in `kernel_mm`. -/
theorem Spaces.kernel_leaf {a : Nat} (spaces : Spaces rs s lists areas) (booted : Booted (s.slot 0))
    (static : a < 3) (inside : InArea (kernelShape a) p) :
    s.slot 0 p % pageSize % 2 = 1 ∧ pageOf (s.slot 0 p) < 2 ^ 52 := by
  obtain ⟨there, flags⟩ := spaces.kernel.mapped a static p inside
  refine ⟨by rw [flags], ?_⟩
  have direct : ∀ k, k ≤ 1024 → pageOf (k * pageSize ||| 3) < 2 ^ 52 := by
    intro k few
    rw [pageOf_or (Nat.mul_mod_left k pageSize) (by decide)]
    simp only [pageSize]
    omega
  obtain rfl | rfl | rfl : a = 0 ∨ a = 1 ∨ a = 2 := by omega
  · obtain ⟨k, lt, rfl⟩ := inside
    rw [booted.text k lt]
    exact direct k (Nat.le_trans lt.le (by decide))
  · obtain ⟨k, lt, rfl⟩ := inside
    rw [booted.phys k lt]
    exact direct k lt.le
  · have holds : held s (owns s areas) none (some (0, p)) = some (pageOf (s.slot 0 p)) :=
      held_eq_some.mpr ⟨.inr ⟨inside.length, .inl ⟨rfl, inside⟩⟩, there, rfl⟩
    exact (spaces.tables.held_frame holds).below

/-- What the processor reads in the entry of a page. -/
theorem Spaces.leaf (spaces : Spaces rs s lists areas) (booted : Booted (s.slot 0))
    (here : mm = 0 ∨ s.Live mm) (long : p.length = 4) (there : s.slot mm p ≠ 0) :
    s.slot mm p % pageSize % 2 = 1 ∧ pageOf (s.slot mm p) < 2 ^ 52 := by
  by_cases static : ∃ a < 3, InArea (kernelShape a) p
  · obtain ⟨a, lt, inside⟩ := static
    have same : s.slot mm p = s.slot 0 p := by
      rcases here with rfl | live
      · rfl
      · exact (spaces.space mm live).kernel a lt p inside
    rw [same]
    exact spaces.kernel_leaf booted lt inside
  · have off : ∀ a < 3, ¬ InArea (kernelShape a) p := fun a lt inside => static ⟨a, lt, inside⟩
    rcases here with rfl | live
    · exact absurd (spaces.kernel.unmapped p long off) there
    · have space := spaces.space mm live
      obtain ⟨r, mem, inside⟩ : ∃ r ∈ areas mm, InArea (s.vmas r) p := by
        by_contra out
        exact there (space.unmapped p long (fun r mem inside => out ⟨r, mem, inside⟩) off)
      have holds : held s (owns s areas) none (some (mm, p)) = some (pageOf (s.slot mm p)) :=
        held_eq_some.mpr ⟨.inr ⟨long, .inr ⟨live, r, mem, inside⟩⟩, there, rfl⟩
      rw [(space.mapped r mem p inside).2]
      exact ⟨(followed_pageFlags _ _).1, (spaces.tables.held_frame holds).below⟩

/-- The areas of a space, `kernel_mm` included. -/
theorem Spaces.area {r : Nat} (spaces : Spaces rs s lists areas) (here : mm = 0 ∨ s.Live mm)
    (mem : r ∈ s.areasOf mm) : Range (s.vmas r).start (s.vmas r).pages ∧
      ∀ k < (s.vmas r).pages, Canonical ((s.vmas r).start + k * pageSize) := by
  rcases here with rfl | live
  · have static : r < 3 := by
      rw [spaces.areasOf_kernel] at mem
      simp only [List.mem_cons, List.not_mem_nil, or_false] at mem
      omega
    obtain ⟨_, start, pages, _⟩ :=
      VmArea.shape_inj ((spaces.kernel.shape r static).trans (kernelShape_shape r).symm)
    rw [start, pages]
    exact ⟨kernelShape_range r, fun k lt => kernelShape_canonical r lt⟩
  · have space := spaces.space mm live
    rw [space.areasOf_eq] at mem
    exact ⟨space.all_range spaces.kernel mem, fun k lt => space.all_canonical spaces.kernel mem lt⟩

/-- Their addresses are canonical. -/
theorem Spaces.canonical {r : Nat} (spaces : Spaces rs s lists areas) (here : mm = 0 ∨ s.Live mm)
    (mem : r ∈ s.areasOf mm) (has : (s.vmas r).Has virt) : virt < 2 ^ 64 ∧ Canonical virt := by
  obtain ⟨range, canonical⟩ := spaces.area here mem
  obtain ⟨k, lt, page, _⟩ := range.path_of_address has.1 has.2
  have there := canonical k lt
  have aligned := range.aligned
  have fits := range.fits
  have last := has.2
  simp only [Canonical, pageSize] at *
  omega

/-- An address has an entry exactly when it is in an area. -/
theorem Spaces.mapped_iff (spaces : Spaces rs s lists areas) (here : mm = 0 ∨ s.Live mm)
    (lt : virt < 2 ^ 64) (canonical : Canonical virt) :
    s.Mapped mm virt ↔ ∃ r ∈ s.areasOf mm, (s.vmas r).Has virt := by
  have covered : s.Mapped mm virt ↔ ∃ r ∈ s.areasOf mm, InArea (s.vmas r) (pathOf virt) := by
    rcases here with rfl | live
    · rw [spaces.areasOf_kernel]
      constructor
      · intro mapped
        by_contra out
        refine mapped (spaces.kernel.unmapped _ (pathOf_length virt) fun a small inside => out ⟨a, ?_, ?_⟩)
        · simp only [List.mem_cons, List.not_mem_nil, or_false]
          omega
        · exact (spaces.kernel.inArea_iff small).mpr inside
      · rintro ⟨a, mem, inside⟩
        have small : a < 3 := by
          simp only [List.mem_cons, List.not_mem_nil, or_false] at mem
          omega
        exact (spaces.kernel.mapped a small _ ((spaces.kernel.inArea_iff small).mp inside)).1
    · have space := spaces.space mm live
      rw [space.areasOf_eq]
      constructor
      · intro mapped
        by_contra out
        exact mapped (space.all_unmapped spaces.kernel (pathOf_length virt) fun r mem inside =>
          out ⟨r, mem, inside⟩)
      · rintro ⟨r, mem, inside⟩
        exact space.all_mapped spaces.kernel mem inside
  rw [covered]
  constructor
  · rintro ⟨r, mem, inside⟩
    obtain ⟨range, there⟩ := spaces.area here mem
    exact ⟨r, mem, range.has_of_path there lt canonical inside⟩
  · rintro ⟨r, mem, has⟩
    obtain ⟨k, less, _, path⟩ := (spaces.area here mem).1.path_of_address has.1 has.2
    exact ⟨r, mem, k, less, path⟩

/-- The kernel's own pages are there in every space. -/
theorem Spaces.root (spaces : Spaces rs s lists areas) (here : mm = 0 ∨ s.Live mm) : s.slot mm [] ≠ 0 := by
  have inside : InArea (kernelShape 0) (pageAt (kernelShape 0).start 0) := ⟨0, by decide, rfl⟩
  have zero := (spaces.kernel.mapped 0 (by decide) _ inside).1
  refine Radix.slot_suffix (p := pageAt (kernelShape 0).start 0) List.nil_suffix ?_
  rcases here with rfl | live
  · exact zero
  · exact ((spaces.space mm live).kernel 0 (by decide) _ inside).trans_ne zero

/-- The processor's translation in a space. -/
theorem Spaces.processor (spaces : Spaces rs s lists areas) (walkable : Walkable s)
    (here : mm = 0 ∨ s.Live mm) (lt : virt < 2 ^ 64) (canonical : Canonical virt) :
    X86.translate s.frames.mem (s.mms mm).p4 virt =
      if s.slot mm (pathOf virt) = 0 then none else some (s.translate mm virt) := by
  have layout := spaces.tables.layout
  have wired : Wired (s.slot mm) := by
    rcases here with rfl | live
    · exact walkable.booted.wired
    · exact walkable.wired mm live
  have extended : X86.SignExtended virt := by
    simp only [Canonical, X86.SignExtended] at *
    omega
  have root := spaces.root here
  have base : X86.frameOf 0 (s.mms mm).p4 = pageOf (s.slot mm []) := by
    have fits : pageOf (s.mms mm).p4 < 2 ^ 52 := (layout.frame mm [] (by simp) root).below
    have aligned := layout.root mm
    show X86.frameOf 0 (s.mms mm).p4 = pageOf (s.mms mm).p4
    rw [pageOf_eq aligned] at fits ⊢
    exact X86.frameOf_zero 0 aligned (by decide) fits
  rw [X86.translate, if_pos extended, base]
  refine (walk_from layout wired (spaces.leaf walkable.booted here (pathOf_length virt))
    3 (by decide) root).trans ?_
  split
  · rfl
  · rename_i there
    rw [spaces.translate_eq there]

/-- The processor, with the p4 of a live space or of `kernel_mm` in `cr3`, translates the addresses of
the space's areas, each to where the walkers of `vmm.c` find it, and no other address: in every state of
a run from `kernel_mm_init` on in which frames did not run out. -/
theorem processor_translates (rs : RegionTable) (m : Bytes) (s₀ s : Vmm) (mm : Nat)
    (booted : kernelMmInit rs 0 (Vmm.boot rs m) = .ok ((), s₀))
    (reached : Reach (Vmm.step rs) (Vmm.Permitted rs) s₀ s) (met : s.ranOut = false)
    (here : mm = 0 ∨ s.Live mm) (virt phys : Nat) (lt : virt < 2 ^ 64) :
    X86.translate s.frames.mem (s.mms mm).p4 virt = some phys ↔
      (∃ r ∈ s.areasOf mm, (s.vmas r).Has virt) ∧ s.translate mm virt = phys := by
  obtain ⟨⟨lists, areas, spaces⟩, walkable⟩ :=
    walkable_of_permitted booted reached (ne_true_of_eq_false met)
  by_cases canonical : Canonical virt
  · rw [spaces.processor walkable here lt canonical, ← spaces.mapped_iff here lt canonical]
    split
    · rename_i absent
      exact iff_of_false (by simp) fun both => both.1 absent
    · rename_i there
      rw [Option.some.injEq]
      exact ⟨fun same => ⟨there, same⟩, And.right⟩
  · have outside : ¬ X86.SignExtended virt := by
      simp only [Canonical, X86.SignExtended] at *
      omega
    rw [X86.translate, if_neg outside]
    refine iff_of_false (by simp) ?_
    rintro ⟨⟨r, mem, has⟩, _⟩
    exact absurd (spaces.canonical here mem has).2 canonical

/-- A page of a user's space. -/
theorem processor_translates_page : ∃ s₀ s mm r virt phys,
    kernelMmInit wideTable 0 (Vmm.boot wideTable fun _ => 0) = .ok ((), s₀) ∧
      Reach (Vmm.step wideTable) (Vmm.Permitted wideTable) s₀ s ∧ s.Live mm ∧
      (s.vmas r).type = .reg ∧ (s.vmas r).Has virt ∧
      X86.translate s.frames.mem (s.mms mm).p4 virt = some phys := by
  obtain ⟨s₀, s, lists, areas, mm, r, booted, reached, met, spaces, _, live, one, size⟩ := exists_mapped
  obtain ⟨listed, type⟩ := (spaces.mem_areasOf live).mpr (one ▸ List.mem_singleton_self r)
  have has : (s.vmas r).Has (s.vmas r).start := by
    rw [VmArea.Has, size]
    simp only [pageSize]
    omega
  have reached' := reach_permitted reached
  have translates := processor_translates wideTable (fun _ => 0) s₀ s mm booted reached'
    (Bool.eq_false_of_not_eq_true met) (.inr live) (s.vmas r).start (s.translate mm (s.vmas r).start)
    (spaces.canonical (.inr live) listed has).1
  exact ⟨s₀, s, mm, r, _, _, booted, reached', live, type, has, translates.mpr ⟨⟨r, listed, has⟩, rfl⟩⟩

end Blackcomb.Mm
