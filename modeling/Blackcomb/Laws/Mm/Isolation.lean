import Blackcomb.Laws.Mm.Ownership

/-!
# Fork isolates

What `mm_dupe` is for, read off the tables and the bytes: the new space has a copy of every page of
the old one's regular areas and the kernel's pages, and from then on a byte written through one space
is never seen through another.

**What it does not establish.** The kernel's pages are shared, and a byte written there is seen by
everyone.
-/

namespace Blackcomb.Mm

open Memory Run Budget Ownership Chain

variable {rs : RegionTable} {s s' t t' : Vmm} {mm new r virt : Nat} {v : Path}
  {lists areas lists' areas' : Nat → List Nat}

/-! ## What is visible -/

/-- A virtual address is mapped: there is an entry at every level. -/
def Vmm.Mapped (s : Vmm) (mm virt : Nat) : Prop := s.slot mm (pathOf virt) ≠ 0

/-- What `new = mm_dupe(mm)` makes of a state. Protection is that of the entry that maps the page. -/
structure Duplicated (s s' : Vmm) (mm new : Nat) : Prop where
  /-- The pages of the regular areas: the same flags, a frame that was free, the same bytes. -/
  regular : ∀ r ∈ s.areasOf mm, (s.vmas r).type = .reg → ∀ virt, (s.vmas r).Has virt →
    s'.Mapped new virt ∧ s'.leafEntry new virt % pageSize = s.leafEntry mm virt % pageSize ∧
      s'.vmmGetPhys new virt ∈ s'.frames.taken ∧ s'.vmmGetPhys new virt ∉ s.frames.taken ∧
      s'.frames.mem (s'.translate new virt) = s.frames.mem (s.translate mm virt)
  /-- The pages of the kernel's areas: the frames of `kernel_mm`, which stay. -/
  kernel : ∀ r ∈ s.areasOf 0, ∀ virt, (s.vmas r).Has virt → s'.Mapped new virt ∧
    s'.vmmGetPhys new virt = s'.vmmGetPhys 0 virt ∧ s'.vmmGetPhys 0 virt = s.vmmGetPhys 0 virt
  /-- No other page. -/
  only : ∀ virt, s'.Mapped new virt → ∃ r ∈ s.areasOf mm, InArea (s.vmas r) (pathOf virt)
  /-- The same areas, in some order. -/
  areas : ((s'.areasOf new).map fun r => (s'.vmas r).shape).Perm
    ((s.areasOf mm).map fun r => (s.vmas r).shape)
  /-- The old space maps what it did. -/
  translations : ∀ virt, (s'.Mapped mm virt ↔ s.Mapped mm virt) ∧
    (s.Mapped mm virt → s'.leafEntry mm virt = s.leafEntry mm virt)
  /-- Its pages have the bytes they had. -/
  contents : ∀ r ∈ s.areasOf mm, (s.vmas r).type = .reg → ∀ virt, (s.vmas r).Has virt →
    s'.frames.mem (s'.translate mm virt) = s.frames.mem (s.translate mm virt)

theorem Spaces.leafEntry_eq (spaces : Spaces rs s lists areas) (mapped : s.Mapped mm virt) :
    s.leafEntry mm virt = s.slot mm (pathOf virt) :=
  Mm.leafEntry_eq spaces.tables.layout virt mapped

theorem Spaces.getPhys_eq (spaces : Spaces rs s lists areas) (mapped : s.Mapped mm virt) :
    s.vmmGetPhys mm virt = pageOf (s.slot mm (pathOf virt)) := by
  rw [Vmm.vmmGetPhys, spaces.leafEntry_eq mapped]

theorem Spaces.translate_eq (spaces : Spaces rs s lists areas) (mapped : s.Mapped mm virt) :
    s.translate mm virt = pageOf (s.slot mm (pathOf virt)) + virt % pageSize := by
  rw [Vmm.translate, spaces.getPhys_eq mapped]

theorem Spaces.areasOf_kernel (spaces : Spaces rs s lists areas) : s.areasOf 0 = [0, 1, 2] := by
  obtain ⟨zero, one, two⟩ := spaces.kernel.lis
  obtain ⟨n, more⟩ : ∃ n, s.nlis = n + 3 := by
    have := spaces.kernel.named.2.2
    exact ⟨s.nlis - 3, by omega⟩
  rw [Vmm.areasOf, spaces.kernel.head, more]
  simp [Vmm.nodes, zero, one, two]

/-! ## The copy -/

section Copy

variable (spaces : Spaces rs s lists areas) (live : s.Live mm)
  (copying : Copying rs s s' lists areas lists' areas' mm (areas mm).reverse)

include spaces live copying

/-- A page of a regular area. -/
theorem Copying.page (mem : r ∈ areas mm) (has : (s.vmas r).Has virt) :
    s.Mapped mm virt ∧ owns s areas mm (pathOf virt) ∧ owns s' areas' s.nmms (pathOf virt) ∧
      PageCopied s s' mm s.nmms (pathOf virt) := by
  have space := spaces.space mm live
  have inside := (space.regular r mem).inArea has
  have done := List.mem_reverse.mpr mem
  exact ⟨(space.mapped r mem _ inside).1, .inr ⟨live, r, mem, inside⟩,
    copying.done_owned spaces done inside, copying.copied r done _ inside⟩

omit spaces in
/-- The old space maps what it did. -/
theorem Copying.parent_slot (virt : Nat) : s'.slot mm (pathOf virt) = s.slot mm (pathOf virt) :=
  copying.slots mm _ (pathOf_length virt).le (Nat.ne_of_lt live.2.1)

theorem Copying.regular_page (mem : r ∈ areas mm) (has : (s.vmas r).Has virt) :
    s'.Mapped s.nmms virt ∧ s'.leafEntry s.nmms virt % pageSize = s.leafEntry mm virt % pageSize ∧
      s'.vmmGetPhys s.nmms virt ∈ s'.frames.taken ∧ s'.vmmGetPhys s.nmms virt ∉ s.frames.taken ∧
      s'.frames.mem (s'.translate s.nmms virt) = s.frames.mem (s.translate mm virt) := by
  obtain ⟨mapped, _, owned, copied⟩ := copying.page spaces live mem has
  have mapped' : s'.Mapped s.nmms virt := copied.there
  have frame := copying.spaces.getPhys_eq mapped'
  refine ⟨mapped', ?_, ?_, ?_, ?_⟩
  · rw [copying.spaces.leafEntry_eq mapped', spaces.leafEntry_eq mapped]
    exact copied.flags
  · rw [frame]
    exact copying.spaces.tables.exclusive.handed _ _
      (held_eq_some.mpr ⟨.inr ⟨pathOf_length virt, owned⟩, mapped', rfl⟩)
  · rw [frame]
    exact copied.fresh
  · rw [copying.spaces.translate_eq mapped', spaces.translate_eq mapped]
    exact copied.bytes _ (Nat.mod_lt _ (by decide))

theorem Copying.kernel_page (static : r < 3) (has : (s.vmas r).Has virt) :
    s'.Mapped s.nmms virt ∧ s'.vmmGetPhys s.nmms virt = s'.vmmGetPhys 0 virt ∧
      s'.vmmGetPhys 0 virt = s.vmmGetPhys 0 virt := by
  have space := spaces.space mm live
  have alive : s'.Live s.nmms := (copying.live_iff spaces).mpr (.inr rfl)
  have listed : r ∈ areas mm ++ [2, 1, 0] := List.mem_append_right _ (mem_kernelAreas.mpr static)
  obtain ⟨k, lt, _, path⟩ := (space.all_range spaces.kernel listed).path_of_address has.1 has.2
  have inside : InArea (kernelShape r) (pathOf virt) :=
    (spaces.kernel.inArea_iff static).mp ⟨k, lt, path⟩
  have shared := (copying.spaces.space s.nmms alive).kernel r static _ inside
  have kept := copying.slots 0 _ (pathOf_length virt).le (Nat.ne_of_lt spaces.kernel.named.1)
  have mapped : s.Mapped 0 virt := (spaces.kernel.mapped r static _ inside).1
  have mapped' : s'.Mapped 0 virt := by
    rw [Vmm.Mapped, kept]
    exact mapped
  have here : s'.Mapped s.nmms virt := by
    rw [Vmm.Mapped, shared]
    exact mapped'
  refine ⟨here, ?_, ?_⟩
  · rw [copying.spaces.getPhys_eq here, copying.spaces.getPhys_eq mapped', shared]
  · rw [copying.spaces.getPhys_eq mapped', spaces.getPhys_eq mapped, kept]

/-- A page of the new space is one of an area of the old one. -/
theorem Copying.only_pages (mapped : s'.Mapped s.nmms virt) :
    ∃ r ∈ s.areasOf mm, InArea (s.vmas r) (pathOf virt) := by
  have alive : s'.Live s.nmms := (copying.live_iff spaces).mpr (.inr rfl)
  rw [(spaces.space mm live).areasOf_eq]
  by_contra none
  refine mapped ((copying.spaces.space s.nmms alive).unmapped _ (pathOf_length virt)
    (fun r mem inside => none ?_) fun a static inside => none ?_)
  · have shape := List.mem_map_of_mem (f := fun r => (s'.vmas r).shape) mem
    rw [copying.copies] at shape
    obtain ⟨d, memD, same⟩ := List.mem_map.mp shape
    exact ⟨d, List.mem_append_left _ (List.mem_reverse.mp memD), (inArea_congr same).mpr inside⟩
  · exact ⟨a, List.mem_append_right _ (mem_kernelAreas.mpr static),
      (spaces.kernel.inArea_iff static).mpr inside⟩

/-- The areas are copied in reverse. -/
theorem Copying.areas_perm : ((s'.areasOf s.nmms).map fun r => (s'.vmas r).shape).Perm
    ((s.areasOf mm).map fun r => (s.vmas r).shape) := by
  have alive : s'.Live s.nmms := (copying.live_iff spaces).mpr (.inr rfl)
  have static : [2, 1, 0].map (fun r => (s'.vmas r).shape) =
      [2, 1, 0].map fun r => (s.vmas r).shape := by
    apply List.map_congr_left
    intro a mem
    have lt := mem_kernelAreas.mp mem
    rw [copying.spaces.kernel.shape a lt, spaces.kernel.shape a lt]
  rw [(copying.spaces.space s.nmms alive).areasOf_eq, (spaces.space mm live).areasOf_eq,
    List.map_append, List.map_append, copying.copies, static, List.map_reverse]
  exact (List.reverse_perm _).append_right _

/-- The bytes of the old space's pages stay. -/
theorem Copying.parent_bytes (mem : r ∈ areas mm) (has : (s.vmas r).Has virt) :
    s'.frames.mem (s'.translate mm virt) = s.frames.mem (s.translate mm virt) := by
  obtain ⟨mapped, owned, _⟩ := copying.page spaces live mem has
  have same := copying.parent_slot live virt
  have mapped' : s'.Mapped mm virt := by
    rw [Vmm.Mapped, same]
    exact mapped
  have inPage : virt % pageSize < pageSize := Nat.mod_lt _ (by decide)
  rw [copying.spaces.translate_eq mapped', spaces.translate_eq mapped, same]
  exact copying.pages _ (.inr ⟨mm, _, pathOf_length virt, owned, mapped, rfl⟩) _
    (Nat.le_add_right _ _) (Nat.add_lt_add_left inPage _)

/-- What `mm_dupe` did, as it is seen from outside. -/
theorem Copying.duplicated : Duplicated s s' mm s.nmms := by
  have same := copying.parent_slot live
  refine ⟨fun r listed type virt has => ?_, fun r static virt has => ?_,
    fun virt mapped => copying.only_pages spaces live mapped, copying.areas_perm spaces live,
    fun virt => ⟨?_, fun mapped => ?_⟩, fun r listed type virt has => ?_⟩
  · exact copying.regular_page spaces live ((spaces.mem_areasOf live).mp ⟨listed, type⟩) has
  · rw [spaces.areasOf_kernel] at static
    refine copying.kernel_page spaces live ?_ has
    simp only [List.mem_cons, List.not_mem_nil, or_false] at static
    omega
  · rw [Vmm.Mapped, Vmm.Mapped, same virt]
  · have mapped' : s'.Mapped mm virt := by
      rw [Vmm.Mapped, same virt]
      exact mapped
    rw [copying.spaces.leafEntry_eq mapped', spaces.leafEntry_eq mapped, same virt]
  · exact copying.parent_bytes spaces live ((spaces.mem_areasOf live).mp ⟨listed, type⟩) has

end Copy

/-! ## Writes -/

/-- A user address is in no area of the kernel. -/
theorem user_not_kernel {a : Nat} (user : virt < 2 ^ 47) (static : a < 3) :
    ¬ InArea (kernelShape a) (pathOf virt) := by
  have range : Range (virt - virt % pageSize) 1 := by
    refine ⟨?_, ?_, Nat.one_le_two_pow⟩
    · simp only [pageSize]
      omega
    · simp only [pageSize]
      omega
  obtain ⟨k, lt, _, path⟩ := range.path_of_address (Nat.sub_le virt _)
    (show virt < virt - virt % pageSize + 1 * pageSize by simp only [pageSize]; omega)
  rw [path]
  refine user_off_kernel ?_ lt static
  simp only [pageSize]
  omega

/-- A mapped user address belongs to a regular area. -/
theorem Spaces.user_area (spaces : Spaces rs s lists areas) (live : s.Live mm) (user : virt < 2 ^ 47)
    (mapped : s.Mapped mm virt) : ∃ r ∈ areas mm, InArea (s.vmas r) (pathOf virt) := by
  by_contra none
  refine mapped ((spaces.space mm live).unmapped _ (pathOf_length virt) (fun r mem inside => ?_)
    fun a static => user_not_kernel user static)
  exact none ⟨r, mem, inside⟩

/-- A byte written through a space is not seen through another. -/
theorem Spaces.write_unseen {a b virt' : Nat} {byte : BitVec 8} (spaces : Spaces rs s lists areas)
    (ne : a ≠ b) (liveB : s.Live b) (allowed : Vmm.Allowed rs (.write a virt byte) s)
    (taken : Vmm.step rs (.write a virt byte) s = .ok s') (user : virt' < 2 ^ 47)
    (mapped : s.Mapped b virt') : s'.translate b virt' = s.translate b virt' ∧
      s'.frames.mem (s'.translate b virt') = s.frames.mem (s.translate b virt') := by
  obtain ⟨liveA, r, listed, type, has⟩ := allowed
  obtain rfl := Except.ok.inj taken
  have mem := (spaces.mem_areasOf liveA).mp ⟨listed, type⟩
  have inside := ((spaces.space a liveA).regular r mem).inArea has
  obtain ⟨r', mem', inside'⟩ := spaces.user_area liveB user mapped
  obtain ⟨spaces', same⟩ := spaces.write liveA byte mem inside
  obtain ⟨ownedA, thereA, addressA⟩ := spaces.translate liveA mem inside
  obtain ⟨ownedB, thereB, addressB⟩ := spaces.translate liveB mem' inside'
  have still := same b (pathOf virt') (Nat.le_refl 4)
  have unmoved : (s.setMem (Function.update s.frames.mem (s.translate a virt) byte)).translate b virt' =
      s.translate b virt' := by
    have mapped' : (s.setMem (Function.update s.frames.mem (s.translate a virt) byte)).Mapped b
        virt' := by
      rw [Vmm.Mapped, still]
      exact mapped
    rw [spaces'.translate_eq mapped', spaces.translate_eq mapped, still]
  refine ⟨unmoved, ?_⟩
  rw [unmoved]
  show Function.update s.frames.mem (s.translate a virt) byte (s.translate b virt') = _
  refine Function.update_of_ne ?_ _ _
  -- the two pages own different frames
  have frames := spaces.tables.page_ne (pathOf_length virt) (pathOf_length virt') ownedA ownedB thereA
    thereB fun both => ne both.1
  have frameA : PageFrame s (owns s areas) none (pageOf (s.slot a (pathOf virt))) :=
    .inr ⟨a, _, pathOf_length virt, ownedA, thereA, rfl⟩
  have frameB : PageFrame s (owns s areas) none (pageOf (s.slot b (pathOf virt'))) :=
    .inr ⟨b, _, pathOf_length virt', ownedB, thereB, rfl⟩
  have apart := (frameA.frame spaces.tables).apart (frameB.frame spaces.tables) frames
  have inA : virt % pageSize < pageSize := Nat.mod_lt _ (by decide)
  have inB : virt' % pageSize < pageSize := Nat.mod_lt _ (by decide)
  rw [addressA, addressB]
  omega

/-- What is read through a space at a user address is not a matter of what is written through
another. -/
def Isolated (rs : RegionTable) (s : Vmm) : Prop :=
  ∀ a b virt byte s', a ≠ b → s.Live b → Vmm.Allowed rs (.write a virt byte) s →
    Vmm.step rs (.write a virt byte) s = .ok s' → ∀ virt' < 2 ^ 47, s.Mapped b virt' →
      s'.translate b virt' = s.translate b virt' ∧
        s'.frames.mem (s'.translate b virt') = s.frames.mem (s.translate b virt')

theorem Spaces.isolated (spaces : Spaces rs s lists areas) : Isolated rs s :=
  fun _ _ _ _ _ ne live allowed taken _ user mapped =>
    spaces.write_unseen ne live allowed taken user mapped

/-! ## Fork -/

/-- The frames that are enough for `mm_dupe`: four tables for each page, and a frame for each page of
a regular area. -/
def Vmm.dupeBudget (s : Vmm) (mm : Nat) : Nat :=
  6656 + ((s.areasOf mm).map fun r =>
    if (s.vmas r).type = .reg then (s.vmas r).pages * 5 else 0).sum

theorem Spaces.dupeBudget_eq (spaces : Spaces rs s lists areas) (live : s.Live mm) :
    s.dupeBudget mm = 6656 + ((areas mm).map fun r => (s.vmas r).pages * 5).sum := by
  have space := spaces.space mm live
  have regular : (areas mm).map (fun r => if (s.vmas r).type = .reg then (s.vmas r).pages * 5 else 0) =
      (areas mm).map fun r => (s.vmas r).pages * 5 :=
    List.map_congr_left fun r mem => if_pos (space.regular r mem).type
  have static : ∀ a ∈ [2, 1, 0], (s.vmas a).type ≠ .reg := by
    intro a mem type
    have listed : a ∈ s.areasOf mm := by
      rw [space.areasOf_eq]
      exact List.mem_append_right _ mem
    have three := (space.named a ((spaces.mem_areasOf live).mp ⟨listed, type⟩)).1
    exact absurd (mem_kernelAreas.mp mem) (Nat.not_lt.mpr three)
  have kernel : [2, 1, 0].map (fun r =>
      if (s.vmas r).type = .reg then (s.vmas r).pages * 5 else 0) = [2, 1, 0].map fun _ => 0 :=
    List.map_congr_left fun a mem => if_neg (static a mem)
  rw [Vmm.dupeBudget, space.areasOf_eq, List.map_append, List.sum_append, regular, kernel]
  rfl

/-- Fork copies an address space and isolates it. In every state of a run from `kernel_mm_init` on,
with enough free frames `mm_dupe` of a live space returns; the space it returns is a copy on fresh
frames, the old space is as it was; and in every state reached from there, a byte written through one
space is not seen through another. -/
theorem mmDupe_isolates (rs : RegionTable) (m : Bytes) (s₀ s : Vmm) (mm : Nat)
    (booted : kernelMmInit rs 0 (Vmm.boot rs m) = .ok ((), s₀))
    (reached : Reach (Vmm.step rs) (Vmm.Allowed rs) s₀ s) (met : s.ranOut = false)
    (live : s.Live mm) :
    (s.dupeBudget mm ≤ (freeFrames rs s.frames).card →
      ∃ new s', mmDupe rs mm s = .ok (new, s') ∧ s'.ranOut = false) ∧
    ∀ new s', mmDupe rs mm s = .ok (new, s') → s'.ranOut = false →
      mm ≠ new ∧ s'.Live mm ∧ s'.Live new ∧ Duplicated s s' mm new ∧
        ∀ t, Reach (Vmm.step rs) (Vmm.Allowed rs) s' t → t.ranOut = false → Isolated rs t := by
  have met : ¬ s.ranOut = true := ne_true_of_eq_false met
  obtain ⟨lists, areas, spaces⟩ := spaces_of_boot booted reached met
  have runs := mmDupe_runs spaces met live
  refine ⟨fun enough => ?_, fun new s' ran met' => ?_⟩
  · rw [spaces.dupeBudget_eq live] at enough
    obtain ⟨new, s', ran, met', _⟩ := runs.total enough
    exact ⟨new, s', ran, Bool.eq_false_of_not_eq_true met'⟩
  · obtain ⟨rfl, lists', areas', copying⟩ := runs.safe ran (ne_true_of_eq_false met')
    refine ⟨Nat.ne_of_lt live.2.1, (copying.live_iff spaces).mpr (.inl live),
      (copying.live_iff spaces).mpr (.inr rfl), copying.duplicated spaces live, fun t later met'' => ?_⟩
    obtain ⟨lists'', areas'', spaces''⟩ :=
      copying.spaces.of_reach (reach_permitted later) (ne_true_of_eq_false met'')
    exact spaces''.isolated

/-- A space with one page is duplicated. -/
theorem mmDupe_isolates_mapped : ∃ s₀ s mm new s',
    kernelMmInit wideTable 0 (Vmm.boot wideTable fun _ => 0) = .ok ((), s₀) ∧
      Reach (Vmm.step wideTable) (Vmm.Allowed wideTable) s₀ s ∧ s.Live mm ∧
      (∃ r ∈ s.areasOf mm, (s.vmas r).type = .reg ∧ (s.vmas r).pages = 1) ∧
      mmDupe wideTable mm s = .ok (new, s') ∧ s'.ranOut = false ∧ mm ≠ new ∧ s'.Live mm ∧
      s'.Live new ∧ Duplicated s s' mm new ∧ Isolated wideTable s' := by
  obtain ⟨s₀, s, lists, areas, mm, r, booted, reached, met, spaces, room, live, one, size⟩ :=
    exists_mapped
  obtain ⟨returns, copies⟩ := mmDupe_isolates wideTable (fun _ => 0) s₀ s mm booted reached
    (Bool.eq_false_of_not_eq_true met) live
  have mem : r ∈ areas mm := by
    rw [one]
    exact List.mem_singleton_self r
  have budget : s.dupeBudget mm = 6661 := by
    rw [spaces.dupeBudget_eq live, one, List.map_singleton, List.sum_singleton, size]
  have enough : s.dupeBudget mm ≤ (freeFrames wideTable s.frames).card := by
    rw [budget]
    exact Nat.le_trans (by decide) room
  obtain ⟨new, s', ran, met'⟩ := returns enough
  obtain ⟨ne, old, young, duplicated, isolated⟩ := copies new s' ran met'
  obtain ⟨listed, type⟩ := (spaces.mem_areasOf live).mpr mem
  exact ⟨s₀, s, mm, new, s', booted, reached, live, ⟨r, listed, type, size⟩, ran, met', ne, old, young,
    duplicated, isolated s' .start met'⟩

end Blackcomb.Mm
