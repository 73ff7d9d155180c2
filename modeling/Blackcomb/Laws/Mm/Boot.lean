import Blackcomb.Laws.Mm.Teardown

/-!
# The kernel's space

`kernel_mm_init` maps the kernel text, physical memory and a fresh kernel heap in `kernel_mm`, and
establishes the invariant of address spaces with no space but that one.

It does so on any memory and any table, if the frames suffice (`kernelMmInit_runs`), so that there
are the runs that the other modules speak of.

**What it does not establish.** How the regions come out of the boot loader's map is in `Multiboot`
and `Recorded`, and what the processor ran on before in `Kernel.Boot`.
-/

namespace Blackcomb.Mm

open Memory Run Budget Ownership Chain

variable {rs : RegionTable} {s t t' : Vmm} {own own' : Nat → Path → Prop} {a n : Nat} {v : Path}
  {m : Bytes} {val : Nat → Nat}

/-! ## Before -/

theorem boot_slot (k : Nat) (p : Path) : (Vmm.boot rs m).slot k p = 0 := by
  induction p with
  | nil => rfl
  | cons i p ih => exact Radix.slot_cons_zero ih

/-- No frame is handed out, no table is there. -/
theorem boot_tables : Tables rs (Vmm.boot rs m) (fun _ _ => False) none none := by
  refine ⟨.start rs m, ⟨fun r f holds => ?_, fun f mem => (by cases mem), fun r q f holds => ?_⟩,
    fun _ => rfl, fun k p _ _ there => absurd (boot_slot k p) there⟩
  · cases r with
    | none => cases holds
    | some path => exact absurd (boot_slot path.1 path.2) (held_eq_some.mp holds).2.1
  · cases r with
    | none => cases holds
    | some path => exact absurd (boot_slot path.1 path.2) (held_eq_some.mp holds).2.1

/-! ## Stages -/

/-- What `kernel_mm_init` makes of the three static nodes. -/
def kernelLi : Nat → VmAreaLi
  | 0 => { vma := 0, next := some 1, prev := none }
  | 1 => { vma := 1, next := some 2, prev := some 0 }
  | _ => { vma := 2, next := none, prev := some 1 }

/-- `kernel_mm_init` under way: the first `a` of the kernel's areas are done. -/
structure Booting (rs : RegionTable) (t : Vmm) (own : Nat → Path → Prop) (a : Nat) : Prop where
  tables : Tables rs t own none none
  mapped : ∀ b < a, ∀ v, InArea (kernelShape b) v → t.slot 0 v ≠ 0 ∧ t.slot 0 v % pageSize = 3
  rest : ∀ v, v.length = 4 → (∀ b < a, ¬ InArea (kernelShape b) v) → t.slot 0 v = 0
  others : ∀ k v, v.length = 4 → k ≠ 0 → t.slot k v = 0
  head : (t.mms 0).vmAreas = some 0
  areas : ∀ b, t.vmas b = if b < a then kernelShape b else {}
  nodes : ∀ b < a, t.lis b = kernelLi b
  named : t.nmms = 1 ∧ t.nvmas = 3 ∧ t.nlis = 3
  freed : t.freedMms = [] ∧ t.freedVmas = [] ∧ t.freedLis = []

theorem Booting.start :
    Booting rs ((Vmm.boot rs m).modifyMm 0 ({ · with vmAreas := some 0 })) (fun _ _ => False) 0 := by
  have p4 : ∀ k, (((Vmm.boot rs m).modifyMm 0 ({ · with vmAreas := some 0 })).mms k).p4 =
      ((Vmm.boot rs m).mms k).p4 := by
    intro k
    simp only [Vmm.modifyMm, Function.update_apply]
    split
    · rename_i zero
      rw [zero]
    · rfl
  have slots : ∀ k p, ((Vmm.boot rs m).modifyMm 0 ({ · with vmAreas := some 0 })).slot k p = 0 := by
    intro k p
    have same := slot_records (s := Vmm.boot rs m)
      (t := (Vmm.boot rs m).modifyMm 0 ({ · with vmAreas := some 0 })) rfl p4 k p
    rw [same]
    exact boot_slot k p
  refine ⟨boot_tables.records rfl p4, fun b lt => absurd lt (Nat.not_lt_zero b), fun v _ _ => slots 0 v,
    fun k v _ _ => slots k v, ?_, fun b => rfl, fun b lt => absurd lt (Nat.not_lt_zero b),
    ⟨rfl, rfl, rfl⟩, ⟨rfl, rfl, rfl⟩⟩
  simp [Vmm.modifyMm]

/-- The record of an area has no tables. -/
theorem Booting.recorded (booting : Booting rs t own a) (f : VmArea → VmArea) :
    Tables rs (t.modifyVma a f) own none none :=
  booting.tables.records rfl fun _ => rfl

/-- One more area: its record, its pages and its node. -/
theorem Booting.next {f : VmArea → VmArea} (ha : a < 3) (booting : Booting rs t own a)
    (record : f {} = kernelShape a)
    (paged : Repaged (t.modifyVma a f) t' own 0 (kernelShape a).start (kernelShape a).pages val)
    (flags : ∀ k < (kernelShape a).pages, val k ≠ 0 ∧ val k % pageSize = 3)
    (tables : Tables rs t' own' none none) :
    Booting rs (t'.modifyLi a fun _ => kernelLi a) own' (a + 1) := by
  obtain ⟨nmms, vmas, nvmas, lis, nlis, freed, freedVmas, freedLis⟩ := paged.records.fields
  have old := booting.areas a
  rw [if_neg (Nat.lt_irrefl a)] at old
  have slots : ∀ k p, (t'.modifyLi a fun _ => kernelLi a).slot k p = t'.slot k p :=
    fun k p => slot_records rfl (fun _ => rfl) k p
  have before : ∀ k p, (t.modifyVma a f).slot k p = t.slot k p :=
    fun k p => slot_records rfl (fun _ => rfl) k p
  refine ⟨tables.records rfl fun _ => rfl, fun b lt v inside => ?_, fun v long out => ?_,
    fun k v long ne => ?_, ?_, fun b => ?_, fun b lt => ?_, ?_,
    ⟨freed.trans booting.freed.1, freedVmas.trans booting.freed.2.1,
      freedLis.trans booting.freed.2.2⟩⟩
  · rw [slots]
    by_cases last : b = a
    · subst last
      obtain ⟨i, lt', rfl⟩ := inside
      rw [paged.here i lt']
      exact flags i lt'
    · rw [paged.others 0 v inside.length, before]
      · exact booting.mapped b (by omega) v inside
      · intro same
        exact last (kernelShape_apart (by omega) ha inside same.2)
  · rw [slots, paged.others 0 v long fun same => out a (Nat.lt_succ_self a) same.2, before]
    exact booting.rest v long fun b lt => out b (by omega)
  · rw [slots, paged.others k v long fun same => ne same.1, before]
    exact booting.others k v long ne
  · exact (paged.records.areas 0).trans booting.head
  · have here : (t'.modifyLi a fun _ => kernelLi a).vmas b =
        Function.update t.vmas a (f (t.vmas a)) b := congrFun vmas b
    rw [here, Function.update_apply, old, record, booting.areas b]
    by_cases same : b = a
    · subst same
      rw [if_pos rfl, if_pos (Nat.lt_succ_self b)]
    · have : b < a ↔ b < a + 1 := by omega
      simp only [if_neg same, this]
  · simp only [Vmm.modifyLi, Function.update_apply]
    split
    · rename_i same
      rw [same]
    · rw [lis]
      exact booting.nodes b (by omega)
  · have := booting.named
    exact ⟨nmms.trans this.1, nvmas.trans this.2.1, nlis.trans this.2.2⟩

/-- With the three areas done, the invariant holds: there is no space yet. -/
theorem Booting.spaces (booting : Booting rs t own 3)
    (owned : ∀ k v, own k v ↔ k = 0 ∧ InArea (kernelShape 2) v) :
    Spaces rs t (fun _ => []) fun _ => [] := by
  obtain ⟨nmms, nvmas, nlis⟩ := booting.named
  have none : ∀ k, ¬ t.Live k := by
    intro k live
    have := live.1
    have := live.2.1
    omega
  have owner : owns t (fun _ => []) = own := by
    funext k v
    apply propext
    rw [owned, owns]
    simp [none]
  refine ⟨?_, ⟨booting.head, ⟨booting.nodes 0 (by decide), booting.nodes 1 (by decide),
    booting.nodes 2 (by decide)⟩, fun a ha => ?_, booting.mapped, booting.rest, ?_⟩,
    fun k live => absurd live (none k), fun k ne _ v long => booting.others k v long ne,
    fun j _ _ live => absurd live (none j), fun j _ _ live => absurd live (none j), fun a ha => ?_, ?_⟩
  · rw [owner]
    exact booting.tables
  · rw [booting.areas a, if_pos ha, kernelShape_shape]
  · omega
  · have empty : t.lives = ∅ := by
      ext k
      rw [Vmm.mem_lives]
      exact iff_of_false (none k) (Finset.notMem_empty k)
    rw [booting.areas a, if_pos ha, empty]
    unfold kernelShape
    split <;> rfl
  · rw [booting.freed.1]
    exact fun k absurd => (by cases absurd)

/-! ## kernel_mm_init -/

theorem sticky_vmmMapRange {M : Meter Vmm} [OfFrames rs M] {mm virt phys npages prot : Nat}
    {user : Bool} : Sticky M (vmmMapRange rs mm virt phys npages prot user) :=
  .bind sticky_panicIf fun _ => .forTo fun _ => .bind sticky_intOffset fun _ => sticky_vmmMapPage

/-- `vmm_map_range` of one of the kernel's areas to physical address `0` on. -/
theorem vmmMapRange_runs (a : Nat) (tables : Tables rs s own none none) (met : ¬ s.ranOut = true)
    (free : ∀ k v, ¬ own k v) :
    Runs (meter rs) (vmmMapRange rs 0 (kernelShape a).start 0 (kernelShape a).pages
      (pageProtRead ||| pageProtWrite) false) ((kernelShape a).pages * 4) s fun _ s' =>
      Shared rs s s' own 0 (kernelShape a).start (kernelShape a).pages
        fun k => (0 + k * pageSize) ||| 3 := by
  have range := kernelShape_range a
  have low : Range 0 (kernelShape a).pages := by
    refine ⟨rfl, ?_, range.small⟩
    have := range.fits
    omega
  have flags : pageFlags (pageProtRead ||| pageProtWrite) false = 3 := rfl
  have aligned := range.aligned
  unfold vmmMapRange
  rw [flags]
  refine .step (panicIf_eq ?_) (Nat.le_refl _) ?_
  · rintro (high | zero)
    · exact high aligned
    · exact zero rfl
  · exact mapRange_loop tables met range low (by decide) (by decide) fun j _ => free 0 _

/-- The flags of the entries that `vmm_map_range` and the kernel heap get. -/
theorem or_three {f : Nat} (aligned : f % pageSize = 0) :
    f ||| 3 ≠ 0 ∧ (f ||| 3) % pageSize = 3 := by
  refine ⟨fun zero => ?_, or_mod aligned (by decide)⟩
  exact absurd (Nat.or_eq_zero_iff.mp zero).2 (by decide)

/-- What is promised of the pages of a kernel area. -/
def Paged (rs : RegionTable) (s s' : Vmm) (own own' : Nat → Path → Prop) (a : Nat) : Prop :=
  Tables rs s' own' none none ∧
    ∃ val, Repaged s s' own 0 (kernelShape a).start (kernelShape a).pages val ∧
      ∀ k < (kernelShape a).pages, val k ≠ 0 ∧ val k % pageSize = 3

/-- A stage of `kernel_mm_init` and what comes after it. What else is known of the slots after the
stage's pages is known after its node. -/
theorem Booting.stage {f : VmArea → VmArea} {body rest : Op Unit} {k : Nat} {Q : Unit → Vmm → Prop}
    {E : (Path → Nat) → Prop} (ha : a < 3) (record : f {} = kernelShape a)
    (sticky : Sticky (meter rs) rest) (booting : Booting rs t own a)
    (pages : Runs (meter rs) body n (t.modifyVma a f) fun _ t' =>
      Paged rs (t.modifyVma a f) t' own own' a ∧ E (t'.slot 0))
    (later : ∀ t', ¬ t'.ranOut = true → Booting rs t' own' (a + 1) → E (t'.slot 0) →
      Runs (meter rs) rest k t' Q) :
    Runs (meter rs) (do
      modify (·.modifyVma a f)
      body
      modify (·.modifyLi a fun _ => kernelLi a)
      rest) (n + k) t Q := by
  refine .of_modify (Nat.le_refl _) (.bind (pages.imp ?_) fun _ => .bind (.modify fun _ out => out)
    fun _ => sticky)
  intro _ t' ⟨⟨tables, val, paged, flags⟩, slots⟩ met
  have same : (t'.modifyLi a fun _ => kernelLi a).slot 0 = t'.slot 0 :=
    funext fun p => slot_records rfl (fun _ => rfl) 0 p
  exact .of_modify (Nat.le_refl _) (later _ met (booting.next ha record paged flags tables)
    (same ▸ slots))

/-- Page `k` of an area stands for page `k` of physical memory. -/
def Direct (a : Nat) (slots : Path → Nat) : Prop :=
  ∀ k < (kernelShape a).pages, slots (pageAt (kernelShape a).start k) = k * pageSize ||| 3

theorem vmmMapRange_paged (a : Nat) (tables : Tables rs s own none none) (met : ¬ s.ranOut = true)
    (free : ∀ k v, ¬ own k v) :
    Runs (meter rs) (vmmMapRange rs 0 (kernelShape a).start 0 (kernelShape a).pages
      (pageProtRead ||| pageProtWrite) false) ((kernelShape a).pages * 4) s fun _ s' =>
      Paged rs s s' own own a ∧ Direct a (s'.slot 0) := by
  refine (vmmMapRange_runs a tables met free).imp fun _ s' shared => ?_
  refine ⟨⟨shared.tables, _, shared.toRepaged, fun k _ => or_three ?_⟩, fun k lt => ?_⟩
  · rw [Nat.zero_add]
    exact Nat.mul_mod_left k pageSize
  · rw [shared.here k lt, Nat.zero_add]

/-- The kernel heap leaves the entries of physical memory alone. -/
theorem Direct.heap {f : VmArea → VmArea} (direct : Direct 1 (t.slot 0))
    (paged : Repaged (t.modifyVma 2 f) t' own 0 (kernelShape 2).start (kernelShape 2).pages val) :
    Direct 1 (t'.slot 0) := by
  intro k lt
  have here : InArea (kernelShape 1) (pageAt (kernelShape 1).start k) := ⟨k, lt, rfl⟩
  have before : (t.modifyVma 2 f).slot 0 (pageAt (kernelShape 1).start k) =
    t.slot 0 (pageAt (kernelShape 1).start k) := slot_records rfl (fun _ => rfl) 0 _
  rw [paged.others 0 _ rfl, before]
  · exact direct k lt
  · intro both
    exact absurd (kernelShape_apart (by decide) (by decide) here both.2) (by decide)

/-- The loop that allocates the kernel heap. -/
theorem kernelHeap_paged (tables : Tables rs s own none none) (met : ¬ s.ranOut = true)
    (free : ∀ k v, ¬ own k v) :
    Runs (meter rs) (forTo kernelBrkPages (mapFresh rs 0 kernelBrkStart
      (protToX86Prot (pageProtRead ||| pageProtWrite) ||| pagePresent))) (kernelBrkPages * 5) s
      fun _ s' => Paged rs s s' own (withPages own 0 kernelBrkStart kernelBrkPages) 2 := by
  have range : Range kernelBrkStart kernelBrkPages := kernelShape_range 2
  have flags : protToX86Prot (pageProtRead ||| pageProtWrite) ||| pagePresent = 3 := by decide
  rw [flags]
  refine (mapFresh_loop tables met range.small (by decide) fun _ _ => free 0 _).imp ?_
  intro _ s' ⟨frame, fresh⟩
  exact ⟨fresh.tables, _, fresh.toRepaged, fun k lt => or_three (fresh.isFrame k lt).aligned⟩

/-- `kernel_mm_init`, from the state before it, with the entries of physical memory. -/
theorem kernelMmInit_direct (rs : RegionTable) (m : Bytes) :
    Runs (meter rs) (kernelMmInit rs 0) 6784 (Vmm.boot rs m) fun _ s =>
      ((Spaces rs s (fun _ => []) fun _ => []) ∧ (s.freedVmas = [] ∧ s.freedLis = []) ∧
        s.nmms = 1) ∧ Direct 1 (s.slot 0) := by
  have start : Booting rs ((Vmm.boot rs m).modifyMm 0 ({ · with vmAreas := some 0 }))
    (fun _ _ => False) 0 := .start
  have met : ¬ ((Vmm.boot rs m).modifyMm 0 ({ · with vmAreas := some 0 })).ranOut = true := by
    intro out
    cases out
  have total : 6784 = (kernelShape 0).pages * 4 +
    ((kernelShape 1).pages * 4 + (kernelBrkPages * 5 + 0)) := by decide
  have mark : ∀ {b : Nat} {li : VmAreaLi}, Sticky (meter rs)
      (modify (·.modifyLi b fun _ => li) : Op Unit) := .modify fun _ out => out
  have record : ∀ {b : Nat} {f : VmArea → VmArea}, Sticky (meter rs)
      (modify (·.modifyVma b f) : Op Unit) := .modify fun _ out => out
  have heap : Sticky (meter rs) (forTo kernelBrkPages (mapFresh rs 0 kernelBrkStart
      (protToX86Prot (pageProtRead ||| pageProtWrite) ||| pagePresent))) :=
    .forTo fun _ => sticky_mapFresh
  unfold kernelMmInit
  rw [total]
  refine .of_modify (Nat.le_refl _) ?_
  refine Booting.stage (by decide) rfl ?_ start
    (vmmMapRange_paged 0 (start.recorded _) met fun _ _ no => no)
    fun t₁ met₁ text _ => ?_
  · exact .bind record fun _ => .bind sticky_vmmMapRange fun _ => .bind mark fun _ =>
      .bind record fun _ => .bind heap fun _ => mark
  refine Booting.stage (by decide) rfl ?_ text
    (vmmMapRange_paged 1 (text.recorded _) met₁ fun _ _ no => no)
    fun t₂ met₂ phys direct => ?_
  · exact .bind record fun _ => .bind heap fun _ => mark
  refine .of_modify (Nat.le_refl _) ?_
  refine .bind ((kernelHeap_paged (phys.recorded _) met₂ fun _ _ no => no).imp
    ?_) fun _ => mark
  intro _ t₃ ⟨tables, val, paged, flags⟩ met₃
  have done := phys.next (by decide) rfl paged flags tables
  refine .done rfl met₃ (Nat.le_refl _)
    ⟨⟨done.spaces fun k v => ?_, done.freed.2, done.named.1⟩, fun k lt => ?_⟩
  · rw [withPages, false_or]
    rfl
  · have same : (t₃.modifyLi 2 fun _ => kernelLi 2).slot 0 (pageAt (kernelShape 1).start k) =
      t₃.slot 0 (pageAt (kernelShape 1).start k) := slot_records rfl (fun _ => rfl) 0 _
    exact same.trans (direct.heap paged k lt)

/-- `kernel_mm_init`, from the state before it. -/
theorem kernelMmInit_runs (rs : RegionTable) (m : Bytes) :
    Runs (meter rs) (kernelMmInit rs 0) 6784 (Vmm.boot rs m) fun _ s =>
      (Spaces rs s (fun _ => []) fun _ => []) ∧ (s.freedVmas = [] ∧ s.freedLis = []) ∧
        s.nmms = 1 :=
  (kernelMmInit_direct rs m).imp fun _ _ done => done.1

end Blackcomb.Mm
