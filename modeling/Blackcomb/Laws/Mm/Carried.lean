import Blackcomb.Laws.Mm.Isolation

/-!
# What the calls carry along

A property of the state that survives a page mapped, a frame handed out and pages copied, whatever
the tables are otherwise, survives the calls that map pages: `anon_mmap`, `mm_new`, `mm_dupe` and
`kernel_mm_init`. The loops and the lists are followed once, here; a property brings its own three
rules (`Carried`).

**What it does not establish.** `mm_free` is not among the calls, as giving back a frame may break
what taking one keeps.
-/

namespace Blackcomb.Mm

open Memory Run Budget Ownership

variable {rs : RegionTable} {s s' t : Vmm} {own : Nat → Path → Prop} {spare : Option Nat}
  {mm k n virt phys flags start prot : Nat} {user : Bool} {p : Path} {lists areas : Nat → List Nat}

/-- The flags of an entry that leads to a table. -/
def Followed (flags : Nat) : Prop := flags % 2 = 1 ∧ flags < 128

theorem Followed.small (followed : Followed flags) : flags < pageSize :=
  Nat.lt_trans followed.2 (by decide)

theorem Followed.nonzero (followed : Followed flags) : flags ≠ 0 := by
  rintro rfl
  exact absurd followed.1 (by decide)

theorem followed_pageFlags (prot : Nat) (user : Bool) : Followed (pageFlags prot user) := by
  unfold pageFlags protToX86Prot Followed
  cases user <;> split <;> decide

/-- A property that survives what is done to the space `mm`. -/
structure Carried (rs : RegionTable) (mm : Nat) (W : Vmm → Prop) : Prop where
  /-- The records are no matter. -/
  records : ∀ (s s' : Vmm), s'.frames = s.frames → (∀ k, (s'.mms k).p4 = (s.mms k).p4) → W s → W s'
  alloc : ∀ {s : Vmm} {own : Nat → Path → Prop}, Tables rs s own none none → ¬ s.ranOut = true → W s →
    Runs (meter rs) (allocFrame rs) 1 s fun _ s' => W s'
  page : ∀ {s : Vmm} {own : Nat → Path → Prop} {spare : Option Nat} {virt phys flags : Nat},
    Tables rs s own spare none → ¬ s.ranOut = true → Followed flags → phys ||| flags < 2 ^ 64 → W s →
    Runs (meter rs) (vmmMapPage rs mm virt phys flags) 4 s fun _ s' => W s'
  copy : ∀ {s : Vmm} {own : Nat → Path → Prop} {src start n : Nat}, Tables rs s own none none →
    ¬ s.ranOut = true → src ≠ mm → Range start n → (∀ j < n, own src (pageAt start j)) →
    (∀ j < n, own mm (pageAt start j)) → (∀ j < n, s.slot src (pageAt start j) ≠ 0) →
    (∀ j < n, s.slot mm (pageAt start j) ≠ 0) → W s →
    Runs (meter rs) (mmCopyFromMm mm src start n) 0 s fun _ s' => W s'

/-- The pages of a free range are not owned. -/
theorem unowned_pages (live : s.Live mm)
    (free : ∀ a ∈ areas mm, ∀ k < n, ¬ InArea (s.vmas a) (pageAt start k)) :
    ∀ k < n, ¬ owns s areas mm (pageAt start k) := by
  rintro k lt (⟨zero, _⟩ | ⟨_, a, mem, inside⟩)
  · exact Nat.ne_of_gt live.1 zero
  · exact free a mem k lt inside

theorem Range.mono (range : Range start n) (le : k ≤ n) : Range start k := by
  obtain ⟨aligned, fits, small⟩ := range
  have less := Nat.mul_le_mul_right pageSize le
  exact ⟨aligned, by omega, by omega⟩

namespace Carried

variable {W : Vmm → Prop}

/-! ## Loops over pages -/

section Loops

variable (carried : Carried rs mm W)

include carried

theorem mapFresh_held (tables : Tables rs t own none none) (met : ¬ t.ranOut = true) (few : k < 2 ^ 19)
    (followed : Followed flags) (held : W t) :
    Runs (meter rs) (mapFresh rs mm start flags k) 5 t fun _ t' => W t' := by
  unfold mapFresh
  refine .step (intOffset_eq (by omega)) (Nat.le_refl _) ?_
  refine .bind (n := 1) (k := 4) (((allocFrame_runs tables.frames met).and
    (carried.alloc tables met held)).imp ?_) fun _ => sticky_vmmMapPage
  intro f t₁ ⟨alloced, held₁⟩ met₁
  obtain ⟨(_ : Quiet t t₁ own none mm), tables₁⟩ := tables.alloc alloced
  exact carried.page tables₁ met₁ followed (alloced.frame.or_lt followed.small) held₁

theorem mapFresh_loop_held (start n : Nat) (tables : Tables rs s own none none) (met : ¬ s.ranOut = true)
    (few : n ≤ 2 ^ 19) (followed : Followed flags) (free : ∀ j < n, ¬ own mm (pageAt start j))
    (held : W s) :
    Runs (meter rs) (forTo n (mapFresh rs mm start flags)) (n * 5) s fun _ s' => W s' := by
  refine .forTo_along _ _ met (fun i le => mapFresh_loop tables met (by omega) followed.small
    fun j lt => free j (by omega)) held (fun i lt t met ⟨_, done⟩ held => ?_) fun _ => sticky_mapFresh
  exact carried.mapFresh_held done.tables met (by omega) followed held

/-- `anon_mmap`. -/
theorem anonMmap_held (tables : Tables rs s own none none) (met : ¬ s.ranOut = true)
    (aligned : start % pageSize = 0) (few : n ≤ 2 ^ 19) (free : ∀ j < n, ¬ own mm (pageAt start j))
    (held : W s) :
    Runs (meter rs) (anonMmap rs mm start n prot user) (n * 5) s fun _ s' => W s' := by
  unfold anonMmap
  refine .step (panicIf_eq (not_not.mpr aligned)) (Nat.le_refl _) ?_
  refine .bind (k := 0) ((carried.mapFresh_loop_held start n tables met few (followed_pageFlags prot user)
    free held).imp ?_) fun _ => .bind .get fun _ => .bind (.modify fun _ out => out) fun _ =>
      sticky_mmInsertVma ofFrames_meter
  intro _ t held₁ met₁
  refine .of_get (.of_modify (Nat.le_refl _) ?_)
  have added : mmInsertVma mm t.nvmas { t with
      vmas := Function.update t.vmas t.nvmas (anonArea start n prot user), nvmas := t.nvmas + 1 } =
      .ok ((), t.addArea mm (anonArea start n prot user)) := rfl
  refine .done added ?_ ?_ (carried.records t _ (addArea_frames _) (fun _ => insertVma_p4) held₁)
  · simp only [meter, Vmm.addArea, insertVma_ranOut] at met₁ ⊢
    exact met₁
  · simp only [meter, addArea_frames]
    exact Nat.le_refl _

theorem mapRange_loop_held (tables : Tables rs s own none none) (met : ¬ s.ranOut = true)
    (range : Range start n) (frames : Range phys n) (followed : Followed flags)
    (free : ∀ j < n, ¬ own mm (pageAt start j)) (held : W s) :
    Runs (meter rs) (forTo n fun pg => do
      let off ← intOffset pg
      vmmMapPage rs mm (add64 start off) (add64 phys off) flags) (n * 4) s fun _ s' => W s' := by
  have bound := range.small
  refine .forTo_along _ _ met (fun i le => mapRange_loop tables met (range.mono le)
    (frames.mono le) followed.small followed.nonzero fun j lt => free j (by omega)) held
    (fun i lt t met done held => ?_) fun _ => .bind sticky_intOffset fun _ => sticky_vmmMapPage
  refine .step (intOffset_eq (by omega)) (Nat.le_refl _) ?_
  refine carried.page done.tables met followed ?_ held
  exact Nat.or_lt_two_pow (Nat.mod_lt _ (by decide)) (Nat.lt_trans followed.small (by decide))

/-- A loop that shares pages of another space. -/
theorem share_loop_held {src : Nat} (tables : Tables rs s own none none) (met : ¬ s.ranOut = true)
    (ne : src ≠ mm) (range : Range start n) (followed : Followed flags)
    (present : ∀ k < n, s.slot src (pageAt start k) ≠ 0)
    (flagged : ∀ k < n, s.slot src (pageAt start k) % pageSize = flags)
    (free : ∀ j < n, ¬ own mm (pageAt start j)) (held : W s) :
    Runs (meter rs) (forTo n fun pg => do
      let off ← intOffset pg
      let phys := (← get).leafEntry src (add64 start off)
      vmmMapPage rs mm (add64 start off) phys flags) (n * 4) s fun _ s' => W s' := by
  have bound := range.small
  refine .forTo_along _ _ met (fun i le => share_loop tables met ne (range.mono le)
    followed.small (fun j lt => present j (by omega)) (fun j lt => flagged j (by omega))
    fun j lt => free j (by omega)) held (fun i lt t met ⟨done, _⟩ held => ?_) fun _ =>
      .bind sticky_intOffset fun _ => .bind .get fun _ => sticky_vmmMapPage
  refine .step (intOffset_eq (by omega)) (Nat.le_refl _) (.of_get ?_)
  refine carried.page done.tables met followed ?_ held
  exact Nat.or_lt_two_pow (load_lt _ _ 8) (Nat.lt_trans followed.small (by decide))

/-! ## mm_new and mm_dupe -/

section Share

variable {a : Nat} (kernel : KernelSpace s) (new : mm ≠ 0) (unowned : ∀ v, ¬ own mm v)

include kernel new unowned

/-- `mm_share_vma` of one of the kernel's areas. -/
theorem mmShareVma_held (ha : a < 3) (met : ¬ t.ranOut = true) (done : Building rs s t own mm a)
    (held : W t) :
    Runs (meter rs) (mmShareVma rs mm 0 a) ((kernelShape a).pages * 4) t fun _ t' =>
      W t' := by
  have shape : (t.vmas a).shape = kernelShape a := by
    rw [done.shapes a (Nat.lt_of_lt_of_le ha kernel.named.2.1)]
    exact kernel.shape a ha
  obtain ⟨_, start, pages, user, prot⟩ := VmArea.shape_inj (shape.trans (kernelShape_shape a).symm)
  have mapped : ∀ k < (kernelShape a).pages, t.slot 0 (pageAt (kernelShape a).start k) ≠ 0 ∧
      t.slot 0 (pageAt (kernelShape a).start k) % pageSize = 3 := by
    intro k lt
    rw [done.slots 0 _ (pageAt_length _ k).le new.symm]
    exact kernel.mapped a ha _ ⟨k, lt, rfl⟩
  have flags : pageFlags (kernelShape a).prot (kernelShape a).user = 3 := by
    unfold kernelShape
    split <;> rfl
  unfold mmShareVma
  refine .of_get ?_
  dsimp only
  rw [start, pages, user, prot, flags]
  refine .bind (k := 0) ((carried.share_loop_held done.tables met new.symm (kernelShape_range a)
    ⟨by decide, by decide⟩ (fun k lt => (mapped k lt).1) (fun k lt => (mapped k lt).2)
    (fun _ _ => unowned _) held).imp ?_) fun _ => sticky_mmInsertVma ofFrames_meter
  intro _ t' held' met'
  have added : mmInsertVma mm a t' = .ok ((), t'.insertVma mm a) := rfl
  refine .done added ?_ ?_ (carried.records t' _ insertVma_frames (fun _ => insertVma_p4) held')
  · simp only [meter, insertVma_ranOut] at met' ⊢
    exact met'
  · simp only [meter, insertVma_frames]
    exact Nat.le_refl _

/-- `mm_init`. -/
theorem mmInit_held (met : ¬ s.ranOut = true) (start : Building rs s s own mm 0)
    (held : W s) :
    Runs (meter rs) (mmInit rs mm) 6656 s fun _ s' => W s' := by
  have node : ∀ a < 3, (s.lis a).vma = a ∧ (s.lis a).next = ([0, 1, 2].drop (a + 1)).head? := by
    obtain ⟨zero, one, two⟩ := kernel.lis
    intro a ha
    obtain rfl | rfl | rfl : a = 0 ∨ a = 1 ∨ a = 2 := by omega
    · rw [zero]
      exact ⟨rfl, rfl⟩
    · rw [one]
      exact ⟨rfl, rfl⟩
    · rw [two]
      exact ⟨rfl, rfl⟩
  unfold mmInit forAreas
  refine .of_get ?_
  rw [show (s.mms 0).vmAreas = [0, 1, 2].head? from kernel.head]
  refine (walkAreas_runs (fun ls t => (∃ a ≤ 3, ls = [0, 1, 2].drop a ∧ Building rs s t own mm a) ∧
    W t) (fun l => (kernelShape l).pages * 4) (fun _ => sticky_mmShareVma)
    (fun _ => .pure ()) ?_ kernel.named.2.2 met ⟨⟨0, by decide, rfl, start⟩, held⟩).imp
    fun _ _ done => done.2
  rintro l ls t met ⟨⟨a, le, nodes, done⟩, held⟩
  have lt : a < 3 := by
    rcases Nat.lt_or_eq_of_le le with lt | rfl
    · exact lt
    · cases nodes
  obtain ⟨rfl, rfl⟩ : l = a ∧ ls = [0, 1, 2].drop (a + 1) := by
    obtain rfl | rfl | rfl : a = 0 ∨ a = 1 ∨ a = 2 := by omega
    all_goals exact List.cons.inj nodes
  obtain ⟨vma, next⟩ := node l lt
  have named := kernel.named
  rw [done.nodes l (by omega), vma]
  refine ((mmShareVma_runs kernel new unowned lt met done).and
    (carried.mmShareVma_held kernel new unowned lt met done held)).imp ?_
  intro _ t' ⟨done', held'⟩
  rw [done'.nodes l (by omega)]
  exact ⟨next, fun met' => .pure met' ⟨⟨l + 1, lt, rfl, done'⟩, held'⟩⟩

end Share

end Loops

/-- `mm_new`. -/
theorem mmNew_held (carried : Carried rs s.nmms W) (spaces : Spaces rs s lists areas)
    (met : ¬ s.ranOut = true) (held : W s) : Runs (meter rs) (mmNew rs) 6656 s fun _ s' => W s' := by
  have nonzero : s.nmms ≠ 0 := Nat.ne_of_gt spaces.kernel.named.1
  have kernel : KernelSpace s.withMm := by
    refine spaces.kernel.congr ?_ (fun _ _ => rfl) (fun _ _ => rfl)
      (fun v _ => spaces.withMm_slot 0 v) ⟨Nat.le_succ _, Nat.le_refl _, Nat.le_refl _⟩
    simp [Vmm.withMm, Function.update_of_ne nonzero.symm]
  have start : W s.withMm := carried.records s _ rfl spaces.withMm_p4 held
  unfold mmNew
  refine .of_get (.of_modify (Nat.le_refl _) ?_)
  refine .bind (k := 0) ((carried.mmInit_held kernel nonzero spaces.unowned met spaces.building start).imp ?_)
    fun _ => .pure _
  intro _ s' held' met'
  exact .pure met' held'

section Dupe

variable {done : List Nat} {r : Nat} {lists' areas' : Nat → List Nat} (carried : Carried rs s.nmms W)
  (spaces : Spaces rs s lists areas) (live : s.Live mm)

include carried spaces live

/-- `mm_dupe` at a regular area. -/
theorem dupeArea_regular_held (met : ¬ t.ranOut = true)
    (copying : Copying rs s t lists areas lists' areas' mm done) (mem : r ∈ areas mm)
    (out : r ∉ done) (sub : ∀ d ∈ done, d ∈ areas mm) (held : W t) :
    Runs (meter rs) (dupeArea rs s.nmms mm r) ((s.vmas r).pages * 5) t fun _ t' => W t' := by
  have space := spaces.space mm live
  have regular := space.regular r mem
  have named := space.named r mem
  have parent : mm ≠ s.nmms := Nat.ne_of_lt live.2.1
  have new : t.Live s.nmms := (copying.live_iff spaces).mpr (.inr rfl)
  have free : ∀ a ∈ areas' s.nmms, ∀ k < (s.vmas r).pages,
      ¬ InArea (t.vmas a) (pageAt (s.vmas r).start k) := fun a memA k lt inside =>
    copying.next_apart spaces live mem out sub ⟨a, memA, inside⟩ ⟨k, lt, rfl⟩
  have unowned := unowned_pages new free
  unfold dupeArea
  refine .of_get ?_
  dsimp only
  rw [copying.areas r named.2 named.1, regular.type]
  refine .bind (k := 0) (((anonMmap_runs copying.spaces met new regular.anon free).and
    (carried.anonMmap_held copying.spaces.tables met regular.range.aligned regular.range.small unowned
      held)).imp ?_) fun _ => sticky_mmCopyFromMm ofFrames_meter
  intro _ t₁ ⟨⟨frame, mapped⟩, held₁⟩ met₁
  have inside : ∀ j < (s.vmas r).pages, InArea (s.vmas r) (pageAt (s.vmas r).start j) :=
    fun j lt => ⟨j, lt, rfl⟩
  refine carried.copy mapped.spaces.tables met₁ parent regular.range (fun j lt => ?_)
    (fun j lt => ?_) (fun j lt => ?_) (fun j lt => ?_) held₁
  · rw [mapped.owned]
    exact .inl ((copying.owns_iff spaces parent).mpr (.inr ⟨live, r, mem, inside j lt⟩))
  · rw [mapped.owned]
    exact .inr ⟨rfl, j, lt, rfl⟩
  · rw [mapped.slots mm _ (pageAt_length _ j).le parent, copying.slots mm _ (pageAt_length _ j).le parent]
    exact (space.mapped r mem _ (inside j lt)).1
  · rw [mapped.here j lt]
    exact or_ne_zero (Nat.ne_of_gt (mapped.isFrame j lt).pos)

/-- `mm_dupe` at a node, when the nodes `pre` before it are done. -/
theorem dupeArea_held {l : Nat} {pre ls : List Nat} (met : ¬ t.ranOut = true)
    (split : lists mm = pre ++ l :: ls) (copying : Copying rs s t lists areas lists' areas' mm
      ((s.vmasOf pre).filter (3 ≤ ·)).reverse) (held : W t) :
    Runs (meter rs) (dupeArea rs s.nmms mm (s.lis l).vma)
      (if 3 ≤ (s.lis l).vma then (s.vmas (s.lis l).vma).pages * 5 else 0) t fun _ t' =>
      W t' := by
  have space := spaces.space mm live
  rw [split] at space
  by_cases regular : 3 ≤ (s.lis l).vma
  · have single : s.vmasOf [l] ⊆ areas mm ++ [2, 1, 0] := by
      apply space.vmasOf_subset
      simp
    have name : (s.lis l).vma ∈ areas mm ++ [2, 1, 0] := single List.mem_cons_self
    have earlier : s.vmasOf pre ⊆ areas mm ++ [2, 1, 0] :=
      space.vmasOf_subset (List.subset_append_left _ _)
    have out : (s.lis l).vma ∉ ((s.vmasOf pre).filter (3 ≤ ·)).reverse := fun here =>
      space.vma_once.1 (List.mem_of_mem_filter (List.mem_reverse.mp here))
    have sub : ∀ d ∈ ((s.vmasOf pre).filter (3 ≤ ·)).reverse, d ∈ areas mm := by
      intro d here
      obtain ⟨before, le⟩ := List.mem_filter.mp (List.mem_reverse.mp here)
      exact (space.mem_regs_iff (earlier before)).mpr (by simpa using le)
    rw [if_pos regular]
    exact carried.dupeArea_regular_held spaces live met copying ((space.mem_regs_iff name).mpr regular) out sub
      held
  · rw [if_neg regular]
    have static : (s.lis l).vma < 3 := by omega
    have named := spaces.kernel.named
    have shape : (t.vmas (s.lis l).vma).shape = kernelShape (s.lis l).vma := by
      rw [copying.shapes _ (by omega)]
      exact spaces.kernel.shape _ static
    have type : (t.vmas (s.lis l).vma).shape.type = (kernelShape (s.lis l).vma).type :=
      congrArg VmArea.type shape
    rw [VmArea.shape] at type
    unfold dupeArea
    refine .of_get ?_
    dsimp only
    rw [type]
    obtain zero | one | two : (s.lis l).vma = 0 ∨ (s.lis l).vma = 1 ∨ (s.lis l).vma = 2 := by omega
    · rw [zero]
      exact .pure met held
    · rw [one]
      exact .pure met held
    · rw [two]
      exact .pure met held

/-- `mm_dupe`. -/
theorem mmDupe_held (met : ¬ s.ranOut = true) (held : W s) :
    Runs (meter rs) (mmDupe rs mm) (6656 + ((areas mm).map fun r => (s.vmas r).pages * 5).sum) s
      fun _ s' => W s' := by
  have space := spaces.space mm live
  have parent : mm ≠ s.nmms := Nat.ne_of_lt live.2.1
  unfold mmDupe
  refine .bind (((mmNew_runs spaces met).and (carried.mmNew_held spaces met held)).imp ?_) fun _ =>
    .bind (sticky_forAreas (fun _ => sticky_dupeArea) fun _ => .pure ()) fun _ => .pure _
  rintro new t ⟨⟨name, born⟩, held₁⟩ met₁
  subst name
  have start : Copying rs s t lists areas _ _ mm [] := born.copying mm
  have fuel : (lists mm).length ≤ t.nlis := by
    have old := length_le_of_nodup space.listed.nodup fun l mem => (space.listed.bound l mem).2
    exact Nat.le_trans old born.more.1
  have head : (t.mms mm).vmAreas = (lists mm).head? := (born.heads mm parent).trans space.listed.head
  unfold forAreas
  rw [← space.sum_regs, ← Nat.add_zero (List.sum _)]
  refine .bind (k := 0) (.of_get ?_) fun _ => .pure _
  rw [head]
  refine (walkAreas_runs (fun ls t => ∃ pre lists' areas', lists mm = pre ++ ls ∧
      Copying rs s t lists areas lists' areas' mm ((s.vmasOf pre).filter (3 ≤ ·)).reverse ∧
        W t)
    (fun l => if 3 ≤ (s.lis l).vma then (s.vmas (s.lis l).vma).pages * 5 else 0)
    (fun _ => sticky_dupeArea) (fun _ => .pure ()) ?_ fuel met₁ ⟨[], _, _, rfl, start, held₁⟩).imp ?_
  · rintro l ls u met₂ ⟨pre, lists', areas', split, copying, held⟩
    have node : l ∈ lists mm := by
      rw [split]
      exact List.mem_append_right pre List.mem_cons_self
    have bound := (space.listed.bound l node).2
    have next := space.listed.next split
    rw [copying.nodes l bound]
    refine ((dupeArea_node spaces live met₂ split copying).and
      (carried.dupeArea_held spaces live met₂ split copying held)).imp ?_
    rintro _ u' ⟨⟨lists₂, areas₂, copying'⟩, held'⟩
    rw [copying'.nodes l bound]
    refine ⟨next, fun met₃ => .pure met₃ ⟨pre ++ [l], lists₂, areas₂, ?_, copying', held'⟩⟩
    rw [split, List.append_assoc]
    rfl
  · rintro _ u ⟨_, _, _, _, _, held'⟩ met₂
    exact .pure met₂ held'

end Dupe

/-! ## kernel_mm_init -/

section Boot

variable {own' : Nat → Path → Prop} {a b : Nat}

/-- Another kernel area leaves the entries of one alone. -/
theorem direct_kept {f : VmArea → VmArea} (ha : a < 3) (hb : b < 3) (ne : a ≠ b)
    (direct : Direct a (t.slot 0)) (pages : Paged rs (t.modifyVma b f) s' own own' b) :
    Direct a (s'.slot 0) := by
  obtain ⟨_, _, paged, _⟩ := pages
  intro k lt
  have here : InArea (kernelShape a) (pageAt (kernelShape a).start k) := ⟨k, lt, rfl⟩
  have before : (t.modifyVma b f).slot 0 (pageAt (kernelShape a).start k) =
    t.slot 0 (pageAt (kernelShape a).start k) := slot_records rfl (fun _ => rfl) 0 _
  rw [paged.others 0 _ rfl, before]
  · exact direct k lt
  · intro both
    exact ne (kernelShape_apart ha hb here both.2)

/-- A stage of `kernel_mm_init`, with what is known of the state. -/
theorem booting_stage {f : VmArea → VmArea} {body rest : Op Unit} {k : Nat} {Q E : Vmm → Prop}
    (ha : a < 3) (record : f {} = kernelShape a) (sticky : Sticky (meter rs) rest)
    (node : ∀ t, E t → E (t.modifyLi a fun _ => kernelLi a)) (booting : Booting rs t own a)
    (pages : Runs (meter rs) body n (t.modifyVma a f) fun _ t' =>
      Paged rs (t.modifyVma a f) t' own own' a ∧ E t')
    (later : ∀ t', ¬ t'.ranOut = true → Booting rs t' own' (a + 1) → E t' →
      Runs (meter rs) rest k t' fun _ s' => Q s') :
    Runs (meter rs) (do
      modify (·.modifyVma a f)
      body
      modify (·.modifyLi a fun _ => kernelLi a)
      rest) (n + k) t fun _ s' => Q s' := by
  refine .of_modify (Nat.le_refl _) (.bind (pages.imp ?_) fun _ => .bind (.modify fun _ out => out)
    fun _ => sticky)
  intro _ t' ⟨⟨tables, val, paged, flags⟩, known⟩ met
  exact .of_modify (Nat.le_refl _) (later _ met (booting.next ha record paged flags tables)
    (node t' known))

variable (carried : Carried rs 0 W)

include carried

theorem vmmMapRange_held (a : Nat) (tables : Tables rs s own none none) (met : ¬ s.ranOut = true)
    (free : ∀ k v, ¬ own k v) (held : W s) :
    Runs (meter rs) (vmmMapRange rs 0 (kernelShape a).start 0 (kernelShape a).pages
      (pageProtRead ||| pageProtWrite) false) ((kernelShape a).pages * 4) s fun _ s' => W s' := by
  have range := kernelShape_range a
  have low : Range 0 (kernelShape a).pages := by
    refine ⟨rfl, ?_, range.small⟩
    have := range.fits
    omega
  have flags : pageFlags (pageProtRead ||| pageProtWrite) false = 3 := rfl
  have aligned := range.aligned
  unfold vmmMapRange
  rw [flags]
  refine .step (panicIf_eq ?_) (Nat.le_refl _) ?_
  · rintro (high | zero)
    · exact high aligned
    · exact zero rfl
  · exact carried.mapRange_loop_held tables met range low ⟨by decide, by decide⟩ (fun j _ => free 0 _)
      held

/-- `kernel_mm_init`, with its direct mappings. -/
theorem kernelMmInit_held (m : Bytes) (start : W (Vmm.boot rs m)) :
    Runs (meter rs) (kernelMmInit rs 0) 6784 (Vmm.boot rs m) fun _ s =>
      (Direct 0 (s.slot 0) ∧ Direct 1 (s.slot 0)) ∧ W s := by
  have booting : Booting rs ((Vmm.boot rs m).modifyMm 0 ({ · with vmAreas := some 0 }))
    (fun _ _ => False) 0 := .start
  have met : ¬ ((Vmm.boot rs m).modifyMm 0 ({ · with vmAreas := some 0 })).ranOut = true := by
    intro out
    cases out
  have total : 6784 = (kernelShape 0).pages * 4 +
    ((kernelShape 1).pages * 4 + (kernelBrkPages * 5 + 0)) := by decide
  have mark : ∀ {b : Nat} {li : VmAreaLi}, Sticky (meter rs)
      (modify (·.modifyLi b fun _ => li) : Op Unit) := .modify fun _ out => out
  have record : ∀ {b : Nat} {f : VmArea → VmArea}, Sticky (meter rs)
      (modify (·.modifyVma b f) : Op Unit) := .modify fun _ out => out
  have heap : Sticky (meter rs) (forTo kernelBrkPages (mapFresh rs 0 kernelBrkStart
      (protToX86Prot (pageProtRead ||| pageProtWrite) ||| pagePresent))) :=
    .forTo fun _ => sticky_mapFresh
  have node : ∀ (t : Vmm) (b : Nat), (t.modifyLi b fun _ => kernelLi b).slot 0 = t.slot 0 :=
    fun t b => funext fun p => slot_records rfl (fun _ => rfl) 0 p
  have noded : ∀ (t : Vmm) (b : Nat), W t → W (t.modifyLi b fun _ => kernelLi b) :=
    fun t b => carried.records t _ rfl fun _ => rfl
  have recorded : ∀ (t : Vmm) (b : Nat) (f : VmArea → VmArea), W t → W (t.modifyVma b f) :=
    fun t b f => carried.records t _ rfl fun _ => rfl
  have held : W ((Vmm.boot rs m).modifyMm 0 ({ · with vmAreas := some 0 })) := by
    refine carried.records (Vmm.boot rs m) _ rfl (fun k => ?_) start
    simp only [Vmm.modifyMm, Function.update_apply]
    split <;> rfl
  unfold kernelMmInit
  rw [total]
  refine .of_modify (Nat.le_refl _) ?_
  refine booting_stage (E := fun t => Direct 0 (t.slot 0) ∧ W t) (by decide) rfl ?_
    (fun t both => ⟨node t 0 ▸ both.1, noded t 0 both.2⟩) booting
    (((vmmMapRange_paged 0 (booting.recorded _) met fun _ _ no => no).and (carried.vmmMapRange_held 0
      (booting.recorded _) met (fun _ _ no => no) (recorded _ _ _ held))).imp fun _ _ done =>
        ⟨done.1.1, done.1.2, done.2⟩) fun t₁ met₁ text known => ?_
  · exact .bind record fun _ => .bind sticky_vmmMapRange fun _ => .bind mark fun _ =>
      .bind record fun _ => .bind heap fun _ => mark
  obtain ⟨text₁, held₁⟩ := known
  refine booting_stage (E := fun t => (Direct 0 (t.slot 0) ∧ Direct 1 (t.slot 0)) ∧ W t) (by decide) rfl ?_
    (fun t both => ⟨node t 1 ▸ both.1, noded t 1 both.2⟩) text
    (((vmmMapRange_paged 1 (text.recorded _) met₁ fun _ _ no => no).and (carried.vmmMapRange_held 1
      (text.recorded _) met₁ (fun _ _ no => no) (recorded _ _ _ held₁))).imp fun _ _ done =>
        ⟨done.1.1, ⟨direct_kept (by decide) (by decide) (by decide) text₁ done.1.1, done.1.2⟩, done.2⟩)
    fun t₂ met₂ phys known => ?_
  · exact .bind record fun _ => .bind heap fun _ => mark
  obtain ⟨direct₂, held₂⟩ := known
  refine .of_modify (Nat.le_refl _) ?_
  have flags : Followed (protToX86Prot (pageProtRead ||| pageProtWrite) ||| pagePresent) := by
    constructor
    all_goals decide
  have tables := phys.recorded fun v => { v with
    prot := pageProtRead ||| pageProtWrite, user := false, type := .kernelHeap,
    start := kernelBrkStart, pages := kernelBrkPages }
  have pages := kernelHeap_paged tables met₂ fun _ _ no => no
  have kept := carried.mapFresh_loop_held kernelBrkStart kernelBrkPages tables met₂ (by decide) flags
    (fun _ _ no => no) (recorded _ _ _ held₂)
  refine .bind ((pages.and kept).imp ?_) fun _ => mark
  rintro _ t₃ ⟨heaped, held₃⟩ met₃
  refine .done rfl met₃ (Nat.le_refl _) ?_
  refine ⟨?_, noded t₃ 2 held₃⟩
  show Direct 0 ((t₃.modifyLi 2 fun _ => kernelLi 2).slot 0) ∧
    Direct 1 ((t₃.modifyLi 2 fun _ => kernelLi 2).slot 0)
  rw [node]
  exact ⟨direct_kept (by decide) (by decide) (by decide) direct₂.1 heaped,
    direct_kept (by decide) (by decide) (by decide) direct₂.2 heaped⟩

end Boot

end Carried

end Blackcomb.Mm
