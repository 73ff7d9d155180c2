import Blackcomb.Laws.Mm.Carried

/-!
# Memory beside the regions

What `vmm.c` and `pmm.c` write are bitmaps, tables and pages, all of them in the regions of the memory
map. So memory beside the regions, the kernel image and the tables of the boot with it, is as it was
before `pmm_init` in every state of a run (`memory_spared`).

**What it does not establish.** The kernel's variables, `kernel_mm` and its areas, `kernel_brk` and
the table of regions, are kept beside physical memory here, and so is the stack: that they are
written is no contradiction. Programs and devices write elsewhere, too.
-/

namespace Blackcomb.Mm

open Memory Run Budget Ownership Bitmap

variable {rs : RegionTable} {s s' t s₁ : Vmm} {own : Nat → Path → Prop} {spare : Option Nat}
  {mm k n r virt phys flags start f a : Nat} {p : Path} {lists areas : Nat → List Nat} {m m' : Bytes}

/-- An address in no region. -/
def Outside (rs : RegionTable) (a : Nat) : Prop := ∀ r ∈ rs.regions, a < r.start ∨ r.stop ≤ a

/-- Memory beside the regions is as given. -/
def Spared (rs : RegionTable) (m : Bytes) (s : Vmm) : Prop := ∀ a, Outside rs a → s.frames.mem a = m a

/-- What is spared is so as long as the bytes outside the frames are kept. -/
theorem Spared.congr (spared : Spared rs m s)
    (same : ∀ a, Outside rs a → s'.frames.mem a = s.frames.mem a) : Spared rs m s' :=
  fun a out => (same a out).trans (spared a out)

/-- Records are not bytes. -/
theorem Spared.records (spared : Spared rs m s) (frames : s'.frames = s.frames) : Spared rs m s' :=
  spared.congr fun _ _ => by rw [frames]

/-- A frame is in a region. -/
theorem IsFrame.apart_outside (frame : IsFrame rs f) (out : Outside rs a) :
    a < f ∨ f + pageSize ≤ a := by
  obtain ⟨r, mem, i, _, lt, rfl⟩ := frame
  have := out r mem
  simp only [Region.stop, pageSize] at *
  omega

/-! ## Frames -/

/-- A bit of a region is in the region. -/
theorem byte_outside {r : Region} {i : Nat} (mem : r ∈ rs.regions) (lt : i < r.pages)
    (out : Outside rs a) : a ≠ r.start + i / 8 := by
  have := out r mem
  simp only [Region.stop, pageSize] at this
  omega

/-- The allocator sets a bit of a bitmap and clears a frame, both inside. -/
theorem allocFrom_outside (m : Bytes) (qs : List Region) (sub : ∀ r ∈ qs, r ∈ rs.regions)
    (out : Outside rs a) : (allocFrom m qs).2 a = m a := by
  induction qs generalizing m with
  | nil => rfl
  | cons r qs ih =>
    have rest := fun m => ih m fun q mem => sub q (List.mem_cons_of_mem r mem)
    rw [allocFrom, findFreePage]
    rcases findFreePageFrom_spec m r 0 r.pages with ⟨none, _⟩ | ⟨j, _, lt, _, found⟩
    · rw [none]
      exact rest m
    · have bit : regionSetBit m r j a = m a :=
        setBit_outside (byte_outside (sub r List.mem_cons_self) (by omega) out)
      rw [found]
      dsimp only
      split
      · exact bit
      · exact (rest _).trans bit

/-- Taking a frame spares everything outside. -/
theorem allocFrame_spared (inv : FramesInv rs s.frames) (met : ¬ s.ranOut = true)
    (spared : Spared rs m s) : Runs (meter rs) (allocFrame rs) 1 s fun _ s' => Spared rs m s' := by
  refine (allocFrame_runs inv met).ran.imp fun f s' ⟨ran, alloced⟩ => ?_
  obtain ⟨rfl, rfl⟩ := Prod.mk.inj (Except.ok.inj (allocFrame_eq.symm.trans ran))
  refine spared.congr fun a out => ?_
  have apart : a < (allocFrom s.frames.mem rs.regions).1 ∨
      (allocFrom s.frames.mem rs.regions).1 + pageSize ≤ a := alloced.frame.apart_outside out
  show memset _ _ _ _ a = _
  rw [memset_apply, if_neg (by omega)]
  exact allocFrom_outside s.frames.mem rs.regions (fun _ mem => mem) out

/-- Giving a frame back clears a bit of a bitmap. -/
theorem freeFrame_outside (inv : FramesInv rs s.frames) (mem : f ∈ s.frames.taken)
    (ran : freeFrame rs f s = .ok ((), s₁)) (out : Outside rs a) :
    s₁.frames.mem a = s.frames.mem a := by
  obtain ⟨r, hr, i, low, lt, rfl⟩ := inv.frames f mem
  have call : freeFrame rs (r.start + i * pageSize) s = .ok ((), { s with
      frames := ⟨regionUnsetBit s.frames.mem r i, s.frames.taken.erase (r.start + i * pageSize)⟩
      pmmFrees := (r.start + i * pageSize, true) :: s.pmmFrees }) := by
    simp only [freeFrame, Frames.step, mem, decide_true, pmmFree_spec hr low lt]
    rfl
  obtain ⟨_, rfl⟩ := Prod.mk.inj (Except.ok.inj (call.symm.trans ran))
  exact clearBit_outside (byte_outside hr lt out)

/-! ## Tables -/

/-- An entry lies in its table, and so in a frame. -/
theorem setEntry_spared (layout : Layout rs s) (here : s.slot mm p ≠ 0) (short : p.length ≤ 3)
    {i : Fin 512} {e : Nat} (spared : Spared rs m s) : Spared rs m (s.setEntry mm p i e) := by
  refine spared.congr fun a out => ?_
  show setEntryAt s.frames.mem (s.tableAt mm p) i e a = _
  rw [layout.tableAt_eq here]
  exact setEntryAt_outside ((layout.frame mm p short here).apart_outside out)

/-- Building the top table spares everything outside. -/
theorem growRoot_spared (tables : Tables rs s own spare none) (met : ¬ s.ranOut = true)
    (spared : Spared rs m s) : Runs (meter rs) (growRoot rs mm) 1 s fun _ s' => Spared rs m s' := by
  unfold growRoot
  refine .of_get ?_
  split
  · refine .bind (k := 0) ((allocFrame_spared tables.frames met spared).imp ?_)
      fun _ => .modify fun _ out => out
    intro f s₁ spared₁ met₁
    exact .done rfl met₁ (Nat.le_refl _) (spared₁.records rfl)
  · exact .pure met spared

/-- Building a table spares everything outside. -/
theorem growTable_spared {i : Fin 512} (tables : Tables rs s own spare (some (mm, p)))
    (met : ¬ s.ranOut = true) (here : s.slot mm p ≠ 0) (short : p.length ≤ 2)
    (spared : Spared rs m s) :
    Runs (meter rs) (growTable rs mm p i flags) 1 s fun _ s' => Spared rs m s' := by
  unfold growTable
  refine .of_get ?_
  rw [tables.layout.getEntry_eq here]
  split
  · refine .bind (k := 0) (((allocFrame_runs tables.frames met).and
      (allocFrame_spared tables.frames met spared)).imp ?_) fun _ => .modify fun _ out => out
    intro f s₁ ⟨alloced, spared₁⟩ met₁
    have same : ∀ k p, p.length ≤ 4 → s₁.slot k p = s.slot k p := fun k p => tables.slot_alloced alloced
    have layout : Layout rs s₁ := tables.layout.congr (fun k => by rw [alloced.state]) same
    have here₁ : s₁.slot mm p ≠ 0 := by rwa [same mm p (by omega)]
    exact .done rfl met₁ (Nat.le_refl _) (setEntry_spared layout here₁ (by omega) spared₁)
  · exact .pure met spared

/-- Mapping a page spares everything outside. -/
theorem vmmMapPage_spared (tables : Tables rs s own spare none) (met : ¬ s.ranOut = true)
    (small : flags < pageSize) (spared : Spared rs m s) :
    Runs (meter rs) (vmmMapPage rs mm virt phys flags) 4 s fun _ s' => Spared rs m s' := by
  unfold vmmMapPage
  refine .bind (n := 1) (k := 3) (((growRoot_runs tables met).and (growRoot_spared tables met
    spared)).imp ?_) fun _ =>
    .bind sticky_growTable fun _ => .bind sticky_growTable fun _ => .bind sticky_growTable fun _ =>
      .modify fun _ out => out
  intro _ s₁ ⟨⟨_, _, tables₁, here₁, _⟩, spared₁⟩ met₁
  refine .bind (n := 1) (k := 2) (((growTable_runs tables₁ met₁ here₁ (by decide) small).and
    (growTable_spared tables₁ met₁ here₁ (by decide) spared₁)).imp ?_) fun _ =>
    .bind sticky_growTable fun _ => .bind sticky_growTable fun _ => .modify fun _ out => out
  intro _ s₂ ⟨⟨_, _, tables₂, here₂, _⟩, spared₂⟩ met₂
  refine .bind (n := 1) (k := 1) (((growTable_runs tables₂ met₂ here₂ (Nat.le_succ 1) small).and
    (growTable_spared tables₂ met₂ here₂ (Nat.le_succ 1) spared₂)).imp ?_) fun _ =>
    .bind sticky_growTable fun _ => .modify fun _ out => out
  intro _ s₃ ⟨⟨_, _, tables₃, here₃, _⟩, spared₃⟩ met₃
  refine .bind (n := 1) (k := 0) (((growTable_runs tables₃ met₃ here₃ (Nat.le_refl 2) small).and
    (growTable_spared tables₃ met₃ here₃ (Nat.le_refl 2) spared₃)).imp ?_) fun _ =>
    .modify fun _ out => out
  intro _ s₄ ⟨⟨_, _, tables₄, here₄, _⟩, spared₄⟩ met₄
  exact .done rfl met₄ (Nat.le_refl _)
    (setEntry_spared tables₄.layout here₄ (Nat.le_refl 3) spared₄)

/-! ## Unmapping -/

/-- Dropping a table spares everything outside. -/
theorem dropTable_spared {i : Fin 512} (tables : Tables rs s own spare (some (mm, i :: p)))
    (met : ¬ s.ranOut = true) (here : s.slot mm (i :: p) ≠ 0) (short : p.length ≤ 2)
    (spared : Spared rs m s) :
    Runs (meter rs) (dropTable rs mm p i) 0 s fun _ s' => Spared rs m s' := by
  have above : s.slot mm p ≠ 0 := Radix.slot_above here
  have mem := tables.exclusive.handed (some (mm, i :: p)) _
    (held_eq_some.mpr ⟨.inl (by simp only [List.length_cons]; omega), here, rfl⟩)
  obtain ⟨s₁, ran, freed, kept⟩ := freeFrame_spec tables.frames mem
  have same : ∀ k p, p.length ≤ 4 → s₁.slot k p = s.slot k p := fun k p => tables.slot_freed freed
  have layout : Layout rs s₁ := tables.layout.congr (fun k => by rw [freed.state]) same
  have above₁ : s₁.slot mm p ≠ 0 := by rwa [same mm p (by omega)]
  have spared₁ : Spared rs m s₁ := spared.congr fun _ => freeFrame_outside tables.frames mem ran
  unfold dropTable
  refine .of_get ?_
  rw [tables.layout.getEntry_eq above]
  refine .step ran kept (.done rfl ?_ (Nat.le_refl _) (setEntry_spared layout above₁ (by omega) spared₁))
  rw [freed.state]
  exact met

/-- Dropping the top table spares everything outside. -/
theorem dropRoot_spared (tables : Tables rs s own spare (some (mm, []))) (met : ¬ s.ranOut = true)
    (here : s.slot mm [] ≠ 0) (spared : Spared rs m s) :
    Runs (meter rs) (dropRoot rs mm) 0 s fun _ s' => Spared rs m s' := by
  have mem := tables.exclusive.handed (some (mm, [])) _
    (held_eq_some.mpr ⟨.inl (by decide), here, pageOf_eq (tables.root mm)⟩)
  obtain ⟨s₁, ran, freed, kept⟩ := freeFrame_spec tables.frames mem
  have spared₁ : Spared rs m s₁ := spared.congr fun _ => freeFrame_outside tables.frames mem ran
  unfold dropRoot
  refine .of_get (.step ran kept (.done rfl ?_ (Nat.le_refl _) (spared₁.records rfl)))
  rw [freed.state]
  exact met

/-- So does the test before, when what it guards does. -/
theorem whenEmpty_spared {rest : Op Unit} (tables : Tables rs s own spare (some (mm, p)))
    (met : ¬ s.ranOut = true) (here : s.slot mm p ≠ 0) (spared : Spared rs m s)
    (empty : (∀ j, s.slot mm (j :: p) = 0) → Runs (meter rs) rest 0 s fun _ s' => Spared rs m s') :
    Runs (meter rs) (whenEmpty mm p rest) 0 s fun _ s' => Spared rs m s' :=
  whenEmpty_runs tables met here (fun _ => spared) empty

/-- `vmm_unmap_page`. -/
theorem vmmUnmapPage_spared
    (tables : Tables rs (s.setEntry mm [p2Ndx virt, p3Ndx virt, p4Ndx virt] (p1Ndx virt) 0) own spare
      (some (mm, [p2Ndx virt, p3Ndx virt, p4Ndx virt]))) (met : ¬ s.ranOut = true)
    (here : (s.setEntry mm [p2Ndx virt, p3Ndx virt, p4Ndx virt] (p1Ndx virt) 0).slot mm
      [p2Ndx virt, p3Ndx virt, p4Ndx virt] ≠ 0)
    (spared : Spared rs m (s.setEntry mm [p2Ndx virt, p3Ndx virt, p4Ndx virt] (p1Ndx virt) 0)) :
    Runs (meter rs) (vmmUnmapPage rs mm virt) 0 s fun _ s' => Spared rs m s' := by
  unfold vmmUnmapPage
  refine .of_modify (Nat.le_refl _) ?_
  refine whenEmpty_spared tables met here spared fun empty => ?_
  refine .bind (n := 0) (k := 0) (((dropTable_runs tables met here (Nat.le_refl 2) empty).and
    (dropTable_spared tables met here (Nat.le_refl 2) spared)).imp ?_)
    fun _ => sticky_whenEmpty <| .bind sticky_dropTable fun _ => sticky_whenEmpty <|
      .bind sticky_dropTable fun _ => sticky_whenEmpty sticky_dropRoot
  intro _ s₁ ⟨⟨_, tables₁, here₁⟩, spared₁⟩ met₁
  refine whenEmpty_spared tables₁ met₁ here₁ spared₁ fun empty => ?_
  refine .bind (n := 0) (k := 0) (((dropTable_runs tables₁ met₁ here₁ (Nat.le_succ 1) empty).and
    (dropTable_spared tables₁ met₁ here₁ (Nat.le_succ 1) spared₁)).imp ?_)
    fun _ => sticky_whenEmpty <| .bind sticky_dropTable fun _ => sticky_whenEmpty sticky_dropRoot
  intro _ s₂ ⟨⟨_, tables₂, here₂⟩, spared₂⟩ met₂
  refine whenEmpty_spared tables₂ met₂ here₂ spared₂ fun empty => ?_
  refine .bind (n := 0) (k := 0) (((dropTable_runs tables₂ met₂ here₂ (Nat.zero_le 2) empty).and
    (dropTable_spared tables₂ met₂ here₂ (Nat.zero_le 2) spared₂)).imp ?_)
    fun _ => sticky_whenEmpty sticky_dropRoot
  intro _ s₃ ⟨⟨_, tables₃, here₃⟩, spared₃⟩ met₃
  exact whenEmpty_spared tables₃ met₃ here₃ spared₃ fun _ => dropRoot_spared tables₃ met₃ here₃ spared₃

/-- Unmapping a page whose frame stays spares everything outside. -/
theorem vmmUnmapPage_shared_spared (tables : Tables rs s own spare none) (met : ¬ s.ranOut = true)
    (there : s.slot mm (pathOf virt) ≠ 0) (shared : ¬ own mm (pathOf virt)) (spared : Spared rs m s) :
    Runs (meter rs) (vmmUnmapPage rs mm virt) 0 s fun _ s' => Spared rs m s' := by
  have above : s.slot mm [p2Ndx virt, p3Ndx virt, p4Ndx virt] ≠ 0 := Radix.slot_above there
  have edit := tables.setLeaf (i := p1Ndx virt) (e := 0) above rfl (by decide)
  exact vmmUnmapPage_spared (tables.unshareLeaf above rfl shared).2 met
    ((edit.above (by simp)).trans_ne above) (setEntry_spared tables.layout above (Nat.le_refl 3) spared)

/-- So does unmapping a page of a program. -/
theorem vmmUnmapPage_owned_spared (tables : Tables rs s own none none) (met : ¬ s.ranOut = true)
    (there : s.slot mm (pathOf virt) ≠ 0) (owned : own mm (pathOf virt)) (spared : Spared rs m s) :
    Runs (meter rs) (vmmUnmapPage rs mm virt) 0 s fun _ s' => Spared rs m s' := by
  have above : s.slot mm [p2Ndx virt, p3Ndx virt, p4Ndx virt] ≠ 0 := Radix.slot_above there
  have edit := tables.setLeaf (i := p1Ndx virt) (e := 0) above rfl (by decide)
  exact vmmUnmapPage_spared (tables.disownLeaf there rfl owned).2 met
    ((edit.above (by simp)).trans_ne above) (setEntry_spared tables.layout above (Nat.le_refl 3) spared)

/-! ## The calls that map pages -/

/-- A copy changes its destination only. -/
theorem memcpy_outside {dest src : Nat} (out : a < dest ∨ dest + n ≤ a) :
    memcpy m dest src n a = m a := by
  induction n with
  | zero => rfl
  | succ n ih => rw [memcpy, Function.update_of_ne (by omega), ih (by omega)]

/-- A page is written. -/
theorem writePage_spared {g : Nat} (tables : Tables rs s own spare none)
    (page : PageFrame s own spare g) (out : ∀ a, a < g ∨ g + pageSize ≤ a → m' a = s.frames.mem a)
    (spared : Spared rs m s) : Spared rs m (s.setMem m') :=
  spared.congr fun a outside => out a ((page.frame tables).apart_outside outside)

/-- Copying a space writes pages of the new one. -/
theorem mmCopyFromMm_spared {dst src : Nat} (tables : Tables rs s own none none)
    (met : ¬ s.ranOut = true) (ne : src ≠ dst) (range : Range start n)
    (ownSrc : ∀ j < n, own src (pageAt start j)) (ownDst : ∀ j < n, own dst (pageAt start j))
    (thereSrc : ∀ j < n, s.slot src (pageAt start j) ≠ 0)
    (thereDst : ∀ j < n, s.slot dst (pageAt start j) ≠ 0) (spared : Spared rs m s) :
    Runs (meter rs) (mmCopyFromMm dst src start n) 0 s fun _ s' => Spared rs m s' := by
  unfold mmCopyFromMm
  refine .step (panicIf_eq (not_not.mpr range.aligned)) (Nat.le_refl _) ?_
  refine Runs.mono (n := n * 0) (.forTo (fun k t => Copied rs s t own dst src start k ∧ Spared rs m t) met
    ⟨⟨tables, fun _ _ _ => rfl, fun _ lt => absurd lt (Nat.not_lt_zero _), fun _ _ _ _ _ _ => rfl,
      rfl⟩, spared⟩ (fun k lt t met ⟨done, spared⟩ => ?_) fun _ => .modify fun _ out => out)
    (by omega) fun _ _ both => both.2
  refine .done rfl met (Nat.le_refl _)
    ⟨done.round range lt ne tables ownSrc ownDst thereSrc thereDst, ?_⟩
  have same := done.slots dst (pageAt start k) (Nat.le_refl 4)
  have there : t.slot dst (pageAt start k) ≠ 0 := same.trans_ne (thereDst k lt)
  have phys : t.vmmGetPhys dst (add64 start (pageSize * k)) = pageOf (t.slot dst (pageAt start k)) := by
    rw [Nat.mul_comm, Vmm.vmmGetPhys, leafEntry_eq done.tables.layout _ there]
    rfl
  refine writePage_spared (g := pageOf (t.slot dst (pageAt start k))) done.tables
    (.inr ⟨dst, _, pageAt_length start k, ownDst k lt, there, rfl⟩) (fun a out => ?_) spared
  rw [phys]
  exact memcpy_outside out

/-- Mapping writes beside the regions nowhere. -/
theorem spared_carried (rs : RegionTable) (mm : Nat) (m : Bytes) : Carried rs mm (Spared rs m) := by
  refine ⟨fun s s' frames _ spared => spared.records frames, fun tables met spared =>
    allocFrame_spared tables.frames met spared, fun tables met followed _ spared =>
      vmmMapPage_spared tables met followed.small spared, ?_⟩
  intro s own src start n tables met ne range ownSrc ownDst thereSrc thereDst spared
  exact mmCopyFromMm_spared tables met ne range ownSrc ownDst thereSrc thereDst spared

/-! ## mm_free -/

/-- Unmapping an area of the kernel spares everything outside. -/
theorem unshare_loop_spared (tables : Tables rs s own none none) (met : ¬ s.ranOut = true)
    (range : Range start n) (present : ∀ k < n, s.slot mm (pageAt start k) ≠ 0)
    (free : ∀ j < n, ¬ own mm (pageAt start j)) (spared : Spared rs m s) :
    Runs (meter rs) (forTo n fun pg => do
      let off ← intOffset pg
      vmmUnmapPage rs mm (add64 start off)) (n * 0) s fun _ s' => Spared rs m s' := by
  have bound := range.small
  refine .forTo_along _ _ met (fun i le => unshare_loop tables met (range.mono le)
    (fun j lt => present j (by omega)) fun j lt => free j (by omega)) spared
    (fun k lt t met done spared => ?_) fun _ => .bind sticky_intOffset fun _ => sticky_vmmUnmapPage
  refine .step (intOffset_eq (by omega)) (Nat.le_refl _) ?_
  have there : t.slot mm (pageAt start k) ≠ 0 := by
    rw [done.others mm _ (pageAt_length start k)]
    · exact present k lt
    · rintro ⟨_, j, less, same⟩
      have := pageAt_inj range.small lt (by omega) same
      omega
  exact vmmUnmapPage_shared_spared done.tables met there (free k lt) spared

/-- So does giving up an area of a program. -/
theorem reclaim_loop_spared (tables : Tables rs s own none none) (met : ¬ s.ranOut = true)
    (range : Range start n) (present : ∀ k < n, s.slot mm (pageAt start k) ≠ 0)
    (owned : ∀ j < n, own mm (pageAt start j)) (spared : Spared rs m s) :
    Runs (meter rs) (forTo n fun pg => do
      let off ← intOffset pg
      let phys := (← get).vmmGetPhys mm (add64 start off)
      vmmUnmapPage rs mm (add64 start off)
      freeFrame rs phys) (n * 0) s fun _ s' => Spared rs m s' := by
  have bound := range.small
  refine .forTo_along _ _ met (fun i le => reclaim_loop tables met (range.mono le)
    (fun j lt => present j (by omega)) fun j lt => owned j (by omega)) spared
    (fun k lt t met done spared => ?_) fun _ => .bind sticky_intOffset fun _ => .bind .get fun _ =>
    .bind sticky_vmmUnmapPage fun _ => ofFrames_meter.free _
  refine .step (intOffset_eq (by omega)) (Nat.le_refl _) (.of_get ?_)
  have later : ¬ ∃ j < k, pageAt start k = pageAt start j := by
    rintro ⟨j, less, same⟩
    have := pageAt_inj range.small lt (by omega) same
    omega
  have there : t.slot mm (pageAt start k) ≠ 0 := by
    rw [done.others mm _ (pageAt_length start k) fun same => later same.2]
    exact present k lt
  have still : withoutPages own mm start k mm (pageAt start k) :=
    ⟨owned k lt, fun same => later same.2⟩
  have phys : t.vmmGetPhys mm (add64 start (k * pageSize)) = pageOf (t.slot mm (pageAt start k)) := by
    rw [Vmm.vmmGetPhys, leafEntry_eq done.tables.layout _ there]
    rfl
  dsimp only
  rw [phys]
  refine .bind (n := 0) (k := 0) (((vmmUnmapPage_owned done.tables met there still).and
    (vmmUnmapPage_owned_spared done.tables met there still spared)).imp ?_)
    fun _ => ofFrames_meter.free _
  rintro _ t₁ ⟨⟨_, tables₁⟩, spared₁⟩ met₁
  have mem := tables₁.exclusive.handed none _ rfl
  obtain ⟨t₂, ran, freed, kept⟩ := freeFrame_spec tables₁.frames mem
  refine .done ran ?_ kept (spared₁.congr fun _ => freeFrame_outside tables₁.frames mem ran)
  rw [freed.state]
  exact met₁

section Free

variable {left : List Nat} (spaces : Spaces rs s lists areas) (live : s.Live mm)

include spaces live

section Area

variable (mem : r ∈ areas mm ++ [2, 1, 0]) (freeing : Freeing rs s t areas mm (r :: left))
  (met : ¬ t.ranOut = true) (sub : ∀ q ∈ left, q ∈ areas mm ++ [2, 1, 0]) (out : r ∉ left)

include mem freeing met

/-- `mm_free_reg_vma`. -/
theorem mmFreeRegVma_spared (here : r ∈ areas mm) (spared : Spared rs m t) :
    Runs (meter rs) (mmFreeRegVma rs mm r) 0 t fun _ t' => Spared rs m t' := by
  have regular := (spaces.space mm live).regular r here
  have three := ((spaces.space mm live).named r here).1
  unfold mmFreeRegVma
  refine .of_get ?_
  dsimp only
  rw [freeing.areas r three (.inr List.mem_cons_self)]
  refine .step (panicIf_eq (not_not.mpr regular.type)) (Nat.le_refl _) ?_
  refine .bind (n := (s.vmas r).pages * 0) (k := 0) ((reclaim_loop_spared freeing.tables met
    regular.range (freeing.there spaces live mem) (fun j lt => ?_) spared).imp ?_) fun _ =>
      sticky_dropVma ofFrames_meter
  · exact .inr ⟨rfl, r, List.mem_cons_self, three, j, lt, rfl⟩
  · intro _ t' spared' met'
    exact (dropVma_runs met' fun _ => three).imp fun _ u dropped => spared'.records dropped.frames

include sub out

/-- `mm_unshare_vma`. -/
theorem mmUnshareVma_spared (static : r < 3) (shared : (s.vmas r).refcnt ≠ 1) (spared : Spared rs m t) :
    Runs (meter rs) (mmUnshareVma rs mm r) 0 t fun _ t' => Spared rs m t' := by
  have space := spaces.space mm live
  have apart := spaces.next_apart live mem sub out
  have tables := freeing.tables
  rw [remaining_static static] at tables
  obtain ⟨_, start, pages, _⟩ := VmArea.shape_inj (freeing.shapes r)
  have count : (t.vmas r).refcnt = (s.vmas r).refcnt := by
    have := freeing.refcnt r static
    rwa [if_pos List.mem_cons_self, Int.sub_zero] at this
  have unowned : ∀ j < (s.vmas r).pages,
      ¬ remaining s areas mm left mm (pageAt (s.vmas r).start j) := by
    rintro j lt (⟨ne, _⟩ | ⟨_, q, memQ, _, inside⟩)
    · exact ne rfl
    · exact apart q memQ _ inside ⟨j, lt, rfl⟩
  have range := space.all_range spaces.kernel mem
  have there := freeing.there spaces live mem
  unfold mmUnshareVma
  refine .of_get ?_
  dsimp only
  rw [start, pages]
  refine .bind (n := (s.vmas r).pages * 0) (k := 0) (((unshare_loop tables met range there unowned).and
    (unshare_loop_spared tables met range there unowned spared)).imp ?_) fun _ =>
      sticky_dropVma ofFrames_meter
  intro _ t' ⟨unshared, spared'⟩ met'
  refine (dropVma_runs met' fun one => ?_).imp fun _ u dropped => spared'.records dropped.frames
  rw [unshared.records.fields.2.1, count] at one
  exact absurd one shared

/-- The body of `mm_free`'s loop. -/
theorem freeArea_spared (shared : ∀ a < 3, (s.vmas a).refcnt ≠ 1) (spared : Spared rs m t) :
    Runs (meter rs) (freeArea rs mm r) 0 t fun _ t' => Spared rs m t' := by
  have type := (VmArea.shape_inj (freeing.shapes r)).1
  unfold freeArea
  refine .of_get ?_
  rw [type]
  rcases List.mem_append.mp mem with here | static
  · rw [((spaces.space mm live).regular r here).type]
    exact mmFreeRegVma_spared spaces live mem freeing met here spared
  · rw [mem_kernelAreas] at static
    have unshare := mmUnshareVma_spared spaces live mem freeing met sub out static (shared r static) spared
    have kind := (VmArea.shape_inj ((spaces.kernel.shape r static).trans
      (kernelShape_shape r).symm)).1
    rw [kind]
    obtain rfl | rfl | rfl : r = 0 ∨ r = 1 ∨ r = 2 := by omega
    · exact unshare
    · exact unshare
    · exact unshare

end Area

/-- The loop of `mm_free`, while another space counts the kernel's areas. -/
theorem freeAreas_spared (met : ¬ s.ranOut = true) (shared : ∀ a < 3, (s.vmas a).refcnt ≠ 1)
    (spared : Spared rs m s) :
    Runs (meter rs) (forAreas mm (freeArea rs mm) fun li =>
      modify fun s => { s with freedLis := li :: s.freedLis }) 0 s fun _ t => Spared rs m t := by
  have space := spaces.space mm live
  have start := spaces.freeing live
  rw [← space.areas] at start
  have fuel : (lists mm).length ≤ s.nlis :=
    length_le_of_nodup space.listed.nodup fun l mem => (space.listed.bound l mem).2
  have free : ((lists mm).map fun _ => 0).sum = 0 := by simp
  have marks : ∀ li, Sticky (meter rs)
      (modify fun s => { s with freedLis := li :: s.freedLis } : Op Unit) :=
    fun li => .modify fun _ out => out
  unfold forAreas
  refine .of_get ?_
  rw [space.listed.head, ← free]
  refine (walkAreas_runs (fun ls t => (∃ pre, lists mm = pre ++ ls) ∧
      Freeing rs s t areas mm (s.vmasOf ls) ∧ Spared rs m t) (fun _ => 0) (fun _ => sticky_freeArea)
    marks ?_ fuel met ⟨⟨[], rfl⟩, start, spared⟩).imp fun _ _ done => done.2.2
  intro l ls t met' ⟨⟨pre, split⟩, freeing, spared⟩
  have next := space.listed.next split
  rw [split] at space
  have names : s.vmasOf (l :: ls) ⊆ areas mm ++ [2, 1, 0] :=
    space.vmasOf_subset (List.subset_append_right _ _)
  have sub : ∀ q ∈ s.vmasOf ls, q ∈ areas mm ++ [2, 1, 0] := fun q mem => names (List.mem_cons_of_mem _ mem)
  have once := space.vma_once.2
  rw [freeing.lis]
  refine ((freeArea_runs spaces live (names List.mem_cons_self) freeing met' sub once shared).and
    (freeArea_spared spaces live (names List.mem_cons_self) freeing met' sub once shared spared)).imp ?_
  intro _ t' ⟨⟨freeing', _⟩, spared'⟩
  rw [freeing'.lis]
  refine ⟨next, fun met'' => .done rfl met'' (Nat.le_refl _) ⟨⟨pre ++ [l], ?_⟩, freeing'.marked,
    spared'.records rfl⟩⟩
  rw [split, List.append_assoc]
  rfl

/-- `mm_free`, when no region starts at `0`. -/
theorem mmFree_spared (met : ¬ s.ranOut = true) (other : ∃ k, k ≠ mm ∧ s.Live k)
    (above : ∀ r ∈ rs.regions, 0 < r.start) (spared : Spared rs m s) :
    Runs (meter rs) (mmFree rs mm) 0 s fun _ s' => Spared rs m s' := by
  have shared : ∀ a < 3, (s.vmas a).refcnt ≠ 1 := by
    obtain ⟨k, ne, liveK⟩ := other
    have two : 1 < s.lives.card :=
      Finset.one_lt_card.mpr ⟨k, Vmm.mem_lives.mpr liveK, mm, Vmm.mem_lives.mpr live, ne⟩
    intro a ha
    rw [spaces.refcnt a ha]
    omega
  unfold mmFree
  refine .seq (((freeAreas_runs spaces live met shared).and
    (freeAreas_spared spaces live met shared spared)).imp ?_) fun _ => .bind .get fun _ =>
    .bind (ofFrames_meter.free _) fun _ => .modify fun _ out => out
  intro _ t ⟨⟨freeing, _⟩, spared'⟩ met'
  have empty : (t.mms mm).p4 = 0 := freeing.tables.no_tables fun v long =>
    freeing.gone v long fun r absurd => (by cases absurd)
  refine .of_get ?_
  rw [empty]
  refine .step (freeFrame_zero freeing.tables.frames) (Nat.le_refl _) ?_
  refine .done rfl met' (Nat.le_refl _) (spared'.congr fun a _ => ?_)
  show rs.regions.foldl (freeIn 0) t.frames.mem a = _
  rw [foldl_freeIn_outside _ _ fun r mem => .inl (above r mem)]

end Free

/-! ## Runs -/

/-- Setting the bitmaps up writes the regions only. -/
theorem pmmInitRegions_outside (m : Bytes) (out : Outside rs a) : pmmInitRegions m rs a = m a := by
  unfold pmmInitRegions
  have each : ∀ (qs : List Region) (m : Bytes), (∀ r ∈ qs, a < r.start ∨ r.stop ≤ a) →
      qs.foldl initRegion m a = m a := by
    intro qs
    induction qs with
    | nil => exact fun _ _ => rfl
    | cons r qs ih =>
      intro m out
      rw [List.foldl_cons, ih _ fun q mem => out q (List.mem_cons_of_mem r mem)]
      exact initRegion_outside m r (out r List.mem_cons_self)
  exact each rs.regions m out

variable {call : SpaceCall}

/-- A call. -/
theorem Spaces.spared_step (spaces : Spaces rs s lists areas) (met : ¬ s.ranOut = true)
    (allowed : Vmm.Permitted rs call s) (taken : Vmm.step rs call s = .ok s')
    (met' : ¬ s'.ranOut = true) (spared : Spared rs m s) : Spared rs m s' := by
  cases call with
  | mmNew =>
    obtain ⟨_, ran⟩ := map_eq_ok taken
    exact ((spared_carried rs s.nmms m).mmNew_held spaces met spared).safe ran met'
  | anonMmap mm start pages prot user =>
    obtain ⟨live, fits, canonical, apart⟩ := allowed
    obtain ⟨_, ran⟩ := map_eq_ok taken
    obtain ⟨aligned, small⟩ := anonMmap_returned ran
    obtain ⟨(_ : Regular (anonArea start pages prot user)), free⟩ :=
      spaces.anon_regular live ⟨aligned, fits, small⟩ canonical apart
    exact ((spared_carried rs mm m).anonMmap_held spaces.tables met aligned small
      (unowned_pages live free) spared).safe ran met'
  | mmDupe mm =>
    obtain ⟨_, ran⟩ := map_eq_ok taken
    exact ((spared_carried rs s.nmms m).mmDupe_held spaces allowed met spared).safe ran met'
  | mmFree mm =>
    obtain ⟨live, other, above⟩ := allowed
    obtain ⟨_, ran⟩ := map_eq_ok taken
    exact (mmFree_spared spaces live met other above spared).safe ran met'
  | write mm virt byte =>
    have took := spaces.took met allowed taken met'
    cases took with
    | write live mem inside left =>
      obtain ⟨owned, there, address⟩ := spaces.translate live mem inside
      subst left
      refine writePage_spared (g := pageOf (s.slot mm (pathOf virt))) spaces.tables
        (.inr ⟨mm, _, pathOf_length virt, owned, there, rfl⟩) (fun a out => ?_) spared
      have inPage : virt % pageSize < pageSize := Nat.mod_lt _ (by decide)
      rw [address]
      exact Function.update_of_ne (by omega) _ _

/-- Every state of a run in which frames did not run out. -/
theorem spared_of_permitted {s₀ : Vmm} (booted : kernelMmInit rs 0 (Vmm.boot rs m) = .ok ((), s₀))
    (reached : Reach (Vmm.step rs) (Vmm.Permitted rs) s₀ s) (met : ¬ s.ranOut = true) :
    Spared rs m s := by
  have holds : (∃ lists areas, Spaces rs s lists areas) ∧ Spared rs m s := by
    refine reached.avoiding (fun s => s.ranOut = true) (fun _ _ _ taken => step_ranOut taken)
      (fun s => (∃ lists areas, Spaces rs s lists areas) ∧ Spared rs m s) (fun start => ?_) ?_ met
    · have first : Spared rs m (Vmm.boot rs m) := fun a out => pmmInitRegions_outside m out
      exact ⟨⟨_, _, ((kernelMmInit_runs rs m).safe booted start).1⟩,
        (((spared_carried rs 0 m).kernelMmInit_held m first).safe booted start).2⟩
    · rintro call s s' before ⟨⟨lists, areas, spaces⟩, spared⟩ allowed taken after
      exact ⟨spaces.step (spaces.took before allowed taken after),
        spaces.spared_step before allowed taken after spared⟩
  exact holds.2

/-- **Nothing beside the regions.** Memory beside the regions of the memory map is, in every state of a
run from `kernel_mm_init` on in which frames did not run out, as it was before `pmm_init_regions`. The
kernel's static variables, like `kernel_mm`, and its stack are not in this memory: `Vmm` has them apart. -/
theorem memory_spared (rs : RegionTable) (m : Bytes) (s₀ s : Vmm)
    (booted : kernelMmInit rs 0 (Vmm.boot rs m) = .ok ((), s₀))
    (reached : Reach (Vmm.step rs) (Vmm.Permitted rs) s₀ s) (met : s.ranOut = false)
    (a : Nat) (out : Outside rs a) : s.frames.mem a = m a :=
  spared_of_permitted booted reached (ne_true_of_eq_false met) a out

/-- The screen, beside a region from 2 MiB on, after a page was mapped. -/
theorem memory_spared_screen : ∃ s₀ s,
    kernelMmInit wideTable 0 (Vmm.boot wideTable fun _ => 0) = .ok ((), s₀) ∧
      Reach (Vmm.step wideTable) (Vmm.Permitted wideTable) s₀ s ∧ (∃ mm, s.Live mm) ∧
      s.frames.mem 0xb8000 = 0 := by
  obtain ⟨s₀, s, _, _, mm, _, booted, reached, met, _, _, live, _⟩ := exists_mapped
  refine ⟨s₀, s, booted, reach_permitted reached, ⟨mm, live⟩, ?_⟩
  refine memory_spared wideTable (fun _ => 0) s₀ s booted (reach_permitted reached)
    (Bool.eq_false_of_not_eq_true met) 0xb8000 fun r mem => ?_
  rw [List.mem_singleton.mp mem]
  decide

end Blackcomb.Mm
