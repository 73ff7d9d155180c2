import Blackcomb.Laws.Kernel.Boot
import Blackcomb.Laws.Mm.Outside
import Blackcomb.Laws.Mm.Processor

/-!
# From the tables of the boot to the kernel's

C is entered on the tables of `_start`. On them `kernel_mm_init` builds those of `kernel_mm`, and then
`switch_cr3` goes over to them, and later from one space to another. It does so in the kernel text, with
the boot's stack there, and later with a task's stack in the kernel's heap: what is mapped at once before
and after has to be the same.

**What it does not establish.** That a task's stack does lie in the heap is `kmalloc`'s business, and that
the heap's pages are mapped before it is used is `kernel_mm_init`'s. The boot's tables have no heap, and
nothing is said of it there.
-/

namespace Blackcomb.Kernel

open Memory Run X86 Mm

variable {rs : RegionTable} {s : Vmm} {lists areas : Nat → List Nat} {mm a virt : Nat}

/-- The kernel's areas are translated by every space as by `kernel_mm`. -/
theorem translate_shared (spaces : Spaces rs s lists areas) (walkable : Walkable s)
    (here : mm = 0 ∨ s.Live mm) (static : a < 3) (has : (kernelShape a).Has virt) :
    X86.translate s.frames.mem (s.mms mm).p4 virt = some (s.translate 0 virt) := by
  have range := kernelShape_range a
  obtain ⟨k, lt, page, path⟩ := range.path_of_address has.1 has.2
  have inside : InArea (kernelShape a) (pathOf virt) := ⟨k, lt, path⟩
  have there₀ := (spaces.kernel.mapped a static _ inside).1
  have slot : s.slot mm (pathOf virt) = s.slot 0 (pathOf virt) := by
    rcases here with rfl | live
    · rfl
    · exact (spaces.space mm live).kernel a static _ inside
  have there : s.slot mm (pathOf virt) ≠ 0 := slot.trans_ne there₀
  have known : virt < 2 ^ 64 ∧ Canonical virt := by
    have canonical := kernelShape_canonical a lt
    have fits := range.fits
    have aligned := range.aligned
    have last := has.2
    simp only [Canonical, pageSize] at *
    omega
  rw [spaces.processor walkable here known.1 known.2, if_neg there, spaces.translate_eq there,
    spaces.translate_eq there₀, slot]

/-- The kernel text and the window on physical memory. -/
theorem translate_direct (spaces : Spaces rs s lists areas) (walkable : Walkable s)
    (window : a < 2) (has : (kernelShape a).Has virt) :
    s.translate 0 virt = virt - (kernelShape a).start := by
  have range := kernelShape_range a
  obtain ⟨k, lt, page, path⟩ := range.path_of_address has.1 has.2
  have direct : s.slot 0 (pathOf virt) = k * pageSize ||| 3 := by
    rw [path]
    obtain rfl | rfl : a = 0 ∨ a = 1 := by omega
    · exact walkable.booted.text k lt
    · exact walkable.booted.phys k lt
  have there : s.slot 0 (pathOf virt) ≠ 0 := by
    rw [direct]
    exact (or_three (Nat.mul_mod_left k pageSize)).1
  rw [spaces.translate_eq there, direct, pageOf_or (Nat.mul_mod_left k pageSize) (by decide)]
  have aligned := range.aligned
  have low := has.1
  simp only [pageSize] at *
  omega

/-- The boot's mapping of them. -/
theorem bootMap_direct (window : a < 2) (has : (kernelShape a).Has virt) :
    bootMap virt = some (virt - (kernelShape a).start) := by
  obtain ⟨low, high⟩ := has
  obtain rfl | rfl : a = 0 ∨ a = 1 := by omega
  · simp only [kernelShape, kernelTextBase, pageSize] at low high ⊢
    rw [bootMap, physMappingStart, bootStackBase, kernelTextBase, if_neg (by omega), if_neg (by omega),
      if_neg (by omega), if_pos (by omega)]
  · simp only [kernelShape, physMappingStart, pageSize] at low high ⊢
    rw [bootMap, physMappingStart, if_neg (by omega), if_pos (by omega)]

/-- **The handover.** With the memory map's regions beside the tables of the boot and in the first GiB,
in every state of a run of the memory management after `_start`: the boot's tables translate as they did
at first; every byte that changed is one that they show at `P_TO_V`; and in the kernel text and in the
window on physical memory they translate as the tables of `kernel_mm` and of every live space do. In the
kernel's heap the tables of every live space translate as those of `kernel_mm`. So a `switch_cr3` between
any two of them changes nothing there. -/
theorem switch_cr3_agrees (c c' : Control) (pt gdt : Nat) (rs : RegionTable) (s₀ s : Vmm)
    (linked : BootLinked c.mem pt gdt) (started : entryStart pt c = .ok c')
    (beside : ∀ r ∈ rs.regions, r.stop ≤ pt ∨ pt + 0xA000 ≤ r.start)
    (low : ∀ r ∈ rs.regions, r.stop ≤ 2 ^ 30)
    (booted : kernelMmInit rs 0 (Vmm.boot rs c'.mem) = .ok ((), s₀))
    (reached : Reach (Vmm.step rs) (Vmm.Permitted rs) s₀ s) (met : s.ranOut = false) :
    (∀ virt < 2 ^ 64, X86.translate s.frames.mem c'.cr3 virt = bootMap virt) ∧
      (∀ b, s.frames.mem b ≠ c'.mem b →
        X86.translate s.frames.mem c'.cr3 (physMappingStart + b) = some b) ∧
      (∀ mm, mm = 0 ∨ s.Live mm → ∀ virt, (kernelShape 0).Has virt ∨ (kernelShape 1).Has virt →
        ∃ phys, X86.translate s.frames.mem c'.cr3 virt = some phys ∧
          X86.translate s.frames.mem (s.mms mm).p4 virt = some phys) ∧
      ∀ mm, mm = 0 ∨ s.Live mm → ∀ virt, (kernelShape 2).Has virt →
        ∃ phys, X86.translate s.frames.mem (s.mms 0).p4 virt = some phys ∧
          X86.translate s.frames.mem (s.mms mm).p4 virt = some phys := by
  have met' := ne_true_of_eq_false met
  obtain ⟨⟨lists, areas, spaces⟩, walkable⟩ := walkable_of_permitted booted reached met'
  have spared := spared_of_permitted booted reached met'
  obtain ⟨m', ran, holds⟩ := bootTables_spec linked.aligned linked.low linked.zero
  have mem : c'.mem = m' := by
    rw [entryStart, ran] at started
    exact congrArg Control.mem (Except.ok.inj started).symm
  have cr3 : c'.cr3 = pt := by
    rw [entryStart, ran] at started
    exact congrArg Control.cr3 (Except.ok.inj started).symm
  have tables : Holds s.frames.mem s.frames.mem pt (bootEntry pt) := by
    refine holds.congr fun b from_ to_ => (spared b fun r here => ?_).trans (congrFun mem b)
    have := beside r here
    omega
  have boot : ∀ virt < 2 ^ 64, X86.translate s.frames.mem pt virt = bootMap virt :=
    fun virt fits => tables.translate linked.aligned linked.low fits
  rw [cr3]
  refine ⟨boot, fun b changed => ?_, fun mm here virt window => ?_, fun mm here virt heap => ?_⟩
  · have small : b < 2 ^ 30 := by
      by_contra large
      refine changed (spared b fun r mem => ?_)
      have := low r mem
      omega
    rw [boot _ (by rw [physMappingStart]; omega), bootMap, if_neg (by rw [physMappingStart]; omega),
      if_pos ⟨Nat.le_add_right _ _, by omega⟩, Nat.add_sub_cancel_left]
  · obtain ⟨a, less, has⟩ : ∃ a < 2, (kernelShape a).Has virt := by
      rcases window with text | phys
      · exact ⟨0, by decide, text⟩
      · exact ⟨1, by decide, phys⟩
    have space := translate_shared spaces walkable here (by omega) has
    rw [translate_direct spaces walkable less has] at space
    have fits : virt < 2 ^ 64 := by
      have range := (kernelShape_range a).fits
      have last := has.2
      omega
    exact ⟨_, (boot virt fits).trans (bootMap_direct less has), space⟩
  · exact ⟨_, translate_shared spaces walkable (.inl rfl) (by decide) heap,
      translate_shared spaces walkable here (by decide) heap⟩

/-- The screen, on the boot's tables and on the kernel's. -/
theorem switch_cr3_agrees_screen : ∃ c' s phys,
    entryStart 0x101000 ⟨bootImage, 0x11, 0, 0, 0⟩ = .ok c' ∧
      kernelMmInit wideTable 0 (Vmm.boot wideTable c'.mem) = .ok ((), s) ∧
      X86.translate s.frames.mem c'.cr3 0xffffffff800b8000 = some phys ∧
      X86.translate s.frames.mem (s.mms 0).p4 0xffffffff800b8000 = some phys := by
  obtain ⟨m', ran, _⟩ := bootTables_spec bootImage_linked.aligned bootImage_linked.low
    bootImage_linked.zero
  have started : entryStart 0x101000 ⟨bootImage, 0x11, 0, 0, 0⟩ = .ok
      { mem := m', cr4 := 0b10100000, cr3 := BootTable.p4.at 0x101000, efer := 0x00000100,
        cr0 := 0x11 ||| 0x80000001 } := by
    rw [entryStart, ran]
    rfl
  obtain ⟨s₀, booted, met, _⟩ :=
    exists_booted (n := 58750) wideTable m' (List.mem_singleton_self wideRegion) (by decide)
  have regions : ∀ r ∈ wideTable.regions, r = wideRegion := fun r mem => List.mem_singleton.mp mem
  obtain ⟨_, _, agree, _⟩ := switch_cr3_agrees ⟨bootImage, 0x11, 0, 0, 0⟩ _ 0x101000 0x100000 wideTable s₀ s₀
    bootImage_linked started (fun r mem => regions r mem ▸ .inr (by decide))
    (fun r mem => regions r mem ▸ by decide) booted .start (Bool.eq_false_of_not_eq_true met)
  obtain ⟨phys, boot, kernel⟩ := agree 0 (.inl rfl) 0xffffffff800b8000 (.inl (by decide))
  exact ⟨_, s₀, phys, started, booted, boot, kernel⟩

end Blackcomb.Kernel
