import Blackcomb.Laws.Mm.Isolation

/-!
# Areas and tables

The list of a space's areas and its page tables are two accounts of one mapping, written by
different code: `mm_insert_vma` links a node, the loops over pages set entries. `mm_dupe` and
`mm_free` follow the list alone. Here the two are compared: in every state of a run, `anon_mmap` on
any canonical ranges included, a page of a live space has an entry exactly when it lies in exactly
one of the listed areas, with the flags of that area, and no table is without an entry.

**What it does not establish.** Ranges that overlap an area, which `anon_mmap` does not refuse, are
outside these runs. The processor's reading of the entries is `Processor`.
-/

namespace Blackcomb.Mm

open Memory Run Budget Ownership Chain

variable {rs : RegionTable} {s : Vmm} {mm r virt : Nat} {lists areas : Nat → List Nat}

/-- The nodes of a space's list. -/
def Vmm.listOf (s : Vmm) (mm : Nat) : List Nat := s.nodes s.nlis (s.mms mm).vmAreas

/-- The tables of a space and its list of areas say the same. -/
structure Agrees (s : Vmm) (mm : Nat) : Prop where
  /-- A page has an entry exactly when it is in exactly one area. -/
  pages : ∀ virt < 2 ^ 64, Canonical virt →
    (s.Mapped mm virt ↔ ∃! r, r ∈ s.areasOf mm ∧ (s.vmas r).Has virt)
  /-- The entry has the flags of that area. -/
  flags : ∀ r ∈ s.areasOf mm, ∀ virt, (s.vmas r).Has virt →
    s.leafEntry mm virt % pageSize = pageFlags (s.vmas r).prot (s.vmas r).user
  /-- The list starts at `vm_areas`, `prev` is the inverse of `next`, and both ends are `NULL`. -/
  head : (s.mms mm).vmAreas = (s.listOf mm).head?
  linked : Seg id (fun l => (s.lis l).next) (fun l => (s.lis l).prev) none (s.listOf mm) none
  /-- No area is listed twice. -/
  nodup : (s.areasOf mm).Nodup
  /-- The p3, p2 and p1 tables have an entry each. -/
  tables : ∀ p : Path, 1 ≤ p.length → p.length ≤ 3 → s.slot mm p ≠ 0 → ∃ i, s.slot mm (i :: p) ≠ 0
  /-- A regular area is counted once. -/
  single : ∀ r ∈ s.areasOf mm, (s.vmas r).type = .reg → (s.vmas r).refcnt = 1

/-- Canonical addresses are told apart by their pages' paths. -/
theorem Range.has_of_path {a : VmArea} (range : Range a.start a.pages)
    (canonicalA : ∀ k < a.pages, Canonical (a.start + k * pageSize)) (lt : virt < 2 ^ 64)
    (canonical : Canonical virt) (inside : InArea a (pathOf virt)) : a.Has virt := by
  obtain ⟨k, less, path⟩ := inside
  have there := canonicalA k less
  have bound := range.fits
  have aligned := range.aligned
  rw [pageAt, range.add64_eq less, pathOf_eq_iff] at path
  constructor
  · simp only [Canonical, pageSize] at *
    omega
  · simp only [Canonical, pageSize] at *
    omega

section Agree

variable (spaces : Spaces rs s lists areas) (live : s.Live mm)

include spaces live

theorem Spaces.listOf_eq : s.listOf mm = lists mm := by
  have listed := (spaces.space mm live).listed
  have enough : (lists mm).length ≤ s.nlis :=
    length_le_of_nodup listed.nodup fun l mem => (listed.bound l mem).2
  rw [Vmm.listOf, listed.head, nodes_eq enough listed.linked]

/-- The page of an address of an area. -/
theorem Spaces.inArea (mem : r ∈ s.areasOf mm) (has : (s.vmas r).Has virt) :
    InArea (s.vmas r) (pathOf virt) := by
  have space := spaces.space mm live
  rw [space.areasOf_eq] at mem
  obtain ⟨k, lt, _, path⟩ := (space.all_range spaces.kernel mem).path_of_address has.1 has.2
  exact ⟨k, lt, path⟩

/-- The entry of a page of an area has the area's flags. -/
theorem Spaces.flags (mem : r ∈ s.areasOf mm) (has : (s.vmas r).Has virt) :
    s.slot mm (pathOf virt) % pageSize = pageFlags (s.vmas r).prot (s.vmas r).user := by
  have space := spaces.space mm live
  have inside := spaces.inArea live mem has
  rw [space.areasOf_eq, List.mem_append, mem_kernelAreas] at mem
  rcases mem with regular | static
  · exact (space.mapped r regular _ inside).2
  · obtain ⟨_, _, _, user, prot⟩ := VmArea.shape_inj
      ((spaces.kernel.shape r static).trans (kernelShape_shape r).symm)
    rw [spaces.kernel.inArea_iff static] at inside
    rw [space.kernel r static _ inside, (spaces.kernel.mapped r static _ inside).2, user, prot]
    unfold kernelShape
    split <;> rfl

theorem Spaces.agrees : Agrees s mm := by
  have space := spaces.space mm live
  have kernel := spaces.kernel
  have listed := space.areasOf_eq
  refine ⟨fun virt lt canonical => ?_, fun r mem virt has => ?_, ?_, ?_, ?_, fun p _ short => ?_,
    fun r mem type => ?_⟩
  · constructor
    · intro mapped
      -- a page that is in no area has no entry
      have some : ∃ r ∈ areas mm ++ [2, 1, 0], InArea (s.vmas r) (pathOf virt) := by
        by_contra none
        refine mapped (space.all_unmapped kernel (pathOf_length virt) fun r mem inside => ?_)
        exact none ⟨r, mem, inside⟩
      obtain ⟨r, mem, inside⟩ := some
      have has := (space.all_range kernel mem).has_of_path
        (fun k less => space.all_canonical kernel mem less) lt canonical inside
      refine ⟨r, ⟨listed ▸ mem, has⟩, fun q both => ?_⟩
      exact space.all_apart kernel (listed ▸ both.1) mem (spaces.inArea live both.1 both.2) inside
    · intro one
      obtain ⟨r, both, _⟩ := one
      exact space.all_mapped kernel (listed ▸ both.1) (spaces.inArea live both.1 both.2)
  · have there := space.all_mapped kernel (listed ▸ mem) (spaces.inArea live mem has)
    rw [spaces.leafEntry_eq there]
    exact spaces.flags live mem has
  · rw [spaces.listOf_eq live]
    exact space.listed.head
  · rw [spaces.listOf_eq live]
    exact space.listed.linked
  · rw [listed]
    exact space.areas_nodup
  · exact spaces.tables.tight mm p short fun absurd => (by cases absurd)
  · exact space.single r ((spaces.mem_areasOf live).mp ⟨mem, type⟩)

end Agree

/-- The list of areas and the page tables of every live space agree, in every state of a run from
`kernel_mm_init` on in which frames did not run out: whatever was mapped with `anon_mmap`, on either
half, in the space itself or in the one that it was duplicated from. -/
theorem areas_agree (rs : RegionTable) (m : Bytes) (s₀ s : Vmm) (mm : Nat)
    (booted : kernelMmInit rs 0 (Vmm.boot rs m) = .ok ((), s₀))
    (reached : Reach (Vmm.step rs) (Vmm.Permitted rs) s₀ s) (met : s.ranOut = false)
    (live : s.Live mm) : Agrees s mm := by
  obtain ⟨lists, areas, spaces⟩ := spaces_of_permitted booted reached (ne_true_of_eq_false met)
  exact spaces.agrees live

/-- A space with one page. -/
theorem areas_agree_mapped : ∃ s₀ s mm,
    kernelMmInit wideTable 0 (Vmm.boot wideTable fun _ => 0) = .ok ((), s₀) ∧
      Reach (Vmm.step wideTable) (Vmm.Permitted wideTable) s₀ s ∧ s.ranOut = false ∧ s.Live mm ∧
      (s.areasOf mm).length = 4 ∧ Agrees s mm := by
  obtain ⟨s₀, s, lists, areas, mm, r, booted, reached, met, spaces, _, live, one, _⟩ := exists_mapped
  have reached' := reach_permitted reached
  have met' : s.ranOut = false := Bool.eq_false_of_not_eq_true met
  refine ⟨s₀, s, mm, booted, reached', met', live, ?_,
    areas_agree wideTable (fun _ => 0) s₀ s mm booted reached' met' live⟩
  rw [(spaces.space mm live).areasOf_eq, one]
  rfl

end Blackcomb.Mm
