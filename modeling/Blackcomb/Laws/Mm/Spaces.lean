import Mathlib.Algebra.GroupWithZero.Nat
import Mathlib.Data.Finset.Range
import Blackcomb.Lib.Chain
import Blackcomb.Laws.Mm.Areas

/-!
# Address spaces and their areas

The invariant over whole runs of `mm_new`, `anon_mmap`, `mm_dupe` and `mm_free`: every live space has
a doubly linked list of areas, its regular ones first and the three of the kernel last; the areas of
a space share no page; a page has an entry exactly when it lies in an area; the pages of regular
areas own their frames, those of the kernel's areas have the entries of `kernel_mm`.

**What it does not establish.** `exec_elf` keeps it only for some files (`Fs.Spaces`). Runs that ran
out of frames leave it.
-/

namespace Blackcomb.Mm

open Memory Run Budget Ownership Chain

variable {rs : RegionTable} {s s' t t' : Vmm} {own : Nat → Path → Prop} {mm k l vma n : Nat} {v : Path}
  {lis regs : List Nat}

/-! ## Areas -/

/-- An area as `(start, pages, prot, user, type)`. -/
def VmArea.shape (a : VmArea) : VmArea := { a with refcnt := 0 }

/-- An area's shape is all that the lists of areas compare. -/
theorem VmArea.shape_inj {a b : VmArea} (same : a.shape = b.shape) : a.type = b.type ∧
    a.start = b.start ∧ a.pages = b.pages ∧ a.user = b.user ∧ a.prot = b.prot := by
  simp only [VmArea.shape, VmArea.mk.injEq, true_and] at same
  exact same

/-- A page of an area. -/
def InArea (a : VmArea) (v : Path) : Prop := ∃ k < a.pages, v = pageAt a.start k

/-- An area's pages are named by whole paths. -/
theorem InArea.length {a : VmArea} (inside : InArea a v) : v.length = 4 := by
  obtain ⟨k, _, rfl⟩ := inside
  rfl

/-- The pages of an area are a matter of its shape. -/
theorem inArea_congr {a b : VmArea} (same : a.shape = b.shape) : InArea a v ↔ InArea b v := by
  obtain ⟨_, start, pages, _⟩ := VmArea.shape_inj same
  rw [InArea, InArea, start, pages]

/-- Areas that stayed have the pages that they had. -/
theorem exists_inArea_congr (same : ∀ r ∈ regs, s'.vmas r = s.vmas r) :
    (∃ r ∈ regs, InArea (s'.vmas r) v) ↔ ∃ r ∈ regs, InArea (s.vmas r) v := by
  constructor
  · rintro ⟨r, mem, inside⟩
    exact ⟨r, mem, same r mem ▸ inside⟩
  · rintro ⟨r, mem, inside⟩
    exact ⟨r, mem, (same r mem).symm ▸ inside⟩

/-- What `kernel_mm_init` makes of the three static areas. -/
def kernelShape : Nat → VmArea
  | 0 => { type := .kernelText, start := kernelTextBase, pages := 512, prot := 3 }
  | 1 => { type := .physMem, start := physMappingStart, pages := 1024, prot := 3 }
  | _ => { type := .kernelHeap, start := kernelBrkStart, pages := kernelBrkPages, prot := 3 }

/-- The kernel's shapes carry no count. -/
theorem kernelShape_shape (a : Nat) : (kernelShape a).shape = kernelShape a := by
  unfold kernelShape
  split <;> rfl

/-- An address of 48 bits, sign extended. -/
def Canonical (x : Nat) : Prop := x < 2 ^ 47 ∨ 2 ^ 64 - 2 ^ 47 ≤ x

/-- An area of `anon_mmap`, off the kernel's. -/
structure Regular (a : VmArea) : Prop where
  type : a.type = .reg
  range : Range a.start a.pages
  canonical : ∀ k < a.pages, Canonical (a.start + k * pageSize)
  prot : a.prot < 2 ^ 8
  off : ∀ b < 3, ∀ v, InArea a v → ¬ InArea (kernelShape b) v

/-- Being a program's area is a matter of its shape. -/
theorem Regular.congr {a b : VmArea} (regular : Regular a) (same : b.shape = a.shape) :
    Regular b := by
  obtain ⟨type, start, pages, _, prot⟩ := VmArea.shape_inj same
  refine ⟨?_, ?_, ?_, ?_, fun c hc v inside => ?_⟩
  · rw [type]
    exact regular.type
  · rw [start, pages]
    exact regular.range
  · rw [start, pages]
    exact regular.canonical
  · rw [prot]
    exact regular.prot
  · exact regular.off c hc v ((inArea_congr same).mp inside)

/-- The kernel's areas are ranges that do not wrap. -/
theorem kernelShape_range (n : Nat) : Range (kernelShape n).start (kernelShape n).pages := by
  unfold kernelShape
  split
  · exact ⟨by decide, by decide, by decide⟩
  · exact ⟨by decide, by decide, by decide⟩
  · exact ⟨by decide, by decide, by decide⟩

/-- The page numbers of the kernel's areas on 36 bits. -/
def kernelPage : Nat → Nat
  | 0 => 0xffff80000
  | 1 => 0x888000000
  | _ => 0xc90000000

/-- The pages of a kernel area are counted from its first. -/
theorem kernelPage_eq {a : Nat} (hk : k < (kernelShape a).pages) :
    ((kernelShape a).start / 4096 + k) % 2 ^ 36 = kernelPage a + k := by
  unfold kernelShape at hk ⊢
  unfold kernelPage
  split
  · simp only [kernelTextBase, Nat.reduceDiv] at hk ⊢
    omega
  · simp only [physMappingStart, Nat.reduceDiv] at hk ⊢
    omega
  · simp only [kernelBrkStart, kernelBrkPages, Nat.reduceDiv] at hk ⊢
    omega

/-- The kernel's areas share no page. -/
theorem kernelShape_apart {a b : Nat} (ha : a < 3) (hb : b < 3) (inA : InArea (kernelShape a) v)
    (inB : InArea (kernelShape b) v) : a = b := by
  obtain ⟨i, hi, rfl⟩ := inA
  obtain ⟨j, hj, same⟩ := inB
  rw [pageAt_eq_iff] at same
  rw [kernelPage_eq hi, kernelPage_eq hj] at same
  obtain rfl | rfl | rfl : a = 0 ∨ a = 1 ∨ a = 2 := by omega
  all_goals
    obtain rfl | rfl | rfl : b = 0 ∨ b = 1 ∨ b = 2 := by omega
    all_goals
      simp only [kernelShape, kernelPage, kernelBrkPages] at hi hj same
      omega

/-- The kernel's addresses are canonical. -/
theorem kernelShape_canonical (a : Nat) (lt : k < (kernelShape a).pages) :
    Canonical ((kernelShape a).start + k * pageSize) := by
  apply Or.inr
  unfold kernelShape
  split
  · simp only [kernelTextBase]
    omega
  · simp only [physMappingStart]
    omega
  · simp only [kernelBrkStart]
    omega

/-- Canonical ranges without a common address have no common page. -/
theorem Range.no_common {a : VmArea} {start : Nat} (rangeA : Range a.start a.pages)
    (canonicalA : ∀ k < a.pages, Canonical (a.start + k * pageSize)) (range : Range start n)
    (canonical : ∀ k < n, Canonical (start + k * pageSize))
    (apart : ∀ x, start ≤ x → x < start + n * pageSize →
      ¬ (a.start ≤ x ∧ x < a.start + a.pages * pageSize)) (lt : k < n) :
    ¬ InArea a (pageAt start k) := by
  rintro ⟨j, less, same⟩
  have left := canonical k lt
  have right := canonicalA j less
  rw [pageAt_eq_iff] at same
  obtain ⟨aligned, fits, _⟩ := range
  obtain ⟨alignedA, fitsA, _⟩ := rangeA
  refine apart (start + k * pageSize) (Nat.le_add_right _ _) ?_ ⟨?_, ?_⟩
  · simp only [pageSize]
    omega
  · simp only [Canonical, pageSize] at *
    omega
  · simp only [Canonical, pageSize] at *
    omega

/-- A range of the user half has no page of the kernel's areas. -/
theorem user_off_kernel {start a : Nat} (user : start + n * pageSize ≤ 2 ^ 47) (lt : k < n)
    (ha : a < 3) : ¬ InArea (kernelShape a) (pageAt start k) := by
  rintro ⟨j, hj, same⟩
  rw [pageAt_eq_iff] at same
  rw [kernelPage_eq hj] at same
  simp only [pageSize] at user
  obtain rfl | rfl | rfl : a = 0 ∨ a = 1 ∨ a = 2 := by omega
  all_goals
    simp only [kernelShape, kernelPage, kernelBrkPages] at hj same
    omega

/-! ## Lists of areas -/

/-- The nodes of a space's list, linked both ways. -/
structure Listed (s : Vmm) (mm : Nat) (lis : List Nat) : Prop where
  head : (s.mms mm).vmAreas = lis.head?
  linked : Seg id (fun l => (s.lis l).next) (fun l => (s.lis l).prev) none lis none
  nodup : lis.Nodup
  bound : ∀ l ∈ lis, 3 ≤ l ∧ l < s.nlis

/-- The areas of a list of nodes. -/
def Vmm.vmasOf (s : Vmm) (lis : List Nat) : List Nat := lis.map fun l => (s.lis l).vma

/-- A list of areas is read from its head and its nodes only. -/
theorem Listed.congr (listed : Listed s mm lis) (head : (t.mms mm).vmAreas = (s.mms mm).vmAreas)
    (same : ∀ l ∈ lis, t.lis l = s.lis l) (more : s.nlis ≤ t.nlis) : Listed t mm lis := by
  refine ⟨head.trans listed.head, listed.linked.congr fun l mem => ?_, listed.nodup, fun l mem => ?_⟩
  · rw [same l mem]
    exact ⟨rfl, rfl⟩
  · have := listed.bound l mem
    omega

section Insert

theorem insertVma_frames : (s.insertVma mm vma).frames = s.frames := by
  simp only [Vmm.insertVma]
  split <;> rfl

theorem insertVma_mms : (s.insertVma mm vma).mms =
    Function.update s.mms mm { s.mms mm with vmAreas := some s.nlis } := by
  simp only [Vmm.insertVma]
  split <;> rfl

theorem insertVma_vmas : (s.insertVma mm vma).vmas =
    Function.update s.vmas vma { s.vmas vma with refcnt := (s.vmas vma).refcnt + 1 } := by
  simp only [Vmm.insertVma]
  split <;> rfl

theorem insertVma_nlis : (s.insertVma mm vma).nlis = s.nlis + 1 := by
  simp only [Vmm.insertVma]
  split <;> rfl

/-- The new node. -/
theorem insertVma_li_new (fresh : (s.mms mm).vmAreas ≠ some s.nlis) :
    (s.insertVma mm vma).lis s.nlis = { vma, next := (s.mms mm).vmAreas } := by
  simp only [Vmm.insertVma]
  split
  · rename_i first eq
    have ne : s.nlis ≠ first := fun same => fresh (by rw [eq, same])
    simp [Vmm.modifyMm, Vmm.modifyLi, Vmm.modifyVma, Function.update_of_ne ne]
  · simp [Vmm.modifyMm, Vmm.modifyVma]

/-- The old ones keep their area and their successor, and all but the first their predecessor. -/
theorem insertVma_li_old (old : l ≠ s.nlis) : (s.insertVma mm vma).lis l =
    if (s.mms mm).vmAreas = some l then { s.lis l with prev := some s.nlis } else s.lis l := by
  simp only [Vmm.insertVma]
  split
  · rename_i first eq
    simp only [Vmm.modifyMm, Vmm.modifyLi, Vmm.modifyVma, eq, Option.some.injEq]
    by_cases same : first = l
    · subst same
      simp [Function.update_of_ne old]
    · rw [if_neg same, Function.update_of_ne (Ne.symm same), Function.update_of_ne old]
  · rename_i eq
    simp [Vmm.modifyMm, Vmm.modifyVma, eq, Function.update_of_ne old]

/-- What stays of the rest of the state. -/
theorem insertVma_rest (s : Vmm) (mm vma : Nat) : (s.insertVma mm vma).nmms = s.nmms ∧
    (s.insertVma mm vma).nvmas = s.nvmas ∧ (s.insertVma mm vma).ranOut = s.ranOut ∧
    (s.insertVma mm vma).freedMms = s.freedMms ∧ (s.insertVma mm vma).freedVmas = s.freedVmas ∧
    (s.insertVma mm vma).freedLis = s.freedLis := by
  simp only [Vmm.insertVma]
  split <;> exact ⟨rfl, rfl, rfl, rfl, rfl, rfl⟩

end Insert

/-- `mm_insert_vma` puts a node in front of the list. -/
theorem Listed.insert (listed : Listed s mm lis) (static : 3 ≤ s.nlis) :
    Listed (s.insertVma mm vma) mm (s.nlis :: lis) := by
  have old : ∀ l ∈ lis, l ≠ s.nlis := fun l mem => Nat.ne_of_lt (listed.bound l mem).2
  have fresh : (s.mms mm).vmAreas ≠ some s.nlis := by
    rw [listed.head]
    intro head
    exact old _ (List.mem_of_mem_head? head) rfl
  refine ⟨?_, ⟨?_, ?_, listed.linked.relink listed.nodup ?_ ?_ ?_⟩, ?_, ?_⟩
  · rw [insertVma_mms, Function.update_self]
    rfl
  · dsimp only
    rw [insertVma_li_new fresh]
    rfl
  · dsimp only
    rw [insertVma_li_new fresh, listed.head]
    simp
  · intro l mem
    rw [insertVma_li_old (old l mem)]
    split <;> rfl
  · intro l mem ne
    rw [insertVma_li_old (old l mem), if_neg]
    rwa [listed.head]
  · intro l head
    rw [insertVma_li_old (old l (List.mem_of_mem_head? head)), if_pos (listed.head.trans head)]
    rfl
  · exact List.nodup_cons.mpr ⟨fun mem => old _ mem rfl, listed.nodup⟩
  · intro l mem
    rw [insertVma_nlis]
    rcases List.mem_cons.mp mem with rfl | mem
    · omega
    · have := listed.bound l mem
      omega

/-- The new node has the new area, the old ones theirs. -/
theorem Listed.vmasOf_insert (listed : Listed s mm lis) (vma : Nat) :
    (s.insertVma mm vma).vmasOf (s.nlis :: lis) = vma :: s.vmasOf lis := by
  have old : ∀ l ∈ lis, l ≠ s.nlis := fun l mem => Nat.ne_of_lt (listed.bound l mem).2
  have fresh : (s.mms mm).vmAreas ≠ some s.nlis := by
    rw [listed.head]
    intro head
    exact old _ (List.mem_of_mem_head? head) rfl
  rw [Vmm.vmasOf, List.map_cons, insertVma_li_new fresh]
  congr 1
  apply List.map_congr_left
  intro l mem
  rw [insertVma_li_old (old l mem)]
  split <;> rfl

/-- A node of another list stays. -/
theorem Listed.insert_other (listed : Listed s mm lis) (old : l ≠ s.nlis) (out : l ∉ lis) :
    (s.insertVma mm vma).lis l = s.lis l := by
  rw [insertVma_li_old old, if_neg]
  rw [listed.head]
  intro head
  exact out (List.mem_of_mem_head? head)

/-! ## The invariant -/

/-- A space that `mm_new` or `mm_dupe` returned and that was not freed. -/
def Vmm.Live (s : Vmm) (mm : Nat) : Prop := 0 < mm ∧ mm < s.nmms ∧ mm ∉ s.freedMms

/-- The live spaces. -/
def Vmm.lives (s : Vmm) : Finset Nat := (Finset.range s.nmms).filter fun mm => 0 < mm ∧ mm ∉ s.freedMms

/-- The live spaces, as a finite set. -/
theorem Vmm.mem_lives : mm ∈ s.lives ↔ s.Live mm := by
  rw [Vmm.lives, Finset.mem_filter, Finset.mem_range, Vmm.Live]
  exact and_left_comm

/-- A space more is live. -/
theorem Vmm.live_succ (pos : 0 < s.nmms) (named : ∀ mm ∈ s.freedMms, mm < s.nmms)
    (nmms : t.nmms = s.nmms + 1) (freed : t.freedMms = s.freedMms) :
    t.Live k ↔ s.Live k ∨ k = s.nmms := by
  have fresh : s.nmms ∉ s.freedMms := fun mem => Nat.lt_irrefl _ (named _ mem)
  rw [Vmm.Live, Vmm.Live, nmms, freed]
  constructor
  · rintro ⟨zero, lt, mem⟩
    by_cases last : k = s.nmms
    · exact .inr last
    · exact .inl ⟨zero, by omega, mem⟩
  · rintro (⟨zero, lt, mem⟩ | rfl)
    · exact ⟨zero, by omega, mem⟩
    · exact ⟨pos, Nat.lt_succ_self _, fresh⟩

/-- A new space is one live space more. -/
theorem Vmm.card_lives_succ (live : ∀ {k}, t.Live k ↔ s.Live k ∨ k = s.nmms) :
    t.lives.card = s.lives.card + 1 := by
  have grown : t.lives = insert s.nmms s.lives := by
    ext k
    rw [Finset.mem_insert, Vmm.mem_lives, Vmm.mem_lives, live, or_comm]
  rw [grown, Finset.card_insert_of_notMem]
  rw [Vmm.mem_lives]
  exact fun absurd => Nat.lt_irrefl _ absurd.2.1

/-- A space less is live. -/
theorem Vmm.card_lives_pred (here : s.Live mm) (live : ∀ {k}, t.Live k ↔ s.Live k ∧ k ≠ mm) :
    t.lives.card + 1 = s.lives.card := by
  have fewer : t.lives = s.lives.erase mm := by
    ext k
    rw [Vmm.mem_lives, live, Finset.mem_erase, Vmm.mem_lives, and_comm]
  have here : mm ∈ s.lives := Vmm.mem_lives.mpr here
  rw [fewer]
  exact Finset.card_erase_add_one here

/-- A live space: its list, its regular areas `regs`, and its pages. -/
structure Space (s : Vmm) (mm : Nat) (lis regs : List Nat) : Prop where
  listed : Listed s mm lis
  areas : s.vmasOf lis = regs ++ [2, 1, 0]
  distinct : regs.Nodup
  named : ∀ r ∈ regs, 3 ≤ r ∧ r < s.nvmas
  regular : ∀ r ∈ regs, Regular (s.vmas r)
  single : ∀ r ∈ regs, (s.vmas r).refcnt = 1
  apart : ∀ a ∈ regs, ∀ b ∈ regs, ∀ v, InArea (s.vmas a) v → InArea (s.vmas b) v → a = b
  mapped : ∀ r ∈ regs, ∀ v, InArea (s.vmas r) v →
    s.slot mm v ≠ 0 ∧ s.slot mm v % pageSize = pageFlags (s.vmas r).prot (s.vmas r).user
  kernel : ∀ a < 3, ∀ v, InArea (kernelShape a) v → s.slot mm v = s.slot 0 v
  unmapped : ∀ v, v.length = 4 → (∀ r ∈ regs, ¬ InArea (s.vmas r) v) →
    (∀ a < 3, ¬ InArea (kernelShape a) v) → s.slot mm v = 0

/-- `kernel_mm`. -/
structure KernelSpace (s : Vmm) : Prop where
  head : (s.mms 0).vmAreas = some 0
  lis : s.lis 0 = ⟨0, some 1, none⟩ ∧ s.lis 1 = ⟨1, some 2, some 0⟩ ∧ s.lis 2 = ⟨2, none, some 1⟩
  shape : ∀ a < 3, (s.vmas a).shape = kernelShape a
  mapped : ∀ a < 3, ∀ v, InArea (kernelShape a) v → s.slot 0 v ≠ 0 ∧ s.slot 0 v % pageSize = 3
  unmapped : ∀ v, v.length = 4 → (∀ a < 3, ¬ InArea (kernelShape a) v) → s.slot 0 v = 0
  named : 0 < s.nmms ∧ 3 ≤ s.nvmas ∧ 3 ≤ s.nlis

/-- The pages that own their frames: the kernel heap's in `kernel_mm`, those of regular areas in the
live spaces. -/
def owns (s : Vmm) (regs : Nat → List Nat) (mm : Nat) (v : Path) : Prop :=
  mm = 0 ∧ InArea (kernelShape 2) v ∨ s.Live mm ∧ ∃ r ∈ regs mm, InArea (s.vmas r) v

/-- The invariant of `vmm.c` between calls, with the nodes and the regular areas of each space. -/
structure Spaces (rs : RegionTable) (s : Vmm) (lis regs : Nat → List Nat) : Prop where
  tables : Tables rs s (owns s regs) none none
  kernel : KernelSpace s
  space : ∀ mm, s.Live mm → Space s mm (lis mm) (regs mm)
  dead : ∀ mm, mm ≠ 0 → ¬ s.Live mm → ∀ v, v.length = 4 → s.slot mm v = 0
  lisApart : ∀ mm k l, s.Live mm → s.Live k → l ∈ lis mm → l ∈ lis k → mm = k
  regsApart : ∀ mm k r, s.Live mm → s.Live k → r ∈ regs mm → r ∈ regs k → mm = k
  refcnt : ∀ a < 3, (s.vmas a).refcnt = s.lives.card
  freed : ∀ mm ∈ s.freedMms, mm < s.nmms

/-- A space is a matter of its own records and pages and of the kernel's pages. -/
theorem Space.congr (space : Space s mm lis regs)
    (head : (t.mms mm).vmAreas = (s.mms mm).vmAreas) (nodes : ∀ l ∈ lis, t.lis l = s.lis l)
    (areas : ∀ r ∈ regs, t.vmas r = s.vmas r) (nlis : s.nlis ≤ t.nlis) (nvmas : s.nvmas ≤ t.nvmas)
    (slots : ∀ v, v.length = 4 → t.slot mm v = s.slot mm v)
    (kernel : ∀ v, v.length = 4 → t.slot 0 v = s.slot 0 v) : Space t mm lis regs := by
  refine ⟨space.listed.congr head nodes nlis, ?_, space.distinct, fun r mem => ?_, fun r mem => ?_,
    fun r mem => ?_, fun a ha b hb v => ?_, fun r mem v => ?_, fun a ha v inside => ?_,
    fun v long out => ?_⟩
  · rw [← space.areas]
    apply List.map_congr_left
    intro l mem
    rw [nodes l mem]
  · have := space.named r mem
    omega
  · rw [areas r mem]
    exact space.regular r mem
  · rw [areas r mem]
    exact space.single r mem
  · rw [areas a ha, areas b hb]
    exact space.apart a ha b hb v
  · rw [areas r mem]
    intro inside
    rw [slots v inside.length]
    exact space.mapped r mem v inside
  · rw [slots v inside.length, kernel v inside.length]
    exact space.kernel a ha v inside
  · rw [slots v long]
    refine space.unmapped v long fun r mem => ?_
    rw [← areas r mem]
    exact out r mem

/-- The kernel's own space depends on its three areas and its entries only. -/
theorem KernelSpace.congr (kernel : KernelSpace s) (head : (t.mms 0).vmAreas = (s.mms 0).vmAreas)
    (nodes : ∀ l < 3, t.lis l = s.lis l) (areas : ∀ a < 3, (t.vmas a).shape = (s.vmas a).shape)
    (slots : ∀ v, v.length = 4 → t.slot 0 v = s.slot 0 v)
    (more : s.nmms ≤ t.nmms ∧ s.nvmas ≤ t.nvmas ∧ s.nlis ≤ t.nlis) : KernelSpace t := by
  refine ⟨head.trans kernel.head, ?_, fun a ha => (areas a ha).trans (kernel.shape a ha),
    fun a ha v inside => ?_, fun v long => ?_, ?_⟩
  · rw [nodes 0 (by decide), nodes 1 (by decide), nodes 2 (by decide)]
    exact kernel.lis
  · rw [slots v inside.length]
    exact kernel.mapped a ha v inside
  · rw [slots v long]
    exact kernel.unmapped v long
  · have := kernel.named
    omega

/-- Slots are a matter of memory and of the p4s. -/
theorem slot_records (frames : t.frames = s.frames) (p4 : ∀ k, (t.mms k).p4 = (s.mms k).p4)
    (mm : Nat) (p : Path) : t.slot mm p = s.slot mm p := by
  unfold Vmm.slot
  rw [frames, funext p4]

/-- So is the invariant of the tables. -/
theorem Tables.records {spare : Option Nat} {hole : Role} (tables : Tables rs s own spare hole)
    (frames : t.frames = s.frames) (p4 : ∀ k, (t.mms k).p4 = (s.mms k).p4) :
    Tables rs t own spare hole := by
  have same : ∀ k p, p.length ≤ 4 → t.slot k p = s.slot k p := fun k p _ =>
    slot_records frames p4 k p
  refine ⟨?_, ?_, fun k => ?_, tables.tight.congr same⟩
  · rw [frames]
    exact tables.frames
  · rw [frames]
    refine tables.exclusive.congr fun r => ?_
    cases r with
    | none => rfl
    | some path => exact held_congr same (fun absurd => (by cases absurd))
  · rw [p4 k]
    exact tables.root k

theorem insertVma_p4 : ((s.insertVma mm vma).mms k).p4 = (s.mms k).p4 := by
  rw [insertVma_mms, Function.update_apply]
  split
  · rename_i same
    rw [same]
  · rfl

/-- A space without pages has no tables. -/
theorem Tables.no_tables {spare : Option Nat} (tables : Tables rs s own spare none)
    (empty : ∀ v, v.length = 4 → s.slot mm v = 0) : (s.mms mm).p4 = 0 := by
  have root : s.slot mm [] = 0 := by
    refine Radix.slot_eq_zero_of_leaves (d := 4) (fun p short there => ?_) empty (Nat.zero_le 4)
    exact tables.tight mm p (Nat.le_of_lt_succ short) (fun absurd => (by cases absurd)) there
  exact root

/-- Flags stay below a page's size. -/
theorem pageFlags_lt (prot : Nat) (user : Bool) : pageFlags prot user < pageSize := by
  unfold pageFlags protToX86Prot
  split <;> cases user <;> decide

/-- A mapped page has at least the present bit. -/
theorem pageFlags_pos (prot : Nat) (user : Bool) : 0 < pageFlags prot user := by
  unfold pageFlags protToX86Prot
  split <;> cases user <;> decide

/-- The flags survive the truncation of `prot` to a byte. -/
theorem pageFlags_mod (prot : Nat) (user : Bool) :
    pageFlags (prot % 2 ^ 8) user = pageFlags prot user := by
  have bit : (prot % 2 ^ 8) &&& pageProtWrite = prot &&& pageProtWrite := by
    apply Nat.eq_of_testBit_eq
    intro i
    rw [Nat.testBit_and, Nat.testBit_and, Nat.testBit_mod_two_pow]
    by_cases low : i < 8
    · simp [low]
    · have high : pageProtWrite.testBit i = false := by
        apply Nat.testBit_lt_two_pow
        exact Nat.lt_of_lt_of_le (by decide) (Nat.pow_le_pow_right (by decide) (Nat.le_of_not_lt low))
      simp [high]
  rw [pageFlags, pageFlags, protToX86Prot, protToX86Prot, bit]

/-! ## Walking a list -/

/-- A list without repetitions of names below a bound is no longer than it. -/
theorem length_le_of_nodup {l : List Nat} (nodup : l.Nodup) (bound : ∀ x ∈ l, x < n) :
    l.length ≤ n := by
  have sub : l.toFinset ⊆ Finset.range n := fun x mem =>
    Finset.mem_range.mpr (bound x (List.mem_toFinset.mp mem))
  have card := Finset.card_le_card sub
  rwa [List.toFinset_card_of_nodup nodup, Finset.card_range] at card

/-- The successor of a node on a list. -/
theorem Listed.next {lis pre ls : List Nat} {l : Nat} (listed : Listed s mm lis)
    (split : lis = pre ++ l :: ls) : (s.lis l).next = ls.head? := by
  have linked := listed.linked
  rw [split, seg_append] at linked
  have next := linked.2.2.1
  simpa using next

/-- The names of a space's areas are different. -/
theorem Space.areas_nodup {lis regs : List Nat} (space : Space s mm lis regs) :
    (regs ++ [2, 1, 0]).Nodup := by
  refine List.nodup_append.mpr ⟨space.distinct, by decide, fun a mem b kernel => ?_⟩
  have := (space.named a mem).1
  simp only [List.mem_cons, List.not_mem_nil, or_false] at kernel
  omega

/-- The area of a node is one of the space's. -/
theorem Space.vmasOf_subset {ls : List Nat} (space : Space s mm lis regs) (sub : ls ⊆ lis) :
    s.vmasOf ls ⊆ regs ++ [2, 1, 0] := by
  rw [← space.areas]
  exact List.map_subset _ sub

/-- An area has one node. -/
theorem Space.vma_once {pre ls : List Nat} (space : Space s mm (pre ++ l :: ls) regs) :
    (s.lis l).vma ∉ s.vmasOf pre ∧ (s.lis l).vma ∉ s.vmasOf ls := by
  have nodup := space.areas_nodup
  rw [← space.areas, Vmm.vmasOf, List.map_append, List.map_cons] at nodup
  obtain ⟨_, rest, apart⟩ := List.nodup_append.mp nodup
  exact ⟨fun before => apart _ before _ List.mem_cons_self rfl, (List.nodup_cons.mp rest).1⟩

/-- The regular areas of a space are those that are not the kernel's. -/
theorem Space.mem_regs_iff {r : Nat} (space : Space s mm lis regs) (mem : r ∈ regs ++ [2, 1, 0]) :
    r ∈ regs ↔ 3 ≤ r := by
  refine ⟨fun here => (space.named r here).1, fun le => ?_⟩
  refine (List.mem_append.mp mem).resolve_right fun kernel => ?_
  simp only [List.mem_cons, List.not_mem_nil, or_false] at kernel
  omega

/-- A space's own areas are those beyond the kernel's three. -/
theorem Space.filter_vmasOf (space : Space s mm lis regs) :
    (s.vmasOf lis).filter (3 ≤ ·) = regs := by
  rw [space.areas, List.filter_append, List.filter_eq_self.mpr]
  · simp
  · intro r mem
    simpa using (space.named r mem).1

/-- What the nodes cost is what the regular areas do, when the kernel's cost nothing. -/
theorem Space.sum_regs (space : Space s mm lis regs) (cost : Nat → Nat) :
    (lis.map fun l => if 3 ≤ (s.lis l).vma then cost (s.lis l).vma else 0).sum =
      (regs.map cost).sum := by
  have through : (lis.map fun l => if 3 ≤ (s.lis l).vma then cost (s.lis l).vma else 0) =
      (s.vmasOf lis).map fun r => if 3 ≤ r then cost r else 0 := by
    rw [Vmm.vmasOf, List.map_map]
    rfl
  have regular : (regs.map fun r => if 3 ≤ r then cost r else 0) = regs.map cost :=
    List.map_congr_left fun r mem => if_pos (space.named r mem).1
  rw [through, space.areas, List.map_append, List.sum_append, regular]
  simp

theorem sticky_walkAreas {M : Meter Vmm} {body after : Nat → Op Unit}
    (each : ∀ a, Sticky M (body a)) (then_ : ∀ l, Sticky M (after l)) {fuel : Nat}
    {head : Option Nat} : Sticky M (walkAreas body after fuel head) := by
  induction fuel generalizing head with
  | zero =>
    cases head with
    | none => exact .pure ()
    | some l => exact .throw _
  | succ fuel ih =>
    cases head with
    | none => exact .pure ()
    | some l =>
      exact .bind .get fun _ => .bind (each _) fun _ => .bind .get fun _ => .bind (then_ l) fun _ => ih

/-- The rule for a walk: an invariant of the nodes still to come, a budget for each node. -/
theorem walkAreas_runs {body after : Nat → Op Unit} (J : List Nat → Vmm → Prop) (cost : Nat → Nat)
    (each : ∀ a, Sticky (meter rs) (body a)) (then_ : ∀ l, Sticky (meter rs) (after l))
    (round : ∀ l ls t, ¬ t.ranOut = true → J (l :: ls) t →
      Runs (meter rs) (body (t.lis l).vma) (cost l) t fun _ t' => (t'.lis l).next = ls.head? ∧
        (¬ t'.ranOut = true → Runs (meter rs) (after l) 0 t' fun _ t'' => J ls t''))
    {ls : List Nat} {fuel : Nat} (enough : ls.length ≤ fuel) (met : ¬ s.ranOut = true)
    (start : J ls s) :
    Runs (meter rs) (walkAreas body after fuel ls.head?) (ls.map cost).sum s fun _ s' => J [] s' := by
  induction ls generalizing fuel s with
  | nil =>
    cases fuel with
    | zero => exact .pure met start
    | succ fuel => exact .pure met start
  | cons l ls ih =>
    obtain ⟨fuel, rfl⟩ : ∃ k, fuel = k + 1 := by
      rw [List.length_cons] at enough
      exact ⟨fuel - 1, by omega⟩
    rw [List.map_cons, List.sum_cons]
    refine .of_get (.bind ((round l ls s met start).imp ?_) fun _ => .bind .get fun _ =>
      .bind (then_ l) fun _ => sticky_walkAreas each then_)
    intro _ t ⟨next, rest⟩ met₁
    refine .of_get (.seq ((rest met₁).imp ?_) fun _ => sticky_walkAreas each then_)
    intro _ t' inv met'
    rw [next]
    exact ih (Nat.le_of_succ_le_succ enough) met' inv

end Blackcomb.Mm
