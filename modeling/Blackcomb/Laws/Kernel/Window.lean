import Blackcomb.Laws.Mm.Books
import Blackcomb.Laws.Kernel.KernelHalf

/-!
# The window of physical memory

`kernel_mm_init` maps 1024 pages of physical memory at `PHYS_MAPPING_START`, and `P_TO_V` is only good
for those. The frames that `pmm_alloc` returns come from the regions of the boot loader's map, which
may end anywhere. So the kernel reaches every frame exactly when every region ends in the window; a
region that does not is handed out all the same, once the frames below are gone.
-/

namespace Blackcomb.Kernel

open Memory Run Budget Mm Fs

variable {rs : RegionTable} {s s₀ v : Vmm} {m : Machine} {elf mem : Bytes} {stack mm f : Nat}

/-- `P_TO_V`. -/
def pToV (x : Nat) : Nat := add64 physMappingStart x

/-- The end of the physical memory that `kernel_mm_init` maps at `PHYS_MAPPING_START`. -/
def physWindow : Nat := (kernelShape 1).pages * pageSize

/-- The page at a physical address lies in the window. -/
def InWindow (f : Nat) : Prop := f + pageSize ≤ physWindow

instance : DecidablePred InWindow := fun _ => inferInstanceAs (Decidable (_ ≤ _))

/-- Every region that has a page ends in the window. -/
def LowTable (rs : RegionTable) : Prop := ∀ r ∈ rs.regions, r.pages = 0 ∨ r.stop ≤ physWindow

/-- The frames handed out, those that `pmm_alloc` comes to when it is called again and again, and the
pages of the bitmaps lie in the window. -/
structure Windowed (rs : RegionTable) (s : Vmm) : Prop where
  taken : ∀ f ∈ s.frames.taken, InWindow f
  next : ∀ n, ∀ f ∈ (pmmAllocs rs n s.frames.mem).1, InWindow f
  bitmap : ∀ r ∈ rs.regions, ∀ j < r.bmapPages, InWindow (r.start + j * pageSize)

/-- `kernel_mm` and every live space have the window, page for page, for reading and writing by the
kernel: `P_TO_V` of an address in it stands for that address. -/
def PhysMapped (s : Vmm) : Prop :=
  (s.vmas 1).start = physMappingStart ∧ (s.vmas 1).pages * pageSize = physWindow ∧
    ∀ mm, mm = 0 ∨ s.Live mm → ∀ a < physWindow,
      s.leafEntry mm (pToV a) = pageOf a ||| (pagePresent ||| pageWrite) ∧ s.translate mm (pToV a) = a

/-! ## Low tables -/

namespace LowTable

theorem page {r : Region} {j : Nat} (low : LowTable rs) (mem : r ∈ rs.regions) (lt : j < r.pages) :
    InWindow (r.start + j * pageSize) := by
  have stop : r.stop ≤ physWindow := (low r mem).resolve_left (by omega)
  simp only [Region.stop, InWindow, pageSize] at *
  omega

/-- Whatever the bitmaps hold, `pmm_alloc` returns a page in the window. Where it fails, it clears the
page at `0`, which is there too. -/
theorem pmmAlloc (low : LowTable rs) (m : Bytes) : InWindow (pmmAlloc rs m).1 := by
  have first : (Mm.pmmAlloc rs m).1 = (allocFrom m rs.regions).1 := rfl
  rw [first]
  rcases allocFrom_page m rs.regions with none | ⟨r, mem, j, lt, found⟩
  · rw [none]
    decide
  · rw [found]
    exact low.page mem lt

theorem pmmAllocs (low : LowTable rs) (n : Nat) (m : Bytes) :
    ∀ f ∈ (pmmAllocs rs n m).1, InWindow f := by
  induction n generalizing m with
  | zero =>
    intro f mem
    cases mem
  | succ n ih =>
    intro f mem
    rcases List.mem_cons.mp mem with rfl | mem
    · exact low.pmmAlloc m
    · exact ih _ f mem

end LowTable

/-- The meter of the frames handed out, which tells whether they all lie in the window. -/
def window : Meter Vmm where
  out s := ∀ f ∈ s.frames.taken, InWindow f
  left _ := 0

theorem LowTable.ofFrames (low : LowTable rs) : OfFrames rs window where
  alloc := by
    intro s f s' ran inside g mem
    rw [allocFrame_eq] at ran
    cases ran
    rcases List.mem_cons.mp mem with rfl | mem
    · exact low.pmmAlloc s.frames.mem
    · exact inside g mem
  free := by
    intro f s _ s' ran inside g mem
    obtain ⟨frames, freed, ran⟩ := bind_eq_ok.mp ran
    cases ran
    obtain ⟨_, _, freed⟩ := bind_eq_ok.mp freed
    cases freed
    exact inside g (List.mem_of_mem_erase mem)
  rest := by
    intro s t same _ inside f mem
    rw [same] at mem
    exact inside f mem

/-! ## Runs -/

theorem sticky_kernelMmInit {M : Meter Vmm} [frames : OfFrames rs M] :
    Sticky M (kernelMmInit rs mm) := by
  have mark : ∀ {b : Nat} {li : VmAreaLi}, Sticky M (modify (·.modifyLi b fun _ => li) : Op Unit) :=
    .modify fun _ => frames.rest rfl rfl
  have record : ∀ {b : Nat} {f : VmArea → VmArea}, Sticky M (modify (·.modifyVma b f) : Op Unit) :=
    .modify fun _ => frames.rest rfl rfl
  exact .bind (.modify fun _ => frames.rest rfl rfl) fun _ => .bind record fun _ =>
    .bind sticky_vmmMapRange fun _ => .bind mark fun _ => .bind record fun _ =>
    .bind sticky_vmmMapRange fun _ => .bind mark fun _ => .bind record fun _ =>
    .bind (.forTo fun _ => sticky_mapFresh) fun _ => mark

/-- With a low table, every frame lies in the window in every state of every run, whatever happens. -/
theorem LowTable.windowed (low : LowTable rs)
    (booted : kernelMmInit rs 0 (Vmm.boot rs mem) = .ok ((), s₀))
    (init : execElf rs elf s₀ = .ok (mm, v))
    (reached : Reach (Machine.step rs) (fun _ _ => True) ⟨startInit stack, v⟩ m) :
    Windowed rs m.vmm := by
  have frames := low.ofFrames
  have start : window.out (Vmm.boot rs mem) := fun f mem => by cases mem
  have start := sticky_kernelMmInit (M := window) _ _ _ booted start
  have start := sticky_execElf (M := window) _ _ _ init start
  refine ⟨?_, fun n => low.pmmAllocs n m.vmm.frames.mem, fun r mem j lt => ?_⟩
  · exact reached.invariant (fun m => window.out m.vmm) start fun _ _ _ inside _ taken =>
      Machine.step_sticky (M := window) taken inside
  · exact low.page mem (Nat.lt_of_lt_of_le lt r.bmapPages_le)

/-- A region that has a page and ends beyond the window: its last page is part of its bitmap, or is
handed out, or will be. -/
theorem Windowed.low (windowed : Windowed rs s) (inv : FramesInv rs s.frames) : LowTable rs := by
  intro r mem
  by_cases none : r.pages = 0
  · exact .inl none
  have last : InWindow (r.start + (r.pages - 1) * pageSize) := by
    by_cases bitmap : r.pages - 1 < r.bmapPages
    · exact windowed.bitmap r mem _ bitmap
    · have frame : IsFrame rs (r.start + (r.pages - 1) * pageSize) :=
        ⟨r, mem, r.pages - 1, by omega, by omega, rfl⟩
      by_cases taken : r.start + (r.pages - 1) * pageSize ∈ s.frames.taken
      · exact windowed.taken _ taken
      · obtain ⟨n, found, _⟩ := inv.eventually frame taken
        exact windowed.next n _ found
  apply Or.inr
  simp only [InWindow, Region.stop, pageSize] at last ⊢
  omega

/-- The window is as `kernel_mm_init` mapped it. -/
theorem Coupled.physMapped (coupled : Coupled rs s₀ m) (direct : Direct 1 (s₀.slot 0)) :
    PhysMapped m.vmm := by
  obtain ⟨lists, areas, spaces⟩ := coupled.spaces
  obtain ⟨_, start, pages, _⟩ :=
    VmArea.shape_inj ((spaces.kernel.shape 1 (by decide)).trans (kernelShape_shape 1).symm)
  refine ⟨start, by rw [pages]; rfl, fun mm here a lt => ?_⟩
  have virt : pToV a = physMappingStart + a := by
    simp only [physWindow, kernelShape, pageSize] at lt
    rw [pToV, add64, Nat.mod_eq_of_lt]
    simp only [physMappingStart]
    omega
  obtain ⟨k, less, page, path⟩ := (kernelShape_range 1).path_of_address
    (show (kernelShape 1).start ≤ pToV a by rw [virt]; exact Nat.le_add_right _ _)
    (by rw [virt]; exact Nat.add_lt_add_left lt _)
  have number : pageOf a = k * pageSize := by
    rw [virt] at page
    simp only [kernelShape, physMappingStart, pageSize, pageOf] at page ⊢
    omega
  have slot : m.vmm.slot mm (pathOf (pToV a)) = k * pageSize ||| 3 := by
    have zero : m.vmm.slot 0 (pathOf (pToV a)) = k * pageSize ||| 3 := by
      rw [coupled.slots _ (Nat.le_of_eq (pathOf_length _)), path]
      exact direct k less
    rcases here with rfl | live
    · exact zero
    · rw [(spaces.space mm live).kernel 1 (by decide) _ ⟨k, less, path⟩, zero]
  have aligned : k * pageSize % pageSize = 0 := Nat.mul_mod_left k pageSize
  have leaf : m.vmm.leafEntry mm (pToV a) = k * pageSize ||| 3 := by
    rw [leafEntry_eq spaces.tables.layout, slot]
    rw [slot]
    exact (or_three aligned).1
  refine ⟨by rw [leaf, number]; rfl, ?_⟩
  rw [Vmm.translate, Vmm.vmmGetPhys, leaf, pageOf_or aligned (by decide), ← number, virt]
  simp only [pageOf, physMappingStart, pageSize]
  omega

/-- **Frames that the kernel reaches.** From `kernel_mm_init` and the `exec_elf` of init on: if every
region ends in the window, then in every state of every run every frame and every bitmap lies in it.
In the runs of `kernelHalf_kept`, every space has the whole window, and a region that ends beyond it
has a page that is part of a bitmap, is handed out or will be. -/
theorem windowed_iff (rs : RegionTable) (mem elf : Bytes) (stack mm : Nat) (s₀ v : Vmm) (m : Machine)
    (booted : kernelMmInit rs 0 (Vmm.boot rs mem) = .ok ((), s₀))
    (init : execElf rs elf s₀ = .ok (mm, v))
    (reached : Reach (Machine.step rs) (fun _ _ => True) ⟨startInit stack, v⟩ m) :
    (LowTable rs → Windowed rs m.vmm) ∧
      ((∀ r ∈ rs.regions, 0 < r.start) → UserSegments elf → FileFits elf →
        Reach (Machine.step rs) (fun move m => m.Orderly move ∧ move.Fits) ⟨startInit stack, v⟩ m →
        m.vmm.ranOut = false → PhysMapped m.vmm ∧ (Windowed rs m.vmm ↔ LowTable rs)) := by
  refine ⟨fun low => low.windowed booted init reached, fun above user fits orderly met => ?_⟩
  obtain ⟨met₀, coupled⟩ := Coupled.reach above booted init user fits orderly met
  obtain ⟨_, direct⟩ := (kernelMmInit_direct rs mem).safe booted met₀
  obtain ⟨lists, areas, spaces⟩ := coupled.spaces
  exact ⟨coupled.physMapped direct, fun windowed => windowed.low spaces.tables.frames,
    fun low => low.windowed booted init reached⟩

/-- `exec_elf` of a file without segments returns after `kernel_mm_init`, whatever frames there are. -/
theorem execElf_returns (booted : kernelMmInit rs 0 (Vmm.boot rs mem) = .ok ((), s₀)) :
    ∃ v, execElf rs (fun _ => 0) s₀ = .ok (1, v) := by
  obtain ⟨books, _, first, _⟩ :=
    kernelMmInit_books (fun _ => []) (fun _ => []) booted
  obtain ⟨t, made⟩ := books.mmNew_returns rs (by rw [first]; exact Nat.one_pos) id
  obtain ⟨_, v, stack⟩ : ∃ a v, anonMmapUser rs s₀.nmms userStackBase userStackPages
      (pageProtRead ||| pageProtWrite) t = .ok (a, v) :=
    returns_anonMmap _ _ _ (by decide) (by decide) t
  rw [first] at made stack
  exact ⟨v, Budget.bind_eq_ok.mpr ⟨1, t, made, Budget.bind_eq_ok.mpr ⟨_, t, rfl,
    Budget.bind_eq_ok.mpr ⟨_, v, stack, rfl⟩⟩⟩⟩

/-- Two MiB of memory from the second MiB on, the window's upper half. -/
def upperHalf : Region where
  start := 0x200000
  pages := 512
  aligned := rfl
  fits := by decide

def lowTable : RegionTable := ⟨[upperHalf], List.pairwise_singleton _ _⟩

/-- `kernel_mm_init` and the `exec_elf` of a file without segments, on that memory. -/
theorem windowed_iff_low : ∃ s₀ v,
    kernelMmInit lowTable 0 (Vmm.boot lowTable fun _ => 0) = .ok ((), s₀) ∧
      execElf lowTable (fun _ => 0) s₀ = .ok (1, v) ∧ LowTable lowTable ∧ Windowed lowTable v := by
  obtain ⟨_, s₀, booted⟩ := returns_kernelMmInit lowTable 0 (Vmm.boot lowTable fun _ => 0)
  obtain ⟨v, ran⟩ := execElf_returns booted
  have low : LowTable lowTable := by
    intro r mem
    rw [List.mem_singleton.mp mem]
    exact .inr (by decide)
  exact ⟨s₀, v, booted, ran, low,
    (windowed_iff lowTable (fun _ => 0) _ 0 1 s₀ v ⟨startInit 0, v⟩ booted ran .start).1 low⟩

/-- A region of 256 MiB from the second MiB on: with one fork done, some frame is outside the window,
handed out or to be. -/
theorem windowed_fails : ∃ s₀ v m,
    kernelMmInit wideTable 0 (Vmm.boot wideTable fun _ => 0) = .ok ((), s₀) ∧
      execElf wideTable (elfOf (fun _ => 0) 0x400000 0x1000 0x1000) s₀ = .ok (1, v) ∧
      Machine.step wideTable (.call (.fork 0) fun _ => 0) ⟨startInit 0, v⟩ = .ok m ∧
      m.vmm.ranOut = false ∧ ¬ Windowed wideTable m.vmm := by
  obtain ⟨s₀, v, m, booted, ran, taken, _, met⟩ := wide_forked
  obtain ⟨user, fits, _⟩ := elfOf_user fun _ => 0
  obtain ⟨_, coupled⟩ := Coupled.reach wide_above booted ran user fits
    (Reach.start.step (l := .call (.fork 0) fun _ => 0) ⟨trivial, trivial⟩ taken) met
  obtain ⟨lists, areas, spaces⟩ := coupled.spaces
  refine ⟨s₀, v, m, booted, ran, taken, met, fun windowed => ?_⟩
  have low := windowed.low spaces.tables.frames wideRegion (List.mem_singleton_self wideRegion)
  exact absurd low (by decide)

end Blackcomb.Kernel
