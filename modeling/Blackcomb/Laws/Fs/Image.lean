import Blackcomb.Laws.Fs.Exec
import Blackcomb.Laws.Mm.Isolation

/-!
# Loading an executable

What the memory of a new space holds after `exec_elf`. The conditions on a file are said in numbers of
pages, without the arithmetic of the loader: a segment has the pages from the one of its first byte to
the one of its last, and no two segments have a page in common. Each of its bytes is then the byte of
the file that the header names, or zero.

A file that is loaded has no segment of more than `2 ^ 19` pages: `anon_mmap` computes the offset of
a page in an `int`. With enough frames, every other one is loaded.

**What it does not establish.** The entry point is not followed into the program. Without enough
frames nothing is said of what was loaded.
-/

namespace Blackcomb.Fs

open Memory Run Budget Mm

variable {rs : RegionTable} {s s' t : Vmm} {own : Nat → Path → Prop} {mm n start size x : Nat}
  {v : Path} {elf : Bytes} {ph : Elf64Phdr} {a : Nat × Nat} {done : List (Nat × Nat)}

/-! ## Segments by pages -/

/-- An address in the pages of a segment. -/
def Elf64Phdr.Has (ph : Elf64Phdr) (x : Nat) : Prop :=
  ph.pVaddr / pageSize ≤ x / pageSize ∧
    x / pageSize < (ph.pVaddr + ph.pMemsz + pageSize - 1) / pageSize

/-- An address in the pages of the user stack. -/
def InStack (x : Nat) : Prop :=
  userStackBase ≤ x ∧ x < userStackBase + userStackPages * pageSize

/-- A file of `size` bytes that can be loaded: of every `PT_LOAD` header the bytes in the file are
bytes of the file and of the segment, at the same offset in a page; the pages are in the user half,
and none is one of the user stack or of another segment. -/
structure LoadableImage (elf : Bytes) (size : Nat) : Prop where
  filesz : ∀ i < ePhnum elf, (phArr elf i).pType = ptLoad →
    (phArr elf i).pFilesz ≤ (phArr elf i).pMemsz
  inFile : ∀ i < ePhnum elf, (phArr elf i).pType = ptLoad →
    (phArr elf i).pOffset + (phArr elf i).pFilesz ≤ size
  congruent : ∀ i < ePhnum elf, (phArr elf i).pType = ptLoad →
    (phArr elf i).pVaddr % pageSize = (phArr elf i).pOffset % pageSize
  user : ∀ i < ePhnum elf, (phArr elf i).pType = ptLoad → ∀ x, (phArr elf i).Has x → x < 2 ^ 47
  stack : ∀ i < ePhnum elf, (phArr elf i).pType = ptLoad → ∀ x, (phArr elf i).Has x → ¬ InStack x
  apart : ∀ i < ePhnum elf, ∀ j < ePhnum elf, (phArr elf i).pType = ptLoad →
    (phArr elf j).pType = ptLoad → i ≠ j → ∀ x, (phArr elf i).Has x → ¬ (phArr elf j).Has x

/-- What a program finds when it starts: its segments in memory, an empty stack, the entry point and
the top of the stack. -/
structure FaithfullyLoaded (s : Vmm) (mm : Nat) (regs : TaskRegs) (elf : Bytes) : Prop where
  mapped : ∀ i < ePhnum elf, (phArr elf i).pType = ptLoad → ∀ j < (phArr elf i).pMemsz,
    s.Mapped mm ((phArr elf i).pVaddr + j)
  file : ∀ i < ePhnum elf, (phArr elf i).pType = ptLoad → ∀ j < (phArr elf i).pFilesz,
    s.frames.mem (s.translate mm ((phArr elf i).pVaddr + j)) = elf ((phArr elf i).pOffset + j)
  zeros : ∀ i < ePhnum elf, (phArr elf i).pType = ptLoad → ∀ j, (phArr elf i).pFilesz ≤ j →
    j < (phArr elf i).pMemsz → s.frames.mem (s.translate mm ((phArr elf i).pVaddr + j)) = 0
  stack : ∀ x, InStack x → s.Mapped mm x ∧ s.frames.mem (s.translate mm x) = 0
  rip : regs.rip = eEntry elf
  rsp : regs.rsp = userStackBase + userStackPages * pageSize

section User

variable (low : ∀ x, ph.Has x → x < 2 ^ 47) (narrow : ph.pVaddr < 2 ^ 64)

include low narrow

/-- A segment in the user half ends there, or has no page. -/
theorem Elf64Phdr.user_end : ph.pVaddr + ph.pMemsz ≤ 2 ^ 47 ∨
    ph.pMemsz = 0 ∧ ph.pVaddr % pageSize = 0 := by
  have first := low ph.pVaddr
  have last := low (ph.pVaddr + ph.pMemsz - 1)
  simp only [Has, pageSize] at *
  by_cases none : ph.pMemsz = 0
  · by_cases aligned : ph.pVaddr % 4096 = 0
    · exact .inr ⟨none, aligned⟩
    · have := first (by omega)
      omega
  · have := last (by omega)
    omega

/-- `DIV_CEIL` does not wrap around: the pages are those of the segment. -/
theorem Elf64Phdr.memPages_eq : ph.memPages =
    (ph.pVaddr + ph.pMemsz + pageSize - 1) / pageSize - ph.pVaddr / pageSize := by
  have bound := ph.user_end low narrow
  simp only [memPages, extraspace, add64, pageSize] at *
  omega

/-- Nor does the end of the bytes of the file. -/
theorem Elf64Phdr.fileBytes_eq (inside : ph.pFilesz ≤ ph.pMemsz) :
    ph.fileBytes = ph.pFilesz + ph.pVaddr % pageSize := by
  have bound := ph.user_end low narrow
  simp only [fileBytes, extraspace, add64, pageSize] at *
  omega

/-- The pages that are mapped are those of the segment. -/
theorem Elf64Phdr.covers_iff :
    Covers (ph.mapAddr, ph.memPages) v ↔ ∃ x, ph.Has x ∧ v = pathOf x := by
  have pages := ph.memPages_eq low narrow
  constructor
  · rintro ⟨k, lt, rfl⟩
    have inside : ph.Has (ph.mapAddr + k * pageSize) := by
      simp only [Has, mapAddr, pageOf, pageSize] at *
      omega
    refine ⟨_, inside, ?_⟩
    have bound := low _ inside
    rw [pageAt, add64, Nat.mod_eq_of_lt (by omega)]
  · rintro ⟨x, inside, rfl⟩
    have bound := low x inside
    refine ⟨x / pageSize - ph.pVaddr / pageSize, ?_, ?_⟩
    · simp only [Has, pageSize] at *
      omega
    · rw [pageAt, pathOf_eq_iff]
      simp only [Has, add64, mapAddr, pageOf, pageSize] at *
      omega

end User

/-- Addresses of the user half with the same path are in the same page. -/
theorem user_page_eq {y : Nat} (lowX : x < 2 ^ 47) (lowY : y < 2 ^ 47) (same : pathOf x = pathOf y) :
    x / pageSize = y / pageSize := by
  rw [pathOf_eq_iff] at same
  simp only [pageSize]
  omega

/-- The kernel has no page of the user half. -/
theorem user_page_off_kernel (low : x < 2 ^ 47) (kernel : a ∈ kernelRanges) :
    ¬ Covers a (pathOf x) := by
  intro inside
  obtain ⟨b, static, area⟩ := covers_kernel.mp ⟨a, kernel, inside⟩
  have path : pathOf x = pageAt (pageOf x) 0 := by
    rw [pageAt, pathOf_eq_iff]
    simp only [add64, pageOf, pageSize]
    omega
  rw [path] at area
  refine user_off_kernel (n := 1) ?_ Nat.one_pos static area
  simp only [pageOf, pageSize]
  omega

/-- The pages of the user stack. -/
theorem stack_page (inside : Covers (userStackBase, userStackPages) v) :
    ∃ x, InStack x ∧ x < 2 ^ 47 ∧ v = pathOf x := by
  obtain ⟨k, lt, rfl⟩ := inside
  simp only [userStackPages] at lt
  refine ⟨userStackBase + k * pageSize, ?_, ?_, ?_⟩
  · simp only [InStack, userStackBase, userStackPages, pageSize]
    omega
  · simp only [userStackBase, pageSize]
    omega
  · rw [pageAt, add64, Nat.mod_eq_of_lt]
    simp only [userStackBase, pageSize]
    omega

theorem phArr_narrow (elf : Bytes) (i : Nat) : (phArr elf i).pVaddr < 2 ^ 64 := load_lt elf _ 8

theorem of_mem_segments (mem : a ∈ segments elf n) : ∃ i < n, (phArr elf i).pType = ptLoad ∧
    a = ((phArr elf i).mapAddr, (phArr elf i).memPages) := by
  induction n with
  | zero => cases mem
  | succ n ih =>
    rw [segments] at mem
    rcases List.mem_append.mp mem with now | before
    · rw [segmentOf] at now
      split at now
      · rename_i load
        exact ⟨n, Nat.lt_succ_self n, load, List.mem_singleton.mp now⟩
      · cases now
    · obtain ⟨i, lt, found⟩ := ih before
      exact ⟨i, Nat.lt_succ_of_lt lt, found⟩

namespace LoadableImage

variable (image : LoadableImage elf size)

include image

/-- A page of a segment's range. -/
theorem page {i : Nat} (lt : i < ePhnum elf) (load : (phArr elf i).pType = ptLoad)
    (inside : Covers ((phArr elf i).mapAddr, (phArr elf i).memPages) v) :
    ∃ x, (phArr elf i).Has x ∧ x < 2 ^ 47 ∧ v = pathOf x := by
  have low := image.user i lt load
  obtain ⟨x, has, path⟩ := (Elf64Phdr.covers_iff low (phArr_narrow elf i)).mp inside
  exact ⟨x, has, low x has, path⟩

theorem segments_apart (le : n ≤ ePhnum elf) : Apart (segments elf n ++ kernelRanges) := by
  induction n with
  | zero => exact kernelRanges_apart
  | succ n ih =>
    rw [segments, segmentOf]
    split
    · rename_i load
      refine List.pairwise_cons.mpr ⟨fun b mem v here there => ?_, ih (Nat.le_of_succ_le le)⟩
      obtain ⟨x, hasX, lowX, rfl⟩ := image.page le load here
      rcases List.mem_append.mp mem with earlier | kernel
      · obtain ⟨j, less, loads, rfl⟩ := of_mem_segments earlier
        obtain ⟨y, hasY, lowY, path⟩ := image.page (by omega) loads there
        have same := user_page_eq lowX lowY path
        have ne : n ≠ j := Nat.ne_of_gt less
        apply image.apart n le j (by omega) load loads ne x hasX
        rw [Elf64Phdr.Has, same]
        exact hasY
      · exact user_page_off_kernel lowX kernel there
    · exact ih (Nat.le_of_succ_le le)

/-- The ranges of the file share no page with each other, the stack and the kernel. -/
theorem ranges_apart : Apart (userRanges elf ++ kernelRanges) := by
  refine List.pairwise_cons.mpr ⟨fun b mem v here there => ?_,
    image.segments_apart (Nat.le_refl _)⟩
  obtain ⟨x, inStack, lowX, rfl⟩ := stack_page here
  rcases List.mem_append.mp mem with segment | kernel
  · obtain ⟨j, lt, load, rfl⟩ := of_mem_segments segment
    obtain ⟨y, hasY, lowY, path⟩ := image.page lt load there
    have same := user_page_eq lowX lowY path
    refine image.stack j lt load y hasY ?_
    simp only [InStack, userStackBase, userStackPages, pageSize] at *
    omega
  · exact user_page_off_kernel lowX kernel there

/-- The bytes of the file fit in the pages. -/
theorem fits : FileFits elf := by
  intro i lt load
  have low := image.user i lt load
  have inside := image.filesz i lt load
  rw [Elf64Phdr.fileBytes_eq low (phArr_narrow elf i) inside,
    Elf64Phdr.memPages_eq low (phArr_narrow elf i)]
  simp only [pageSize]
  omega

end LoadableImage

/-! ## Reading what is loaded -/

/-- A byte of a range, through the space. -/
theorem Holds.read {image : Bytes} (layout : Layout rs t) (holds : Holds t mm (start, n) image)
    (mapped : ∀ v, Covers (start, n) v → t.slot mm v ≠ 0) (aligned : start % pageSize = 0)
    (first : start ≤ x) (last : x < start + n * pageSize) :
    t.Mapped mm x ∧ t.frames.mem (t.translate mm x) = image (x - start) := by
  have lt : (x - start) / pageSize < n := by
    simp only [pageSize] at *
    omega
  have path : pathOf x = pageAt start ((x - start) / pageSize) := by
    rw [pageAt, pathOf_eq_iff]
    simp only [add64, pageSize] at *
    omega
  have there : t.slot mm (pathOf x) ≠ 0 := mapped _ ⟨_, lt, path⟩
  refine ⟨there, ?_⟩
  have byte := holds _ lt (x % pageSize) (Nat.mod_lt _ (by decide))
  have offset : (x - start) / pageSize * pageSize + x % pageSize = x - start := by
    simp only [pageSize] at *
    omega
  rw [offset, ← path] at byte
  rw [Vmm.translate, Vmm.vmmGetPhys, leafEntry_eq layout x there]
  exact byte

/-- A byte of a segment. -/
theorem LoadableImage.read (image : LoadableImage elf size) {i j : Nat} (lt : i < ePhnum elf)
    (load : (phArr elf i).pType = ptLoad) (less : j < (phArr elf i).pMemsz) (layout : Layout rs t)
    (holds : Holds t mm ((phArr elf i).mapAddr, (phArr elf i).memPages)
      (segmentImage elf (phArr elf i)))
    (mapped : ∀ v, Covers ((phArr elf i).mapAddr, (phArr elf i).memPages) v → t.slot mm v ≠ 0) :
    t.Mapped mm ((phArr elf i).pVaddr + j) ∧
      t.frames.mem (t.translate mm ((phArr elf i).pVaddr + j)) =
        if j < (phArr elf i).pFilesz then elf ((phArr elf i).pOffset + j) else 0 := by
  have low := image.user i lt load
  have inside := image.filesz i lt load
  have congruent := image.congruent i lt load
  have aligned := (phArr elf i).mapAddr_aligned
  have pages := Elf64Phdr.memPages_eq low (phArr_narrow elf i)
  have bytes := Elf64Phdr.fileBytes_eq low (phArr_narrow elf i) inside
  have ending := Elf64Phdr.user_end low (phArr_narrow elf i)
  generalize phArr elf i = ph at *
  have first : ph.mapAddr ≤ ph.pVaddr + j := by
    simp only [Elf64Phdr.mapAddr, pageOf]
    omega
  have last : ph.pVaddr + j < ph.mapAddr + ph.memPages * pageSize := by
    simp only [Elf64Phdr.mapAddr, pageOf, pageSize] at *
    omega
  obtain ⟨there, byte⟩ := holds.read layout mapped aligned first last
  refine ⟨there, byte.trans ?_⟩
  have offset : ph.pVaddr + j - ph.mapAddr = ph.pVaddr % pageSize + j := by
    simp only [Elf64Phdr.mapAddr, pageOf, pageSize]
    omega
  unfold segmentImage
  rw [offset, bytes]
  by_cases inFile : j < ph.pFilesz
  · rw [if_pos (by omega), if_pos inFile]
    apply congrArg elf
    simp only [Elf64Phdr.mapOffset, pageOf, pageSize] at *
    omega
  · rw [if_neg (by omega), if_neg inFile]

/-! ## exec_elf -/

section Run

variable {lists areas : Nat → List Nat}

/-- How many frames `exec_elf` may draw: for the tables of the kernel's areas, and for every page of
the file and of the stack its own and four tables. -/
def framesToLoad (elf : Bytes) : Nat := 6656 + (framesFor (segments elf (ePhnum elf)) + 160)

/-- `exec_elf` of a file whose ranges share no page. -/
theorem execElf_loads (spaces : Spaces rs s lists areas) (met : ¬ s.ranOut = true)
    (apart : Apart (userRanges elf ++ kernelRanges)) (fits : FileFits elf)
    (few : ∀ i < ePhnum elf, (phArr elf i).pType = ptLoad → (phArr elf i).memPages ≤ 2 ^ 19) :
    Runs (meter rs) (execElf rs elf) (framesToLoad elf) s fun new s' =>
      (∃ own s₁, Loading rs s₁ s' own new (userRanges elf)) ∧
        Holds s' new (userStackBase, userStackPages) (fun _ => 0) ∧
        ∀ i < ePhnum elf, (phArr elf i).pType = ptLoad →
          Holds s' new ((phArr elf i).mapAddr, (phArr elf i).memPages)
            (segmentImage elf (phArr elf i)) := by
  rw [userRanges, List.cons_append, Apart, List.pairwise_cons] at apart
  refine .bind ((mmNew_runs spaces met).imp ?_) fun _ => sticky_load
  rintro mm s₁ ⟨rfl, born⟩ met₁
  have nonzero : 0 ≠ s.nmms := Nat.ne_of_lt spaces.kernel.named.1
  have unowned : ∀ v, ¬ owns s₁ (Function.update areas s.nmms []) s.nmms v :=
    fun _ => owns_new nonzero (Function.update_self _ _ _)
  have loop := (Loading.bare born.spaces.tables).segments_runs met₁ unowned apart.2 few fits
  refine .bind (loop.imp ?_) fun _ => .bind sticky_anonMmapUser fun _ => .pure _
  rintro _ t ⟨loaded, held⟩ met'
  have stack : Runs (meter rs)
      (anonMmapUser rs s.nmms userStackBase userStackPages (pageProtRead ||| pageProtWrite)) 160 t _ :=
    loaded.anonMmap_runs met' (fun v _ => unowned v) apart.1 (by decide) (by decide)
  refine .bind (n := 160) (k := 0) (stack.imp ?_) fun _ => .pure _
  rintro _ s' ⟨done, zeros, kept⟩ met'
  exact .pure met' ⟨⟨_, s₁, done⟩, zeros, fun i lt load =>
    kept _ (mem_segments lt load) _ (held i lt load)⟩

/-- What is in memory after it. -/
theorem LoadableImage.loaded (image : LoadableImage elf size) (spaces : Spaces rs s lists areas)
    (met : ¬ s.ranOut = true) (enough : framesToLoad elf ≤ (meter rs).left s)
    (few : ∀ i < ePhnum elf, (phArr elf i).pType = ptLoad → (phArr elf i).memPages ≤ 2 ^ 19) :
    ∃ new regs s', execElfTask rs elf s = .ok ((new, regs), s') ∧
      FaithfullyLoaded s' new regs elf := by
  obtain ⟨new, s', ran, _, _, ⟨own, s₁, loading⟩, zeros, held⟩ :=
    (execElf_loads spaces met image.ranges_apart image.fits few).total enough
  have layout := loading.tables.layout
  have read : ∀ i < ePhnum elf, (phArr elf i).pType = ptLoad → ∀ j < (phArr elf i).pMemsz, _ :=
    fun i lt load j less => image.read lt load less layout (held i lt load)
      (loading.mapped _ (.tail _ (mem_segments lt load)))
  refine ⟨new, _, s', Budget.bind_eq_ok.mpr ⟨new, s', ran, rfl⟩, ?_⟩
  refine ⟨fun i lt load j less => (read i lt load j less).1, fun i lt load j less => ?_,
    fun i lt load j past less => ?_, fun x inside => ?_, rfl, rfl⟩
  · have inside := image.filesz i lt load
    rw [(read i lt load j (by omega)).2, if_pos less]
  · rw [(read i lt load j less).2, if_neg (by omega)]
  · exact zeros.read layout (loading.mapped _ (.head _)) (by decide) inside.1 inside.2

end Run

/-- A call that returned mapped few pages for every segment. -/
theorem execElfTask_few {r : Nat × TaskRegs} (ran : execElfTask rs elf s = .ok (r, s')) :
    ∀ i < ePhnum elf, (phArr elf i).pType = ptLoad → (phArr elf i).memPages ≤ 2 ^ 19 := by
  intro i lt load
  obtain ⟨_, _, ran, _⟩ := Budget.bind_eq_ok.mp ran
  obtain ⟨_, _, _, ran⟩ := Budget.bind_eq_ok.mp ran
  obtain ⟨_, _, loaded, _⟩ := Budget.bind_eq_ok.mp ran
  exact segments_returned loaded lt load

/-- **Loading an executable.** From every state of the address spaces with enough frames, a file that
can be loaded is in memory after `exec_elf` as its headers say, exactly when none of its segments has
more than `2 ^ 19` pages. -/
theorem execElf_faithful_iff (rs : RegionTable) (m : Bytes) (s₀ s : Vmm) (elf : Bytes) (size : Nat)
    (booted : kernelMmInit rs 0 (Vmm.boot rs m) = .ok ((), s₀))
    (reached : Reach (Vmm.step rs) (Vmm.Permitted rs) s₀ s) (met : s.ranOut = false)
    (image : LoadableImage elf size)
    (enough : framesToLoad elf ≤ (freeFrames rs s.frames).card) :
    (∃ new regs s', execElfTask rs elf s = .ok ((new, regs), s') ∧
      FaithfullyLoaded s' new regs elf) ↔
    ∀ i < ePhnum elf, (phArr elf i).pType = ptLoad → (phArr elf i).memPages ≤ 2 ^ 19 := by
  have met' : ¬ s.ranOut = true := ne_true_of_eq_false met
  obtain ⟨lists, areas, spaces⟩ := spaces_of_permitted booted reached met'
  constructor
  · rintro ⟨new, regs, s', ran, _⟩
    exact execElfTask_few ran
  · exact image.loaded spaces met' enough

/-! ## Files of one segment -/

/-- A segment below the stack, at the start of a page. -/
theorem elfOf_loadable {vaddr filesz memsz : Nat} (data : Bytes) (aligned : vaddr % pageSize = 0)
    (le : filesz ≤ memsz) (low : vaddr + memsz ≤ userStackBase) (inFile : 0x1000 + filesz ≤ size) :
    LoadableImage (elfOf data vaddr filesz memsz) size := by
  simp only [userStackBase] at low
  obtain ⟨count, header⟩ := elfOf_header data vaddr filesz memsz (by omega) (by omega) (by omega)
  generalize elfOf data vaddr filesz memsz = elf at count header ⊢
  have only : ∀ i < ePhnum elf, phArr elf i = ⟨1, 0x1000, vaddr, filesz, memsz⟩ := by
    intro i lt
    rw [count] at lt
    rw [Nat.lt_one_iff.mp lt, header]
  have below : ∀ i < ePhnum elf, ∀ x, (phArr elf i).Has x → x < userStackBase := by
    intro i lt x has
    rw [only i lt] at has
    simp only [Elf64Phdr.Has, pageSize, userStackBase] at *
    omega
  refine ⟨fun i lt _ => ?_, fun i lt _ => ?_, fun i lt _ => ?_, fun i lt _ x has => ?_,
    fun i lt _ x has => ?_, fun i ltI j ltJ _ _ ne => ?_⟩
  · rw [only i lt]
    exact le
  · rw [only i lt]
    exact inFile
  · rw [only i lt]
    exact aligned.trans (show 0 = 0x1000 % pageSize by decide)
  · exact Nat.lt_trans (below i lt x has) (by decide)
  · intro inside
    exact Nat.not_lt.mpr inside.1 (below i lt x has)
  · rw [count] at ltI ltJ
    omega

theorem elfOf_frames {vaddr filesz memsz : Nat} (data : Bytes) (narrow : vaddr < 2 ^ 64)
    (narrowF : filesz < 2 ^ 64) (narrowM : memsz < 2 ^ 64) :
    framesToLoad (elfOf data vaddr filesz memsz) =
      6656 + ((Elf64Phdr.mk 1 0x1000 vaddr filesz memsz).memPages * 5 + 160) := by
  obtain ⟨count, header⟩ := elfOf_header data vaddr filesz memsz narrow narrowF narrowM
  rw [framesToLoad, framesFor, count, segments, segments, segmentOf, header]
  rfl

/-- One page. -/
theorem execElf_faithful_iff_page : ∃ s₀ new regs s',
    kernelMmInit wideTable 0 (Vmm.boot wideTable fun _ => 0) = .ok ((), s₀) ∧
      execElfTask wideTable (elfOf (fun _ => 0) 0x400000 0x1000 0x1000) s₀ = .ok ((new, regs), s') ∧
      FaithfullyLoaded s' new regs (elfOf (fun _ => 0) 0x400000 0x1000 0x1000) := by
  obtain ⟨s₀, booted, met₀, left₀, _⟩ := wide_booted
  have image : LoadableImage (elfOf (fun _ => 0) 0x400000 0x1000 0x1000) 0x2000 :=
    elfOf_loadable _ (by decide) (by decide) (by decide) (by decide)
  obtain ⟨_, _, few⟩ := elfOf_user fun _ => 0
  have enough : framesToLoad (elfOf (fun _ => 0) 0x400000 0x1000 0x1000) ≤
      (freeFrames wideTable s₀.frames).card := by
    rw [elfOf_frames _ (by decide) (by decide) (by decide)]
    exact Nat.le_trans (by decide) left₀
  obtain ⟨new, regs, s', ran, loaded⟩ :=
    (execElf_faithful_iff wideTable (fun _ => 0) s₀ s₀ _ 0x2000 booted .start
      (Bool.eq_false_of_not_eq_true met₀) image enough).mpr
      fun i lt load => Nat.le_trans (few i lt load) (by decide)
  exact ⟨s₀, new, regs, s', booted, ran, loaded⟩

/-- 4M pages from 16 MiB on. -/
def hugeRegion : Region where
  start := 0x1000000
  pages := 0x400000
  aligned := by decide
  fits := by decide

def hugeTable : RegionTable := ⟨[hugeRegion], List.pairwise_singleton _ _⟩

/-- A segment of `2 ^ 19 + 1` pages below the stack, in a memory with room for all of them: it is not
loaded. -/
theorem execElf_largeSegment : ∃ s₀,
    kernelMmInit hugeTable 0 (Vmm.boot hugeTable fun _ => 0) = .ok ((), s₀) ∧ s₀.ranOut = false ∧
      LoadableImage (elfOf (fun _ => 0) 0x400000 0x1000 0x80001000) 0x2000 ∧
      framesToLoad (elfOf (fun _ => 0) 0x400000 0x1000 0x80001000) ≤
        (freeFrames hugeTable s₀.frames).card ∧
      ¬ ∃ new regs s',
        execElfTask hugeTable (elfOf (fun _ => 0) 0x400000 0x1000 0x80001000) s₀ =
          .ok ((new, regs), s') ∧
        FaithfullyLoaded s' new regs (elfOf (fun _ => 0) 0x400000 0x1000 0x80001000) := by
  obtain ⟨s₀, booted, met₀, left₀, _⟩ := exists_booted (n := 4187392) hugeTable (fun _ => 0)
    (List.mem_singleton_self hugeRegion) (by decide)
  refine ⟨s₀, booted, Bool.eq_false_of_not_eq_true met₀, ?_, ?_, ?_⟩
  · exact elfOf_loadable _ (by decide) (by decide) (by decide) (by decide)
  · rw [elfOf_frames _ (by decide) (by decide) (by decide)]
    exact Nat.le_trans (by decide) left₀
  · rintro ⟨new, regs, s', ran, _⟩
    obtain ⟨count, header⟩ := elfOf_header (fun _ => 0) 0x400000 0x1000 0x80001000 (by decide)
      (by decide) (by decide)
    have few := execElfTask_few ran 0 (by rw [count]; decide) (by rw [header]; rfl)
    rw [header] at few
    exact absurd few (by decide)

end Blackcomb.Fs
