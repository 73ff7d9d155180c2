import Blackcomb.Fs.Exec
import Blackcomb.Laws.Mm.Exhaustion
import Blackcomb.Laws.Mm.Ownership

/-!
# The segments of an executable

What a file asks `exec_elf` to map: a range for each `PT_LOAD` header and one for the user stack. A
page is a path in the tables here: addresses that differ only above bit 47 have the same page.

The kernel's own ranges are its three areas (`covers_kernel`), so that a segment is compared with
them as with any other.

**What it does not establish.** The magic number and the kind of the file are not looked at, as they
are not in `exec_elf`.
-/

namespace Blackcomb.Fs

open Memory Run Budget Mm

variable {rs : RegionTable} {s s' : Vmm} {mm n start prot : Nat} {v : Path} {elf : Bytes}

/-! ## Ranges -/

/-- A page of a range, given by its start and its number of pages. -/
def Covers (a : Nat × Nat) (v : Path) : Prop := ∃ k < a.2, v = pageAt a.1 k

/-- Ranges that share no page. -/
def Apart (ranges : List (Nat × Nat)) : Prop :=
  ranges.Pairwise fun a b => ∀ v, Covers a v → ¬ Covers b v

/-- The ranges of the kernel's areas, in the order of a new space's list. -/
def kernelRanges : List (Nat × Nat) :=
  [(kernelBrkStart, kernelBrkPages), (physMappingStart, 1024), (kernelTextBase, 512)]

/-- What round `i` of `exec_elf`'s loop maps. -/
def segmentOf (elf : Bytes) (i : Nat) : List (Nat × Nat) :=
  if (phArr elf i).pType = ptLoad then [((phArr elf i).mapAddr, (phArr elf i).memPages)] else []

/-- What the first `n` rounds map, the latest first. -/
def segments (elf : Bytes) : Nat → List (Nat × Nat)
  | 0 => []
  | n + 1 => segmentOf elf n ++ segments elf n

/-- The ranges that a file asks for. -/
def userRanges (elf : Bytes) : List (Nat × Nat) :=
  (userStackBase, userStackPages) :: segments elf (ePhnum elf)

/-- No `PT_LOAD` header has more bytes in the file than its pages hold. -/
def FileFits (elf : Bytes) : Prop := ∀ i < ePhnum elf, (phArr elf i).pType = ptLoad →
  (phArr elf i).fileBytes ≤ (phArr elf i).memPages * pageSize

/-- A file with one header, of type `PT_LOAD`. -/
theorem userRanges_of_one {ph : Elf64Phdr} (count : ePhnum elf = 1) (header : phArr elf 0 = ph)
    (load : ph.pType = ptLoad) :
    userRanges elf = [(userStackBase, userStackPages), (ph.mapAddr, ph.memPages)] := by
  rw [userRanges, count, segments, segments, segmentOf, header, if_pos load]
  rfl

/-- The range of an area. -/
def rangeOf (a : VmArea) : Nat × Nat := (a.start, a.pages)

/-- A segment is mapped from a page's start. -/
theorem Elf64Phdr.mapAddr_aligned (ph : Elf64Phdr) : ph.mapAddr % pageSize = 0 := by
  simp only [Elf64Phdr.mapAddr, pageOf, pageSize]
  omega

/-- The kernel's ranges are its three areas. -/
theorem covers_kernel : (∃ a ∈ kernelRanges, Covers a v) ↔ ∃ b < 3, InArea (kernelShape b) v := by
  constructor
  · rintro ⟨a, mem, inside⟩
    simp only [kernelRanges, List.mem_cons, List.not_mem_nil, or_false] at mem
    rcases mem with rfl | rfl | rfl
    · exact ⟨2, by decide, inside⟩
    · exact ⟨1, by decide, inside⟩
    · exact ⟨0, by decide, inside⟩
  · rintro ⟨b, lt, inside⟩
    obtain rfl | rfl | rfl : b = 0 ∨ b = 1 ∨ b = 2 := by omega
    · exact ⟨_, .tail _ (.tail _ (.head _)), inside⟩
    · exact ⟨_, .tail _ (.head _), inside⟩
    · exact ⟨_, .head _, inside⟩

/-- The kernel's ranges share no page. -/
theorem kernelRanges_apart : Apart kernelRanges := by
  have differ : ∀ a b, a < 3 → b < 3 → a ≠ b → ∀ v, InArea (kernelShape a) v →
      ¬ InArea (kernelShape b) v := fun a b ha hb ne v left right =>
    ne (kernelShape_apart ha hb left right)
  have first := differ 2 1 (by decide) (by decide) (by decide)
  have second := differ 2 0 (by decide) (by decide) (by decide)
  have third := differ 1 0 (by decide) (by decide) (by decide)
  refine .cons (fun b mem => ?_) (.cons (fun b mem => ?_) (List.pairwise_singleton _ _))
  · simp only [List.mem_cons, List.not_mem_nil, or_false] at mem
    rcases mem with rfl | rfl
    · exact first
    · exact second
  · rw [List.mem_singleton.mp mem]
    exact third

/-- What is asked of a file: its segments lie in the user half and share no page with each other and
with the stack. -/
structure UserSegments (elf : Bytes) : Prop where
  low : ∀ a ∈ userRanges elf, a.1 + a.2 * pageSize ≤ 2 ^ 47
  apart : Apart (userRanges elf)

namespace UserSegments

/-- The user half has no page of the kernel's. -/
theorem apart_kernel (user : UserSegments elf) : Apart (userRanges elf ++ kernelRanges) := by
  refine List.pairwise_append.mpr ⟨user.apart, kernelRanges_apart, fun a mem b kernel v here there => ?_⟩
  obtain ⟨k, lt, rfl⟩ := here
  obtain ⟨c, static, inside⟩ := covers_kernel.mp ⟨b, kernel, there⟩
  exact user_off_kernel (user.low a mem) lt static inside

/-- A file with one segment, below the stack. -/
theorem of_one (count : ePhnum elf = 1) (load : (phArr elf 0).pType = ptLoad)
    (below : (phArr elf 0).mapAddr + (phArr elf 0).memPages * pageSize ≤ userStackBase) :
    UserSegments elf := by
  have ranges := userRanges_of_one count rfl load
  simp only [userStackBase, pageSize] at below
  refine ⟨fun a mem => ?_, ?_⟩
  · simp only [ranges, List.mem_cons, List.not_mem_nil, or_false] at mem
    rcases mem with rfl | rfl
    · decide
    · simp only [pageSize]
      omega
  · rw [ranges]
    refine List.pairwise_pair.mpr fun v stack here => ?_
    obtain ⟨k, lt, rfl⟩ := stack
    obtain ⟨j, less, same⟩ := here
    rw [pageAt_eq_iff] at same
    simp only [userStackBase, userStackPages] at lt less same
    omega

end UserSegments

/-! ## Stages -/

theorem sticky_loadSegment {M : Meter Vmm} [frames : OfFrames rs M] {i : Nat} :
    Sticky M (loadSegment rs mm elf i) :=
  .ite (.bind sticky_anonMmap fun _ => sticky_mmCopyFromBuf frames) (.pure _)

theorem sticky_anonMmapUser {M : Meter Vmm} [frames : OfFrames rs M] {pages : Nat} :
    Sticky M (anonMmapUser rs mm start pages prot) :=
  sticky_anonMmap

/-- `exec_elf` once it has a space. -/
theorem sticky_load {M : Meter Vmm} [frames : OfFrames rs M] : Sticky M (do
    forTo (ePhnum elf) (loadSegment rs mm elf)
    anonMmapUser rs mm userStackBase userStackPages (pageProtRead ||| pageProtWrite)
    pure mm) :=
  .bind (.forTo fun _ => sticky_loadSegment) fun _ => .bind sticky_anonMmapUser fun _ => .pure _

theorem sticky_execElf {M : Meter Vmm} [frames : OfFrames rs M] : Sticky M (execElf rs elf) :=
  .bind sticky_mmNew fun _ => sticky_load

/-- `exec_elf`, stage by stage. No stage ran out when the last one did not. -/
theorem execElf_stages {new : Nat} (ran : execElf rs elf s = .ok (new, s'))
    (met' : ¬ s'.ranOut = true) : ∃ s₁ t,
      (mmNew rs s = .ok (new, s₁) ∧ forTo (ePhnum elf) (loadSegment rs new elf) s₁ = .ok ((), t) ∧
        anonMmapUser rs new userStackBase userStackPages (pageProtRead ||| pageProtWrite) t =
          .ok ((), s')) ∧
      ¬ s.ranOut = true ∧ ¬ s₁.ranOut = true ∧ ¬ t.ranOut = true := by
  obtain ⟨mm, s₁, made, ran⟩ := Budget.bind_eq_ok.mp ran
  obtain ⟨_, t, loaded, ran⟩ := Budget.bind_eq_ok.mp ran
  obtain ⟨_, u, stack, ran⟩ := Budget.bind_eq_ok.mp ran
  cases ran
  have metT : ¬ t.ranOut = true := fun out => met' (sticky_anonMmapUser (M := meter rs) t _ s' stack out)
  have met₁ : ¬ s₁.ranOut = true := fun out =>
    metT (Sticky.forTo (M := meter rs) (fun _ => sticky_loadSegment) s₁ _ t loaded out)
  have met : ¬ s.ranOut = true := fun out => met₁ (sticky_mmNew (M := meter rs) s _ s₁ made out)
  exact ⟨s₁, t, ⟨made, loaded, stack⟩, met, met₁, metT⟩

/-! ## Files -/

/-- A file of one `PT_LOAD` header, whose bytes start at the second page of `data`. -/
def elfOf (data : Bytes) (vaddr filesz memsz : Nat) : Bytes :=
  let elf := store (store data 32 8 64) 56 2 1
  let elf := store (store elf 64 4 1) 72 8 0x1000
  store (store (store elf 80 8 vaddr) 96 8 filesz) 104 8 memsz

/-- The sample file's header says what it was made from. -/
theorem elfOf_header (data : Bytes) (vaddr filesz memsz : Nat) (fitsV : vaddr < 2 ^ 64)
    (fitsF : filesz < 2 ^ 64) (fitsM : memsz < 2 ^ 64) :
    ePhnum (elfOf data vaddr filesz memsz) = 1 ∧
      phArr (elfOf data vaddr filesz memsz) 0 = ⟨1, 0x1000, vaddr, filesz, memsz⟩ := by
  have phoff : ePhoff (elfOf data vaddr filesz memsz) = 64 := by
    simp (disch := omega) only [ePhoff, elfOf, load_store_of_disjoint]
    exact load_store (by decide)
  constructor
  · simp (disch := omega) only [ePhnum, elfOf, load_store_of_disjoint]
    exact load_store (by decide)
  · have base : add64 64 (0 * sizeofPhdr) = 64 := rfl
    rw [phArr, phoff]
    simp only [base, elfOf, Elf64Phdr.mk.injEq]
    simp (disch := omega) only [load_store_of_disjoint]
    refine ⟨load_store (by decide), load_store (by decide), load_store fitsV, load_store fitsF,
      load_store fitsM⟩

/-- Behind its header it has the data. -/
theorem elfOf_data {data : Bytes} {vaddr filesz memsz a : Nat} (past : 112 ≤ a) :
    elfOf data vaddr filesz memsz a = data a := by
  simp (disch := omega) only [elfOf, store_outside]

/-- One page of the user half, of which the file has all bytes. -/
theorem elfOf_user (data : Bytes) : UserSegments (elfOf data 0x400000 0x1000 0x1000) ∧
    FileFits (elfOf data 0x400000 0x1000 0x1000) ∧
    ∀ i < ePhnum (elfOf data 0x400000 0x1000 0x1000),
      (phArr (elfOf data 0x400000 0x1000 0x1000) i).pType = ptLoad →
        (phArr (elfOf data 0x400000 0x1000 0x1000) i).memPages ≤ 1 := by
  obtain ⟨count, header⟩ := elfOf_header data 0x400000 0x1000 0x1000 (by decide) (by decide)
    (by decide)
  generalize elfOf data 0x400000 0x1000 0x1000 = elf at count header ⊢
  have only : ∀ i < ePhnum elf, i = 0 := fun i lt => Nat.lt_one_iff.mp (count ▸ lt)
  refine ⟨.of_one count ?_ ?_, fun i lt _ => ?_, fun i lt _ => ?_⟩
  · rw [header]
    rfl
  · rw [header]
    decide
  · rw [only i lt, header]
    decide
  · rw [only i lt, header]
    decide

/-- Loading a segment returns, if its pages can be counted in an `int`. -/
theorem returns_loadSegment {i : Nat} (few : (phArr elf i).memPages ≤ 2 ^ 19) :
    Returns (loadSegment rs mm elf i) := by
  have aligned := (phArr elf i).mapAddr_aligned
  refine .ite (fun _ => .bind (returns_anonMmap _ _ _ aligned few) fun _ => ?_) fun _ => .pure _
  exact .bind (.ite (fun bad => absurd aligned bad) fun _ => .pure _) fun _ =>
    .forTo fun _ _ => .modify _

end Blackcomb.Fs
