import Blackcomb.Fs.Exec
import Blackcomb.Laws.Mm.Copy
import Blackcomb.Laws.Mm.Drawing

/-!
# A segment stays inside

`map_segment` maps the pages that `p_memsz` asks for and copies the bytes that `p_filesz` counts, from an
offset of the file that nothing compares with its size. The copy stays in the pages that were mapped and in
the buffer just when the header says so. Such a segment leaves the space a tree, for the next one.

**What it does not establish.** The file is `p_offset` and a number of bytes; that the bytes are the
right ones is left to `Image`. What a segment that does not stay inside writes is shown by one file
in `Overrun`, and not in general.
-/

namespace Blackcomb.Fs

open Memory Budget Mm

variable {rs : RegionTable} {s t s' : Vmm} {mm k size : Nat} {elf : Nat → Nat} {ph : Elf64Phdr}
  {tables : List Nat} {frame : Nat → Nat} {calls : List MemcpyCall}

/-- The copy of a segment, after its pages were mapped: every call of `memcpy` goes to the frame of one of
them and takes bytes from within the buffer, no other byte changes, and there are pages for all the
bytes. -/
structure SegmentInside (t s' : Vmm) (mm : Nat) (ph : Elf64Phdr) (size : Nat)
    (calls : List MemcpyCall) : Prop where
  written : ∀ c ∈ calls, c.bytes ≤ pageSize ∧ ∃ k < ph.memPages, ∃ e,
    t.walk mm (add64 ph.mapAddr (pageSize * k)) = some e ∧ c.dest = pageOf e
  read : ∀ c ∈ calls, ∀ i < c.bytes, add64 ph.mapOffset (c.off + i) < size
  kept : ∀ a, (∀ k < ph.memPages, ∀ e,
    t.walk mm (add64 ph.mapAddr (pageSize * k)) = some e → a < pageOf e ∨ pageOf e + pageSize ≤ a) →
      s'.frames.mem a = t.frames.mem a
  covered : ph.fileBytes ≤ ph.memPages * pageSize

/-- What a header has to say, for a file of `size` bytes: the bytes fit into the pages, and if there are any
they end in the file. The sums are those of `uint64_t`. -/
structure SegmentFits (ph : Elf64Phdr) (size : Nat) : Prop where
  pages : add64 ph.pFilesz (ph.pVaddr % pageSize) ≤
    add64 (add64 ph.pMemsz (ph.pVaddr % pageSize)) (pageSize - 1) / pageSize * pageSize
  file : add64 ph.pFilesz (ph.pVaddr % pageSize) = 0 ∨
    pageOf ph.pOffset + add64 ph.pFilesz (ph.pVaddr % pageSize) ≤ size

/-! ## What is read -/

/-- The offsets of a copy are all below `size` if the last one is. -/
theorem offsets_lt_iff {off len : Nat} (narrow : off < 2 ^ 64) (short : len < 2 ^ 64)
    (sized : size < 2 ^ 64) : (∀ j < len, add64 off j < size) ↔ len = 0 ∨ off + len ≤ size := by
  constructor
  · intro all
    by_contra past
    have some : 0 < len := by omega
    have first : off < size := by
      have zero := all 0 some
      rwa [add64, Nat.add_zero, Nat.mod_eq_of_lt narrow] at zero
    have last := all (size - off) (by omega)
    rw [add64, Nat.add_sub_of_le first.le, Nat.mod_eq_of_lt sized] at last
    exact Nat.lt_irrefl size last
  · intro inside j lt
    simp only [add64]
    omega

/-- The rounds take the bytes of the range, each of them. -/
theorem calls_read_iff {off start len : Nat} {src : Nat → Nat} :
    (∀ c ∈ (List.range (copyRounds len)).map (callAt mm src start len t), ∀ i < c.bytes,
      add64 off (c.off + i) < size) ↔ ∀ j < len, add64 off j < size := by
  constructor
  · intro read j lt
    have round := List.mem_range.mpr (div_lt_copyRounds lt)
    have inside := read _ (List.mem_map.mpr ⟨_, round, rfl⟩) (j % pageSize) ?_
    · simp only [callAt, Nat.div_add_mod] at inside
      exact inside
    · have whole := Nat.div_add_mod j pageSize
      have rest : j % pageSize < pageSize := Nat.mod_lt _ (by decide)
      simp only [callAt]
      omega
  · intro read c mem i lt
    obtain ⟨pg, _, rfl⟩ := List.mem_map.mp mem
    simp only [callAt] at lt ⊢
    exact read _ (by omega)

/-! ## What is written -/

/-- The pages of the copy are among those that were mapped. -/
theorem copyRounds_le {len n : Nat} (fits : len ≤ n * pageSize) : copyRounds len ≤ n := by
  simp only [copyRounds, pageSize] at *
  omega

/-- The copy of a segment whose pages are fresh. -/
theorem copied_frames {flags : Nat} {src : Nat → Nat} (small : flags < pageSize)
    (drawn : Drawn rs s t mm ph.mapAddr flags frame ph.memPages tables)
    (covered : ph.fileBytes ≤ ph.memPages * pageSize) :
    (∀ k < copyRounds ph.fileBytes,
      (callAt mm src ph.mapAddr ph.fileBytes t k).dest = frame k) ∧
      Tree rs (afterRounds mm src ph.mapAddr ph.fileBytes t (copyRounds ph.fileBytes)) mm tables := by
  have le := copyRounds_le covered
  have mapped : ∀ k < copyRounds ph.fileBytes, t.slot mm (pageAt ph.mapAddr k) ≠ 0 := fun k lt =>
    drawn.there (by omega)
  have pages : ∀ k < copyRounds ph.fileBytes,
      t.vmmGetPhys mm (add64 ph.mapAddr (pageSize * k)) ∉ tables := fun k lt =>
    (drawn.isPage (by omega) small).1
  refine ⟨fun k lt => ?_, drawn.tree.copied_tree mapped pages fun k lt =>
    (drawn.isPage (by omega) small).2⟩
  rw [← drawn.getPhys (k := k) (by omega) small]
  refine drawn.tree.copied_phys (fun j less => mapped j (by omega)) (fun j less => pages j (by omega)) ?_
  rw [pathOf_page]
  exact mapped k lt

/-- `map_segment`, by its two parts. -/
theorem mapSegmentAt_eq_ok (ran : mapSegmentAt rs mm elf ph s = .ok (calls, s')) :
    ∃ t, anonMmapUser rs mm ph.mapAddr ph.memPages pageProtRead s = .ok ((), t) ∧
      calls = (List.range (copyRounds ph.fileBytes)).map
        (callAt mm (fun i => elf (add64 ph.mapOffset i)) ph.mapAddr ph.fileBytes t) ∧
      s' = afterRounds mm (fun i => elf (add64 ph.mapOffset i)) ph.mapAddr ph.fileBytes t
        (copyRounds ph.fileBytes) := by
  obtain ⟨_, t, mapped, copy⟩ := Budget.bind_eq_ok.mp ran
  refine ⟨t, mapped, ?_⟩
  have aligned : ph.mapAddr % pageSize = 0 := pageOf_mod _
  rw [mmCopyFromBufAt_eq aligned] at copy
  cases copy
  exact ⟨rfl, rfl⟩

/-- The pages of a segment that was mapped without `pmm_alloc` failing. -/
theorem drawn_of_anonMmapUser {start n prot : Nat} (tree : Tree rs s mm tables)
    (mapped : anonMmapUser rs mm start n prot s = .ok ((), t)) (met : ¬ t.ranOut = true) :
    ∃ frame tables', Drawn rs s t mm start (pageFlags (prot % 2 ^ 8) true) frame n tables' := by
  obtain ⟨aligned, few⟩ := anonMmap_returned mapped
  have keeps : Sticky (meter rs) (anonMmap rs mm start n (prot % 2 ^ 8) true) := sticky_anonMmap
  have before : ¬ s.ranOut = true := fun out => met (keeps s () t mapped out)
  exact (tree.anonMmap_runs before aligned few).safe mapped met

/-- With five frames for every page, `map_segment` returns and no `pmm_alloc` fails. -/
theorem mapSegmentAt_total (ph : Elf64Phdr) (elf : Nat → Nat) (tree : Tree rs s mm tables)
    (met : ¬ s.ranOut = true) (few : ph.memPages ≤ 2 ^ 19)
    (enough : ph.memPages * 5 ≤ (meter rs).left s) :
    ∃ calls s', mapSegmentAt rs mm elf ph s = .ok (calls, s') ∧ ¬ s'.ranOut = true := by
  have aligned : ph.mapAddr % pageSize = 0 := pageOf_mod _
  have runs : Runs (meter rs) (anonMmapUser rs mm ph.mapAddr ph.memPages pageProtRead) (ph.memPages * 5) s
      _ := tree.anonMmap_runs met aligned few
  obtain ⟨_, t, mapped, met', _⟩ := runs.total enough
  refine ⟨_, _, Budget.bind_eq_ok.mpr ⟨(), t, mapped, mmCopyFromBufAt_eq aligned⟩, ?_⟩
  rw [copied_state]
  exact met'

/-- The calls of a run take bytes of the buffer only, just when what they take ends in it. -/
theorem mapSegmentAt_read_iff (narrow : ph.pOffset < 2 ^ 64) (sized : size < 2 ^ 64)
    (ran : mapSegmentAt rs mm elf ph s = .ok (calls, s')) :
    (∀ c ∈ calls, ∀ i < c.bytes, add64 ph.mapOffset (c.off + i) < size) ↔
      ph.fileBytes = 0 ∨ ph.mapOffset + ph.fileBytes ≤ size := by
  obtain ⟨t, _, rfl, _⟩ := mapSegmentAt_eq_ok ran
  have offset : ph.mapOffset < 2 ^ 64 := Nat.lt_of_le_of_lt (Nat.sub_le _ _) narrow
  have short : ph.fileBytes < 2 ^ 64 := Nat.mod_lt _ (by decide)
  exact calls_read_iff.trans (offsets_lt_iff offset short sized)

/-- Whatever the space was, and also when a `pmm_alloc` failed: a run whose copy stays inside had a header
that fits. -/
theorem mapSegmentAt_fits (narrow : ph.pOffset < 2 ^ 64) (sized : size < 2 ^ 64)
    (ran : mapSegmentAt rs mm elf ph s = .ok (calls, s')) (inside : SegmentInside t s' mm ph size calls) :
    SegmentFits ph size :=
  ⟨inside.covered, (mapSegmentAt_read_iff narrow sized ran).mp inside.read⟩

/-- A segment whose bytes fit leaves the space a tree. -/
theorem mapSegmentAt_tree (tree : Tree rs s mm tables)
    (covered : ph.fileBytes ≤ ph.memPages * pageSize)
    (ran : mapSegmentAt rs mm elf ph s = .ok (calls, s')) (met : ¬ s'.ranOut = true) :
    ∃ tables', Tree rs s' mm tables' := by
  obtain ⟨t, mapped, _, rfl⟩ := mapSegmentAt_eq_ok ran
  rw [copied_state] at met
  obtain ⟨frame, tables', drawn⟩ := drawn_of_anonMmapUser tree mapped met
  exact ⟨tables', (copied_frames (pageFlags_lt _ _) drawn covered).2⟩

/-! ## A page of an empty space -/

/-- The page at `0x400000` of a space that had nothing. -/
theorem boot_page : ∃ t frame tables,
    anonMmapUser wideTable 0 0x400000 1 pageProtRead (Vmm.boot wideTable fun _ => 0) = .ok ((), t) ∧
      ¬ t.ranOut = true ∧ Drawn wideTable (Vmm.boot wideTable fun _ => 0) t 0 0x400000
        (pageFlags (pageProtRead % 2 ^ 8) true) frame 1 tables := by
  have tree := boot_tree wideTable (fun _ => 0) 0
  have met : ¬ (Vmm.boot wideTable fun _ => 0).ranOut = true := by decide
  have room := wide_left fun _ => 0
  have aligned : 0x400000 % pageSize = 0 := by decide
  have few : 1 ≤ 2 ^ 19 := by decide
  have runs : Runs (meter wideTable) (anonMmapUser wideTable 0 0x400000 1 pageProtRead) (1 * 5)
      (Vmm.boot wideTable fun _ => 0) _ := tree.anonMmap_runs met aligned few
  obtain ⟨_, t, mapped, met', _, frame, tables, drawn⟩ := runs.total (by omega)
  exact ⟨t, frame, tables, mapped, met', drawn⟩

/-- A segment of that page is mapped and copied. -/
theorem mapSegmentAt_page (ph : Elf64Phdr) (elf : Nat → Nat) (addr : ph.mapAddr = 0x400000)
    (pages : ph.memPages = 1)
    (mapped : anonMmapUser wideTable 0 0x400000 1 pageProtRead s = .ok ((), t)) :
    mapSegmentAt wideTable 0 elf ph s = .ok ((List.range (copyRounds ph.fileBytes)).map
        (callAt 0 (fun i => elf (add64 ph.mapOffset i)) 0x400000 ph.fileBytes t),
      afterRounds 0 (fun i => elf (add64 ph.mapOffset i)) 0x400000 ph.fileBytes t
        (copyRounds ph.fileBytes)) := by
  have aligned : 0x400000 % pageSize = 0 := by decide
  refine Budget.bind_eq_ok.mpr ⟨(), t, ?_, ?_⟩
  · rw [addr, pages]
    exact mapped
  · rw [addr]
    exact mmCopyFromBufAt_eq aligned

/-- **A segment stays inside.** For every space whose tables form a tree, every header of 64-bit fields and
every file, in every run of `map_segment` that returns without a `pmm_alloc` failing: the copy stays in the
pages that were mapped for it and in the buffer if and only if the bytes fit into the pages and, unless there
are none, end in the file. -/
theorem mapSegmentAt_inside_iff (rs : RegionTable) (s s' : Vmm) (mm : Nat) (tables : List Nat)
    (elf : Nat → Nat) (ph : Elf64Phdr) (size : Nat) (calls : List MemcpyCall) (tree : Tree rs s mm tables)
    (narrow : ph.pOffset < 2 ^ 64) (sized : size < 2 ^ 64)
    (ran : mapSegmentAt rs mm elf ph s = .ok (calls, s')) (met : ¬ s'.ranOut = true) :
    (∃ t, anonMmapUser rs mm ph.mapAddr ph.memPages pageProtRead s = .ok ((), t) ∧
      SegmentInside t s' mm ph size calls) ↔ SegmentFits ph size := by
  constructor
  · rintro ⟨t, _, inside⟩
    exact mapSegmentAt_fits narrow sized ran inside
  · intro fits
    have read := (mapSegmentAt_read_iff narrow sized ran).mpr fits.file
    obtain ⟨t, mapped, rfl, rfl⟩ := mapSegmentAt_eq_ok ran
    rw [copied_state] at met
    have small := pageFlags_lt (pageProtRead % 2 ^ 8) true
    obtain ⟨frame, _, drawn⟩ := drawn_of_anonMmapUser tree mapped met
    have covered : ph.fileBytes ≤ ph.memPages * pageSize := fits.pages
    have le := copyRounds_le covered
    have dest : ∀ k < copyRounds ph.fileBytes, (callAt mm (fun i => elf (add64 ph.mapOffset i))
        ph.mapAddr ph.fileBytes t k).dest = frame k := (copied_frames small drawn covered).1
    refine ⟨t, mapped, fun c mem => ?_, read, fun a out => ?_, covered⟩
    · obtain ⟨k, round, rfl⟩ := List.mem_map.mp mem
      have lt := List.mem_range.mp round
      obtain ⟨walked, page⟩ := drawn.walk (k := k) (by omega) small
      exact ⟨Nat.min_le_right _ _, k, by omega, _, walked, (dest k lt).trans page.symm⟩
    · refine copied_outside fun k lt => ?_
      obtain ⟨walked, page⟩ := drawn.walk (k := k) (by omega) small
      have away := out k (by omega) _ walked
      rwa [page, ← dest k lt] at away

/-- A page of bytes for a page of memory. -/
theorem mapSegmentAt_inside_iff_page : ∃ t s' calls,
    mapSegmentAt wideTable 0 (fun o => 0x100000 + o) ⟨1, 0x1000, 0x400000, 0x1000, 0x1000⟩
      (Vmm.boot wideTable fun _ => 0) = .ok (calls, s') ∧
    SegmentInside t s' 0 ⟨1, 0x1000, 0x400000, 0x1000, 0x1000⟩ 0x2000 calls := by
  have tree := boot_tree wideTable (fun _ => 0) 0
  have pages : Elf64Phdr.memPages ⟨1, 0x1000, 0x400000, 0x1000, 0x1000⟩ = 1 := by decide
  have room := wide_left fun _ => 0
  obtain ⟨calls, s', ran, met⟩ := mapSegmentAt_total ⟨1, 0x1000, 0x400000, 0x1000, 0x1000⟩
    (fun o => 0x100000 + o) tree (by decide) (by decide) (by omega)
  obtain ⟨t, _, inside⟩ := (mapSegmentAt_inside_iff wideTable _ s' 0 [] (fun o => 0x100000 + o)
    ⟨1, 0x1000, 0x400000, 0x1000, 0x1000⟩ 0x2000 calls tree (by decide) (by decide) ran met).mpr
    ⟨by decide, by decide⟩
  exact ⟨t, s', calls, ran, inside⟩

/-- Two pages of bytes for a page of memory: the second page of bytes is written to physical page `0`,
which is the frame of no page of the segment. -/
theorem mapSegmentAt_past_pages : ∃ t s' calls,
    anonMmapUser wideTable 0 0x400000 1 pageProtRead (Vmm.boot wideTable fun _ => 0) = .ok ((), t) ∧
    mapSegmentAt wideTable 0 (fun o => 0x100000 + o) ⟨1, 0x1000, 0x400000, 0x2000, 0x1000⟩
      (Vmm.boot wideTable fun _ => 0) = .ok (calls, s') ∧ ¬ s'.ranOut = true ∧
    (∃ c ∈ calls, c.dest = 0 ∧ c.bytes = pageSize) ∧
    (∀ k < 1, ∀ e, t.walk 0 (add64 0x400000 (pageSize * k)) = some e → pageOf e ≠ 0) ∧
    ¬ SegmentInside t s' 0 ⟨1, 0x1000, 0x400000, 0x2000, 0x1000⟩ 0x3000 calls := by
  obtain ⟨t, frame, tables, mapped, met, drawn⟩ := boot_page
  have small := pageFlags_lt (pageProtRead % 2 ^ 8) true
  have ran := mapSegmentAt_page ⟨1, 0x1000, 0x400000, 0x2000, 0x1000⟩ (fun o => 0x100000 + o)
    (by decide) (by decide) mapped
  refine ⟨t, _, _, mapped, ran, by rwa [copied_state], ⟨_, List.mem_map.mpr ⟨1, by decide, rfl⟩, ?_, rfl⟩,
    fun k lt e walked => ?_, fun inside => absurd inside.covered (by decide)⟩
  · -- the second page has no entry, in the table of the first
    have mapped : ∀ k < 1, t.slot 0 (pageAt 0x400000 k) ≠ 0 := fun k lt => drawn.there lt
    have pages : ∀ k < 1, t.vmmGetPhys 0 (add64 0x400000 (pageSize * k)) ∉ tables := fun k lt =>
      (drawn.isPage lt small).1
    have tree : Tree wideTable (afterRounds 0 (fun i => 0x100000 + add64 0x1000 i) 0x400000 0x2000 t 1) 0
        tables := drawn.tree.copied_tree mapped pages fun k lt => (drawn.isPage lt small).2
    have other : ∀ k < 1, pathOf 0x401000 ≠ pageAt 0x400000 k := by decide
    have empty : t.slot 0 (pathOf 0x401000) = 0 := drawn.others (pathOf 0x401000) rfl other
    have table : t.slot 0 (pathOf 0x400000).tail ≠ 0 := Radix.slot_above (mapped 0 (by decide))
    rw [← drawn.tree.copied_slot mapped pages (by decide)] at empty table
    have entry : Vmm.leafEntry (afterRounds 0 (fun i => 0x100000 + add64 0x1000 i) 0x400000 0x2000 t 1) 0
        0x401000 = 0 := (tree.getEntry_eq table).trans empty
    exact congrArg pageOf entry
  · obtain ⟨here, page⟩ := drawn.walk lt small
    rw [here] at walked
    cases walked
    rw [page]
    exact Nat.ne_of_gt (drawn.isFrame k lt).pos

end Blackcomb.Fs
