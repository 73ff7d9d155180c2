import Blackcomb.Laws.Fs.Exec
import Blackcomb.Laws.Kernel.KernelHalf

/-!
# A file with more bytes than pages

`map_segment` maps the pages that `p_memsz` asks for and copies the bytes that `p_filesz` counts. When
there are more bytes than pages, `mm_copy_from_buf` goes on: `vmm_get_phys` of a page without an entry
is physical page `0`, which is written, and of a page without a table it is what physical page `0` says.
So a file writes where it likes. The one here has a segment of one page at `0x5fe000`, the last page but
one of its table, and three pages of bytes: the second is written to physical page `0`, the third to the
address that the second begins with.
-/

namespace Blackcomb.Fs

open Memory Run Budget Mm Kernel

variable {rs : RegionTable} {s t : Vmm} {own : Nat → Path → Prop} {mm e : Nat} {q : Path}
  {i : Fin 512}

/-! ## Physical page 0 -/

/-- No region has physical page `0`: writing it leaves the tables alone. -/
theorem writeLow {m' : Bytes} (above : ∀ r ∈ rs.regions, 0 < r.start)
    (tables : Tables rs t own none none) (out : ∀ a, pageSize ≤ a → m' a = t.frames.mem a) :
    Tables rs (t.setMem m') own none none ∧
      ∀ k p, p.length ≤ 4 → (t.setMem m').slot k p = t.slot k p := by
  have upper : ∀ r ∈ rs.regions, pageSize ≤ r.start := by
    intro r mem
    have := above r mem
    have := r.aligned
    simp only [pageSize] at *
    omega
  have same : ∀ k p, p.length ≤ 4 → (t.setMem m').slot k p = t.slot k p := by
    intro k p short
    refine slot_congr (fun _ => rfl) (fun j p depth here a low _ => out a ?_) short
    obtain ⟨r, mem, k, _, _, frame⟩ := tables.layout.frame j p depth here
    have := upper r mem
    omega
  refine ⟨⟨tables.frames.congr fun r mem k _ => out _ ?_, tables.exclusive.congr fun role => ?_,
    tables.root, tables.tight.congr same⟩, same⟩
  · have := upper r mem
    omega
  · cases role with
    | none => rfl
    | some path => exact held_congr same (fun absurd => (by cases absurd))

/-- A page without an entry, in a table that is there. -/
theorem getPhys_unmapped (virt : Nat) (tables : Tables rs t own none none)
    (table : t.slot mm [p2Ndx virt, p3Ndx virt, p4Ndx virt] ≠ 0)
    (empty : t.slot mm (pathOf virt) = 0) : t.vmmGetPhys mm virt = 0 := by
  have entry : t.leafEntry mm virt = t.slot mm (pathOf virt) := tables.layout.getEntry_eq table
  rw [Vmm.vmmGetPhys, entry, empty]
  rfl

/-- A page without a table: physical page `0` is the table. -/
theorem getPhys_untabled (virt : Nat) (tables : Tables rs t own none none)
    (table : t.slot mm [p3Ndx virt, p4Ndx virt] ≠ 0)
    (empty : t.slot mm [p2Ndx virt, p3Ndx virt, p4Ndx virt] = 0) :
    t.vmmGetPhys mm virt = pageOf (entryAt t.frames.mem 0 (p1Ndx virt)) := by
  have entry : t.getEntry mm [p3Ndx virt, p4Ndx virt] (p2Ndx virt) = 0 := by
    rw [tables.layout.getEntry_eq table]
    exact empty
  have zero : t.tableAt mm [p2Ndx virt, p3Ndx virt, p4Ndx virt] = 0 := by
    rw [Vmm.tableAt]
    exact congrArg pageOf entry
  rw [Vmm.vmmGetPhys, Vmm.leafEntry, Vmm.p1GetEntry, Vmm.getEntry, zero]

/-! ## The bytes -/

/-- The bytes of the segment. The last page is the table at `table` with entry `i` set to `e`. -/
def strayBytes (m : Bytes) (table : Nat) (i : Fin 512) (e : Nat) : Bytes := fun a =>
  if a < 0x1000 then 0
  else if a < 0x2000 then store (fun _ => 0) 0 8 table (a - 0x1000)
  else setEntryAt m table i e (table + (a - 0x2000))

theorem strayBytes_second {m : Bytes} {table a : Nat} (low : a < pageSize) :
    strayBytes m table i e (pageSize + a) = store (fun _ => 0) 0 8 table a := by
  simp only [pageSize] at low
  rw [strayBytes, if_neg (by simp only [pageSize]; omega), if_pos (by simp only [pageSize]; omega)]
  exact congrArg _ (Nat.add_sub_cancel_left _ _)

theorem strayBytes_third {m : Bytes} {table a : Nat} :
    strayBytes m table i e (pageSize * 2 + a) = setEntryAt m table i e (table + a) := by
  rw [strayBytes, if_neg (by simp only [pageSize]; omega), if_neg (by simp only [pageSize]; omega)]
  exact congrArg (fun o => setEntryAt m table i e (table + o)) (Nat.add_sub_cancel_left _ _)

/-- One round of `mm_copy_from_buf`, of a whole page. -/
def copyPage (mm : Nat) (buf : Bytes) (pg : Nat) (t : Vmm) : Vmm :=
  t.setMem (memcpyFrom t.frames.mem (t.vmmGetPhys mm (add64 0x5fe000 (pageSize * pg)))
    (fun a => buf (pageSize * pg + a)) pageSize)

theorem mmCopyFromBuf_three (mm : Nat) (buf : Bytes) (t : Vmm) :
    mmCopyFromBuf mm buf 0x5fe000 0x3000 t =
      .ok ((), copyPage mm buf 2 (copyPage mm buf 1 (copyPage mm buf 0 t))) := by
  have three : ∀ (g : Nat → Vmm → Vmm), forTo 3 (fun pg => (modify (g pg) : Op Unit)) t =
      .ok ((), g 2 (g 1 (g 0 t))) := fun _ => rfl
  have whole : ∀ pg < 3, min (0x3000 - pageSize * pg) pageSize = pageSize := by
    intro pg lt
    simp only [pageSize]
    omega
  have rounds : (0x3000 + pageSize - 1) / pageSize = 3 := by decide
  rw [mmCopyFromBuf, rounds]
  refine Budget.bind_eq_ok.mpr ⟨(), t, panicIf_eq (by decide), ?_⟩
  rw [three]
  simp only [whole 0 (by decide), whole 1 (by decide), whole 2 (by decide)]
  rfl

section Stray

variable (above : ∀ r ∈ rs.regions, 0 < r.start) (tables : Tables rs t own none none)

include tables

/-- The first page of bytes goes to the page that was mapped. -/
theorem copyPage_first (buf : Bytes) (owned : own mm (pathOf 0x5fe000))
    (there : t.slot mm (pathOf 0x5fe000) ≠ 0) :
    Tables rs (copyPage mm buf 0 t) own none none ∧
      (∀ k p, p.length ≤ 4 → (copyPage mm buf 0 t).slot k p = t.slot k p) ∧
      ∀ k p, p.length ≤ 3 → t.slot k p ≠ 0 →
        SameFrame t.frames.mem (copyPage mm buf 0 t).frames.mem (pageOf (t.slot k p)) := by
  have phys : t.vmmGetPhys mm (add64 0x5fe000 (pageSize * 0)) =
      pageOf (t.slot mm (pathOf 0x5fe000)) := by
    rw [Vmm.vmmGetPhys]
    exact congrArg pageOf (leafEntry_eq tables.layout 0x5fe000 there)
  have page : PageFrame t own none (pageOf (t.slot mm (pathOf 0x5fe000))) :=
    .inr ⟨mm, _, rfl, owned, there, rfl⟩
  have outside : ∀ a, a < pageOf (t.slot mm (pathOf 0x5fe000)) ∨
      pageOf (t.slot mm (pathOf 0x5fe000)) + pageSize ≤ a →
      (copyPage mm buf 0 t).frames.mem a = t.frames.mem a := by
    intro a out
    simp only [copyPage, Vmm.setMem, phys]
    exact memcpyFrom_outside out
  obtain ⟨tables', slots⟩ := tables.writePage page outside
  refine ⟨tables', slots, fun k p short here a low high => outside a ?_⟩
  have apart := (tables.layout.frame k p short here).apart (page.frame tables)
    (page.ne_table tables short here).symm
  omega

include above

/-- The second goes to physical page `0`. -/
theorem copyPage_second (buf : Bytes) (here : t.slot mm [2, 0, 0] ≠ 0)
    (empty : t.slot mm (pathOf 0x5ff000) = 0) :
    Tables rs (copyPage mm buf 1 t) own none none ∧
      (∀ k p, p.length ≤ 4 → (copyPage mm buf 1 t).slot k p = t.slot k p) ∧
      (∀ a, pageSize ≤ a → (copyPage mm buf 1 t).frames.mem a = t.frames.mem a) ∧
      ∀ a < pageSize, (copyPage mm buf 1 t).frames.mem a = buf (pageSize + a) := by
  have phys : t.vmmGetPhys mm (add64 0x5fe000 (pageSize * 1)) = 0 :=
    getPhys_unmapped 0x5ff000 tables here empty
  have outside : ∀ a, pageSize ≤ a → (copyPage mm buf 1 t).frames.mem a = t.frames.mem a := by
    intro a high
    simp only [copyPage, Vmm.setMem, phys]
    exact memcpyFrom_outside (by omega)
  obtain ⟨tables', slots⟩ := writeLow above tables outside
  refine ⟨tables', slots, outside, fun a low => ?_⟩
  simp only [copyPage, Vmm.setMem, phys]
  rw [memcpyFrom_apply, if_pos (by omega)]
  rfl

end Stray

/-- The third goes to a table, and sets an entry of it. -/
theorem copyPage_third (tables : Tables rs t own none none) (buf : Bytes)
    (phys : t.vmmGetPhys mm (add64 0x5fe000 (pageSize * 2)) = pageOf (t.slot 0 q))
    (bytes : ∀ a < pageSize, buf (pageSize * 2 + a) =
      setEntryAt t.frames.mem (pageOf (t.slot 0 q)) i e (pageOf (t.slot 0 q) + a))
    (here : t.slot 0 q ≠ 0) (three : q.length = 3) (shared : ¬ own 0 (i :: q)) (fits : e < 2 ^ 64)
    (nonzero : e ≠ 0) :
    Tables rs (copyPage mm buf 2 t) own none none ∧ (copyPage mm buf 2 t).slot 0 (i :: q) = e := by
  have table := tables.layout.tableAt_eq here
  have mem : (copyPage mm buf 2 t).frames = (t.setEntry 0 q i e).frames := by
    simp only [copyPage, Vmm.setEntry, Vmm.setMem, table, phys, Frames.mk.injEq, and_true]
    funext a
    rw [memcpyFrom_apply]
    split
    · rename_i inside
      rw [bytes _ (by omega), Nat.add_sub_cancel' inside.1]
    · rename_i outside
      exact (setEntryAt_outside (by omega)).symm
  obtain ⟨remapped, tables'⟩ := Tables.shareLeaf (i := i) (e := e)
    ⟨tables.frames, tables.exclusive, tables.root, tables.tight.weaken (some (0, q))⟩ here three fits
    nonzero shared
  refine ⟨tables'.records mem fun _ => rfl, ?_⟩
  rw [slot_records mem (fun _ => rfl), remapped.here]

/-- What the three pages do together. -/
theorem mmCopyFromBuf_strays (above : ∀ r ∈ rs.regions, 0 < r.start)
    (tables : Tables rs t own none none) (owned : own mm (pathOf 0x5fe000))
    (there : t.slot mm (pathOf 0x5fe000) ≠ 0) (empty : t.slot mm (pathOf 0x5ff000) = 0)
    (untabled : t.slot mm [3, 0, 0] = 0) (here : t.slot 0 q ≠ 0) (three : q.length = 3)
    (shared : ¬ own 0 (i :: q)) (fits : e < 2 ^ 64) (nonzero : e ≠ 0) :
    ∃ m', mmCopyFromBuf mm (strayBytes t.frames.mem (pageOf (t.slot 0 q)) i e) 0x5fe000 0x3000 t =
      .ok ((), t.setMem m') ∧ Tables rs (t.setMem m') own none none ∧
        (t.setMem m').slot 0 (i :: q) = e := by
  have frame := tables.layout.frame 0 q three.le here
  have tabled : t.slot mm [2, 0, 0] ≠ 0 := Radix.slot_above there
  have above₂ : t.slot mm [0, 0] ≠ 0 := Radix.slot_above tabled
  generalize image : strayBytes t.frames.mem (pageOf (t.slot 0 q)) i e = buf
  obtain ⟨tables₁, slots₁, kept₁⟩ := copyPage_first tables buf owned there
  have tabled₁ := (slots₁ mm [2, 0, 0] (by decide)).trans_ne tabled
  have empty₁ := (slots₁ mm (pathOf 0x5ff000) (pathOf_length _).le).trans empty
  obtain ⟨tables₂, slots₂, high₂, low₂⟩ := copyPage_second above tables₁ buf tabled₁ empty₁
  have ran := mmCopyFromBuf_three mm buf t
  have state : copyPage mm buf 1 (copyPage mm buf 0 t) =
    t.setMem (copyPage mm buf 1 (copyPage mm buf 0 t)).frames.mem := rfl
  generalize copyPage mm buf 1 (copyPage mm buf 0 t) = t₂ at tables₂ slots₂ high₂ low₂ ran state
  have slots : ∀ k p, p.length ≤ 4 → t₂.slot k p = t.slot k p := fun k p short =>
    (slots₂ k p short).trans (slots₁ k p short)
  have root := slots 0 q (by omega)
  -- the table, which the two pages before did not touch
  have kept : ∀ a < pageSize, t₂.frames.mem (pageOf (t.slot 0 q) + a) =
      t.frames.mem (pageOf (t.slot 0 q) + a) := by
    intro a low
    have pos := frame.pos
    have aligned := frame.aligned
    rw [high₂ _ (by simp only [pageSize] at *; omega)]
    exact kept₁ 0 q three.le here _ (by omega) (by omega)
  have word : entryAt t₂.frames.mem 0 (p1Ndx 0x600000) = pageOf (t.slot 0 q) := by
    have loaded : load t₂.frames.mem 0 8 = load (store (fun _ => 0) 0 8 (pageOf (t.slot 0 q))) 0 8 := by
      apply load_congr
      intro b _ high
      have low : b < pageSize := Nat.lt_of_lt_of_le high (by decide)
      rw [low₂ b low, ← image, strayBytes_second low]
    have small := frame.lt
    exact loaded.trans (load_store (by omega))
  have phys : t₂.vmmGetPhys mm (add64 0x5fe000 (pageSize * 2)) = pageOf (t₂.slot 0 q) := by
    have walked : t₂.vmmGetPhys mm 0x600000 = _ := getPhys_untabled 0x600000 tables₂
      ((slots mm [0, 0] (by decide)).trans_ne above₂) ((slots mm [3, 0, 0] (by decide)).trans untabled)
    rw [word] at walked
    rw [root]
    exact walked.trans (pageOf_eq frame.aligned)
  have bytes : ∀ a < pageSize, buf (pageSize * 2 + a) =
      setEntryAt t₂.frames.mem (pageOf (t₂.slot 0 q)) i e (pageOf (t₂.slot 0 q) + a) := by
    intro a low
    rw [root, ← image, strayBytes_third]
    simp only [setEntryAt, store]
    rw [kept a low]
  obtain ⟨tables₃, entry⟩ := copyPage_third tables₂ buf phys bytes (root.trans_ne here) three shared fits
    nonzero
  have last : copyPage mm buf 2 t₂ = t.setMem (copyPage mm buf 2 t₂).frames.mem := by
    have again : t₂.setMem (copyPage mm buf 2 t₂).frames.mem =
        (t.setMem t₂.frames.mem).setMem (copyPage mm buf 2 t₂).frames.mem := by
      rw [← state]
    exact again
  rw [last] at ran tables₃ entry
  exact ⟨_, ran, tables₃, entry⟩

/-! ## The file -/

/-- The space of the file, when its page is mapped. -/
theorem Executing.strayed {lists areas : Nat → List Nat}
    (executing : Executing rs s t mm [(0x5fe000, 1)] lists areas) (live : s.Live mm) :
    owns t areas mm (pathOf 0x5fe000) ∧ t.slot mm (pathOf 0x5fe000) ≠ 0 ∧
      t.slot mm (pathOf 0x5ff000) = 0 ∧ t.slot mm [3, 0, 0] = 0 := by
  have spaces := executing.spaces
  have liveT := executing.live_iff.mpr live
  obtain ⟨r, mem, range⟩ : ∃ r ∈ areas mm, rangeOf (t.vmas r) = (0x5fe000, 1) := by
    have head : (0x5fe000, 1) ∈ (areas mm).map fun r => rangeOf (t.vmas r) := by
      rw [executing.ranges]
      exact .head _
    exact List.mem_map.mp head
  obtain ⟨first, count⟩ := Prod.mk.inj range
  have inside : InArea (t.vmas r) (pathOf 0x5fe000) := by
    refine ⟨0, by rw [count]; decide, ?_⟩
    rw [first]
    rfl
  have other : ∀ virt, virt / 4096 % 2 ^ 36 ≠ 0x5fe → ∀ a ∈ [(0x5fe000, 1)],
      ¬ Covers a (pathOf virt) := by
    rintro virt ne a mem ⟨k, lt, same⟩
    rw [List.mem_singleton.mp mem] at lt same
    rw [pageAt, pathOf_eq_iff] at same
    simp only [add64, pageSize] at same lt
    omega
  refine ⟨.inr ⟨liveT, r, mem, inside⟩, ((spaces.space mm liveT).mapped r mem _ inside).1, ?_, ?_⟩
  · exact executing.unmapped live (by decide) (other _ (by decide))
  · by_contra there
    obtain ⟨i, below⟩ := spaces.tables.tight mm [3, 0, 0] (by decide) (Option.some_ne_none _) there
    have path : pathOf (0x600000 + i.val * 4096) = [i, 3, 0, 0] := by
      have lt := i.isLt
      simp only [pathOf, p1Ndx, p2Ndx, p3Ndx, p4Ndx, List.cons.injEq, and_true, Fin.ext_iff,
        Fin.val_ofNat, Nat.shiftRight_eq_div_pow]
      omega
    rw [← path] at below
    refine below (executing.unmapped live ?_ (other _ ?_))
    · simp only [pageSize]
      omega
    · omega

/-- The file, with the bytes of its segment. -/
def strayFile (bytes : Bytes) : Bytes := elfOf (fun a => bytes (a - 0x1000)) 0x5fe000 0x3000 0x1000

theorem strayFile_header (bytes : Bytes) : ePhnum (strayFile bytes) = 1 ∧
    phArr (strayFile bytes) 0 = ⟨1, 0x1000, 0x5fe000, 0x3000, 0x1000⟩ :=
  elfOf_header _ _ _ _ (by decide) (by decide) (by decide)

theorem strayFile_user (bytes : Bytes) : UserSegments (strayFile bytes) := by
  obtain ⟨count, header⟩ := strayFile_header bytes
  refine .of_one count ?_ ?_
  · rw [header]
    rfl
  · rw [header]
    decide

/-- `exec_elf` of the file, from the run of its parts. -/
theorem execElf_strayFile {bytes : Bytes} {s s₁ s' t u : Vmm} (made : mmNew rs s = .ok (mm, s₁))
    (mapped : anonMmapUser rs mm 0x5fe000 1 pageProtRead s₁ = .ok ((), t))
    (copied : mmCopyFromBuf mm bytes 0x5fe000 0x3000 t = .ok ((), u))
    (stack : anonMmapUser rs mm userStackBase userStackPages (pageProtRead ||| pageProtWrite) u =
      .ok ((), s')) : execElf rs (strayFile bytes) s = .ok (mm, s') := by
  obtain ⟨count, header⟩ := strayFile_header bytes
  have buf : (fun a => strayFile bytes (0x1000 + a)) = bytes := by
    funext a
    rw [strayFile, elfOf_data (by omega), Nat.add_sub_cancel_left]
  have segment : mapSegment rs mm (strayFile bytes) ⟨1, 0x1000, 0x5fe000, 0x3000, 0x1000⟩ s₁ =
      .ok ((), u) := by
    rw [← buf] at copied
    exact Budget.bind_eq_ok.mpr ⟨(), t, mapped, copied⟩
  have loaded : forTo (ePhnum (strayFile bytes)) (loadSegment rs mm (strayFile bytes)) s₁ =
      .ok ((), u) := by
    rw [count]
    refine Budget.bind_eq_ok.mpr ⟨(), s₁, rfl, ?_⟩
    have load : (phArr (strayFile bytes) 0).pType = ptLoad := by
      rw [header]
      rfl
    rw [loadSegment, if_pos load, header]
    exact segment
  exact Budget.bind_eq_ok.mpr ⟨mm, s₁, made, Budget.bind_eq_ok.mpr ⟨(), u, loaded,
    Budget.bind_eq_ok.mpr ⟨(), s', stack, rfl⟩⟩⟩

/-- The first page of the kernel text in `kernel_mm`, whose entry the file sets. -/
theorem Executing.text {lists areas : Nat → List Nat} {done : List (Nat × Nat)}
    (executing : Executing rs s t mm done lists areas) :
    t.slot 0 (pathOf kernelTextBase) ≠ 0 ∧ t.slot 0 (pathOf kernelTextBase) % pageSize = 3 ∧
      ¬ owns t areas 0 (pathOf kernelTextBase) := by
  have inside : InArea (kernelShape 0) (pathOf kernelTextBase) := ⟨0, by decide, rfl⟩
  obtain ⟨there, flags⟩ := executing.spaces.kernel.mapped 0 (by decide) _ inside
  refine ⟨there, flags, ?_⟩
  rintro (⟨_, heap⟩ | ⟨live, _⟩)
  · have same := kernelShape_apart (by decide) (by decide) inside heap
    cases same
  · exact Nat.lt_irrefl 0 live.1

/-- The user stack, after the bytes were copied. Only the tables of `mm` change. -/
theorem strayed_stack {lists areas : Nat → List Nat} {m' : Bytes}
    (executing : Executing rs s t mm [(0x5fe000, 1)] lists areas) (live : s.Live mm)
    (met : ¬ t.ranOut = true) (tables : Tables rs (t.setMem m') (owns t areas) none none) :
    Runs (meter rs) (anonMmapUser rs mm userStackBase userStackPages (pageProtRead ||| pageProtWrite))
      160 (t.setMem m') fun _ s' => s'.slot 0 (pathOf kernelTextBase) =
        (t.setMem m').slot 0 (pathOf kernelTextBase) := by
  have loading : Loading rs (t.setMem m') (t.setMem m') (owns t areas) mm [] := .bare tables
  have user := strayFile_user fun _ => 0
  obtain ⟨count, header⟩ := strayFile_header fun _ => 0
  have ranges : userRanges (strayFile fun _ => 0) = [(userStackBase, userStackPages), (0x5fe000, 1)] :=
    userRanges_of_one count header rfl
  have all := user.apart_kernel
  rw [ranges, List.cons_append, Apart, List.pairwise_cons] at all
  have unowned : ∀ v, Covers (userStackBase, userStackPages) v → ¬ owns t areas mm v := by
    rintro v stack (⟨zero, _⟩ | ⟨_, r, mem, inside⟩)
    · exact Nat.ne_of_gt live.1 zero
    · have range : rangeOf (t.vmas r) ∈ (areas mm).map fun r => rangeOf (t.vmas r) :=
        List.mem_map_of_mem mem
      rw [executing.ranges] at range
      exact all.1 _ (List.mem_append_left _ range) v stack inside
  refine (loading.anonMmap_runs met unowned (fun b mem => all.1 b ?_) (by decide) (by decide)).imp ?_
  · exact List.mem_append_right _ mem
  · intro _ s' stacked
    exact stacked.1.others 0 _ (pathOf_length _).le (Nat.ne_of_lt live.1)

/-- Init's file has a segment of one page in the user half, and three pages of bytes: the entry of a
page of the kernel text in `kernel_mm` is the one that the file holds. -/
theorem kernelHalf_overrun : ∃ elf s₀ v, UserSegments elf ∧
    kernelMmInit wideTable 0 (Vmm.boot wideTable fun _ => 0) = .ok ((), s₀) ∧
      execElf wideTable elf s₀ = .ok (1, v) ∧ v.ranOut = false ∧ ¬ KernelHalf s₀ v := by
  obtain ⟨s₀, booted, met₀, left₀, spaces₀, first⟩ := wide_booted
  obtain ⟨mm, s₁, made, met₁, left₁, rfl, born⟩ := (mmNew_runs spaces₀ met₀).total (by omega)
  obtain ⟨start, live⟩ := Executing.of_born spaces₀ born
  have page := start.anonMmap met₁ live (by decide : 0x5fe000 % pageSize = 0)
    (by decide : 1 ≤ 2 ^ 19) (by decide) (fun b mem => (by cases mem)) (pageProtRead % 2 ^ 8) true
  obtain ⟨_, t, mapped, met, left, lists, areas, executing⟩ := page.total (by omega)
  obtain ⟨owned, there, empty, untabled⟩ := executing.strayed live
  obtain ⟨text, flags, shared⟩ := executing.text
  have entry := slot_lt t 0 [p2Ndx kernelTextBase, p3Ndx kernelTextBase, p4Ndx kernelTextBase]
    (p1Ndx kernelTextBase)
  -- the entry as it was, with PAGE_USER
  obtain ⟨m', copied, tables, set⟩ := mmCopyFromBuf_strays wide_above executing.spaces.tables owned
    there empty untabled (Radix.slot_above text) rfl shared
    (e := t.slot 0 (pathOf kernelTextBase) + pageUser)
    (by simp only [pathOf, pageSize, pageUser] at *; omega) (by omega)
  have room : (meter wideTable).left (t.setMem m') = (meter wideTable).left t := rfl
  obtain ⟨_, v, stack, met', _, kept⟩ := (strayed_stack executing live met tables).total (by omega)
  have ran := execElf_strayFile made mapped copied stack
  rw [first] at ran
  refine ⟨_, s₀, v, strayFile_user _, booted, ran, Bool.eq_false_of_not_eq_true met', fun half => ?_⟩
  have same := half.kernel.slots (pathOf kernelTextBase) (pathOf_length _).le
  have nonzero : (0 : Nat) ≠ s₀.nmms := Nat.ne_of_lt spaces₀.kernel.named.1
  have old : t.slot 0 (pathOf kernelTextBase) = s₀.slot 0 (pathOf kernelTextBase) :=
    (executing.slots 0 _ (pathOf_length _).le nonzero).trans
      (born.slots 0 _ (pathOf_length _).le nonzero)
  have new : (t.setMem m').slot 0 (pathOf kernelTextBase) =
    t.slot 0 (pathOf kernelTextBase) + pageUser := set
  rw [kept, new, old] at same
  simp only [pageUser] at same
  omega

end Blackcomb.Fs
