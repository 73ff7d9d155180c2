import Blackcomb.Laws.Fs.Spaces
import Blackcomb.Laws.Mm.Stores

/-!
# Executables as stores

`exec_elf` among private stores: there is one store more, whose bytes are a function of the file
alone. `imageOf` computes it from the headers in their order, without spaces, frames or tables: a
segment is zeros on its pages and then the bytes of the file from the page of `p_offset` on, and the
user stack is zeros.
-/

namespace Blackcomb.Fs

open Memory Run Budget Mm

variable {rs : RegionTable} {s t t' : Vmm} {mm n start len x : Nat} {elf buf : Bytes}
  {done : List (Nat × Nat)} {lists areas : Nat → List Nat} {a : Stores} {ph : Elf64Phdr}

/-! ## Images -/

/-- The bytes of a buffer put over a store. -/
def pour (start : Nat) (buf : Bytes) (len : Nat) (store : Store) : Store := fun x =>
  if start ≤ x ∧ x < start + len then some (buf (x - start)) else store x

/-- Zeroed pages put over a store. -/
def blank (start pages : Nat) (store : Store) : Store := pour start (fun _ => 0) (pages * pageSize) store

/-- A segment put over a store. -/
def segmentStore (elf : Bytes) (ph : Elf64Phdr) (store : Store) : Store :=
  pour ph.mapAddr (fun i => elf (ph.mapOffset + i)) ph.fileBytes (blank ph.mapAddr ph.memPages store)

/-- What the first `n` headers of a file make of an empty store. -/
def segmentsStore (elf : Bytes) : Nat → Store
  | 0 => fun _ => none
  | n + 1 =>
    if (phArr elf n).pType = ptLoad then segmentStore elf (phArr elf n) (segmentsStore elf n)
    else segmentsStore elf n

/-- What a program finds in its memory when it starts. -/
def imageOf (elf : Bytes) : Store := blank userStackBase userStackPages (segmentsStore elf (ePhnum elf))

/-! ## Steps -/

/-- `mm_copy_from_buf` into a regular area. -/
theorem Poured.told {areas' : Nat → List Nat} {r k : Nat} (spaces : Spaces rs t lists areas)
    (told : Shows t a) (spaces' : Spaces rs t' lists areas') (live : t.Live mm) (mem : r ∈ areas mm)
    (first : (t.vmas r).start = start) (count : (t.vmas r).pages = n) (fits : len ≤ n * pageSize)
    (enough : len ≤ k * pageSize)
    (poured : Poured rs t t' (owns t areas) mm start n buf len k) :
    Shows t' (a.modify mm (pour start buf len)) := by
  have regular := (spaces.space mm live).regular r mem
  have range : Range start n := by
    rw [← first, ← count]
    exact regular.range
  have names : t'.nmms = t.nmms ∧ t'.freedMms = t.freedMms := by
    rw [poured.state]
    exact ⟨rfl, rfl⟩
  have alive : ∀ j, t'.Live j ↔ t.Live j := by
    intro j
    rw [Vmm.Live, Vmm.Live, names.1, names.2]
  -- the pages of the area are those that are filled
  have page : ∀ x, Private x → (InArea (t.vmas r) (pathOf x) ↔
      start ≤ x ∧ x < start + n * pageSize) := by
    intro x own
    rw [regular.has_iff own, VmArea.Has, first, count]
  have other : ∀ j x, t.Live j → Private x → t.Mapped j x →
      ¬ (j = mm ∧ InArea (t.vmas r) (pathOf x)) →
      SameFrame t.frames.mem t'.frames.mem (pageOf (t.slot j (pathOf x))) := by
    intro j x liveJ own mapped out
    obtain ⟨q, memQ, inside⟩ := spaces.private_area liveJ own mapped
    have owned : owns t areas j (pathOf x) := .inr ⟨liveJ, q, memQ, inside⟩
    refine poured.kept _ (.inr ⟨j, _, pathOf_length x, owned, mapped, rfl⟩) fun i lt => ?_
    have within : InArea (t.vmas r) (pageAt start i) := ⟨i, count ▸ lt, by rw [first]⟩
    refine spaces.tables.page_ne (pathOf_length x) (pageAt_length start i) owned
      (.inr ⟨live, r, mem, within⟩) mapped ((spaces.space mm live).mapped r mem _ within).1 ?_
    rintro ⟨rfl, path⟩
    exact out ⟨rfl, path ▸ within⟩
  refine told.modify names.1 alive (fun j ne liveJ x own => ?_) fun store before x own => ?_
  · exact spaces.view_kept spaces' (poured.slots j _ (pathOf_length x).le) fun mapped =>
      other j x liveJ own mapped fun both => ne both.1
  · by_cases inside : InArea (t.vmas r) (pathOf x)
    · have has := (page x own).mp inside
      have mapped := ((spaces.space mm live).mapped r mem _ inside).1
      have slot := poured.slots mm (pathOf x) (pathOf_length x).le
      have mapped' : t'.Mapped mm x := by
        rw [Vmm.Mapped, slot]
        exact mapped
      obtain ⟨j, lt, number, path⟩ := range.path_of_address has.1 has.2
      have offset : j * pageSize + x % pageSize = x - start := by
        have aligned := range.aligned
        simp only [pageSize] at *
        omega
      have inPage : x % pageSize < pageSize := Nat.mod_lt _ (by decide)
      rw [spaces'.view_eq mapped', slot, path, poured.bytes j lt _ inPage, offset, pour]
      by_cases filled : x - start < len
      · rw [if_pos (by omega), if_pos (by omega)]
      · rw [if_neg (by omega), if_neg (by omega), before x own, spaces.view_eq mapped, path]
    · have out : ¬ (start ≤ x ∧ x < start + len) := fun has =>
        inside ((page x own).mpr (by omega))
      rw [pour, if_neg out, before x own]
      exact (spaces.view_kept spaces' (poured.slots mm _ (pathOf_length x).le) fun mapped =>
        other mm x live own mapped fun both => inside both.2).symm

namespace Executing

/-- `anon_mmap` of pages that no range of the new space has. -/
theorem anonMmap_told {prot : Nat} {user : Bool} (executing : Executing rs s t mm done lists areas)
    (told : Shows t a) (live : s.Live mm) (low : start + n * pageSize ≤ 2 ^ 47)
    (apart : ∀ b ∈ done, ∀ v, Covers (start, n) v → ¬ Covers b v)
    (ran : Mm.anonMmap rs mm start n prot user t = .ok ((), t')) (met' : ¬ t'.ranOut = true) :
    Shows t' (a.modify mm (blank start n)) := by
  have spaces := executing.spaces
  have liveT := executing.live_iff.mpr live
  have space := spaces.space mm liveT
  obtain ⟨aligned, small⟩ := anonMmap_returned ran
  have range : Range start n := ⟨aligned, Nat.le_trans low (by decide), small⟩
  have free : ∀ r ∈ t.areasOf mm, ∀ x, start ≤ x → x < start + n * pageSize → ¬ (t.vmas r).Has x := by
    intro r listed x lower upper has
    rw [space.areasOf_eq, List.mem_append, mem_kernelAreas] at listed
    rcases listed with mem | static
    · obtain ⟨k, lt, _, path⟩ := range.path_of_address lower upper
      refine apart (rangeOf (t.vmas r)) ?_ (pathOf x) ⟨k, lt, path⟩ ((space.regular r mem).inArea has)
      rw [← executing.ranges]
      exact List.mem_map_of_mem mem
    · have upper' := spaces.kernel.upper static
      have := has.1
      omega
  have allowed : Vmm.Permitted rs (.anonMmap mm start n prot user) t :=
    ⟨liveT, range.fits, user_canonical low, free⟩
  exact spaces.told_step told met' allowed (congrArg (Except.map Prod.snd) ran)

/-- `mm_copy_from_buf` into the last range. -/
theorem copyFromBuf_told (executing : Executing rs s t mm ((start, n) :: done) lists areas)
    (told : Shows t a) (live : s.Live mm) (aligned : start % pageSize = 0) (fits : len ≤ n * pageSize)
    (ran : mmCopyFromBuf mm buf start len t = .ok ((), t')) (met : ¬ t.ranOut = true)
    (met' : ¬ t'.ranOut = true) : Shows t' (a.modify mm (pour start buf len)) := by
  have spaces := executing.spaces
  have liveT := executing.live_iff.mpr live
  have executing' := (executing.copyFromBuf met live aligned fits).safe ran met'
  obtain ⟨r, mem, range⟩ : ∃ r ∈ areas mm, rangeOf (t.vmas r) = (start, n) := by
    have head : (start, n) ∈ (areas mm).map fun r => rangeOf (t.vmas r) := by
      rw [executing.ranges]
      exact .head _
    exact List.mem_map.mp head
  obtain ⟨first, count⟩ := Prod.mk.inj range
  have regular := (spaces.space mm liveT).regular r mem
  have inside : ∀ k < n, InArea (t.vmas r) (pageAt start k) := fun k lt =>
    ⟨k, count ▸ lt, by rw [first]⟩
  have poured := (mmCopyFromBuf_pours spaces.tables met aligned (count ▸ regular.range.small) fits
    (fun k lt => .inr ⟨liveT, r, mem, inside k lt⟩)
    fun k lt => ((spaces.space mm liveT).mapped r mem _ (inside k lt)).1).safe ran met'
  refine Poured.told spaces told executing'.spaces liveT mem first count fits ?_ poured
  simp only [pageSize]
  omega

/-- A round of the loop of `exec_elf`. -/
theorem loadSegment_told {i : Nat} (executing : Executing rs s t a.made (Fs.segments elf i) lists areas)
    (told : Shows t (a.add (some (segmentsStore elf i)))) (live : s.Live a.made)
    (low : ∀ b ∈ Fs.segments elf (i + 1), b.1 + b.2 * pageSize ≤ 2 ^ 47)
    (apart : Apart (Fs.segments elf (i + 1)))
    (fits : (phArr elf i).pType = ptLoad →
      (phArr elf i).fileBytes ≤ (phArr elf i).memPages * pageSize)
    (ran : loadSegment rs a.made elf i t = .ok ((), t')) (met : ¬ t.ranOut = true)
    (met' : ¬ t'.ranOut = true) :
    (∃ lists' areas', Executing rs s t' a.made (Fs.segments elf (i + 1)) lists' areas') ∧
      Shows t' (a.add (some (segmentsStore elf (i + 1)))) := by
  rw [loadSegment] at ran
  rw [Fs.segments, segmentOf] at low apart ⊢
  rw [segmentsStore]
  by_cases load : (phArr elf i).pType = ptLoad
  · rw [if_pos load] at low apart ran ⊢
    rw [if_pos load]
    have fits := fits load
    generalize phArr elf i = ph at ran low apart fits load ⊢
    have lower := low (ph.mapAddr, ph.memPages) List.mem_cons_self
    have clear := (List.pairwise_cons.mp apart).1
    have aligned := ph.mapAddr_aligned
    obtain ⟨_, u, mapped, copied⟩ := Budget.bind_eq_ok.mp ran
    obtain ⟨_, few⟩ := anonMmap_returned mapped
    have metU : ¬ u.ranOut = true := fun out =>
      met' (sticky_mmCopyFromBuf (M := meter rs) ofFrames_meter u _ t' copied out)
    obtain ⟨_, _, between⟩ :=
      (executing.anonMmap met live aligned few lower clear (pageProtRead % 2 ^ 8) true).safe mapped metU
    have zeroed := executing.anonMmap_told told live lower clear mapped metU
    rw [Stores.add_modify] at zeroed
    have after := (between.copyFromBuf metU live aligned fits).safe copied met'
    have filled := between.copyFromBuf_told zeroed live aligned fits copied metU met'
    rw [Stores.add_modify] at filled
    exact ⟨⟨_, _, after⟩, filled⟩
  · rw [if_neg load] at ran ⊢
    rw [if_neg load]
    cases ran
    exact ⟨⟨_, _, executing⟩, told⟩

/-- The loop. -/
theorem segments_told (executing : Executing rs s s a.made [] lists areas)
    (told : Shows s (a.add (some fun _ => none))) (live : s.Live a.made)
    (low : ∀ b ∈ Fs.segments elf n, b.1 + b.2 * pageSize ≤ 2 ^ 47) (apart : Apart (Fs.segments elf n))
    (fits : ∀ i < n, (phArr elf i).pType = ptLoad →
      (phArr elf i).fileBytes ≤ (phArr elf i).memPages * pageSize)
    (ran : forTo n (loadSegment rs a.made elf) s = .ok ((), t)) (met : ¬ t.ranOut = true) :
    (∃ lists' areas', Executing rs s t a.made (Fs.segments elf n) lists' areas') ∧
      Shows t (a.add (some (segmentsStore elf n))) := by
  induction n generalizing t with
  | zero =>
    cases ran
    exact ⟨⟨lists, areas, executing⟩, told⟩
  | succ n ih =>
    obtain ⟨_, u, earlier, round⟩ := Budget.bind_eq_ok.mp ran
    have metU : ¬ u.ranOut = true := fun out =>
      met (sticky_loadSegment (M := meter rs) u _ t round out)
    have split := List.pairwise_append.mp apart
    obtain ⟨⟨_, _, between⟩, told'⟩ := ih (fun b mem => low b (List.mem_append_right _ mem)) split.2.1
      (fun i lt => fits i (Nat.lt_succ_of_lt lt)) earlier metU
    exact between.loadSegment_told told' live low apart (fits n (Nat.lt_succ_self n)) round metU met

end Executing

/-- `exec_elf`: one store more, the image of the file. -/
theorem execElf_told {new : Nat} (spaces : Spaces rs s lists areas) (told : Shows s a)
    (user : UserSegments elf) (fits : FileFits elf) (ran : execElf rs elf s = .ok (new, t))
    (met : ¬ t.ranOut = true) : Shows t (a.add (some (imageOf elf))) := by
  obtain ⟨s₁, u, ⟨made, loaded, stack⟩, met₀, met₁, metU⟩ := execElf_stages ran met
  obtain ⟨rfl, born⟩ := (mmNew_runs spaces met₀).safe made met₁
  obtain ⟨start, live⟩ := Executing.of_born spaces born
  obtain ⟨low, apart⟩ := user
  rw [userRanges, Apart, List.pairwise_cons] at apart
  have empty := born.shows spaces told
  rw [← told.made] at start live loaded stack
  obtain ⟨⟨_, _, between⟩, told'⟩ := start.segments_told empty live
    (fun b mem => low b (.tail _ mem)) apart.2 fits loaded metU
  have full := between.anonMmap_told told' live (by decide) apart.1 stack met
  rwa [Stores.add_modify] at full

end Blackcomb.Fs
