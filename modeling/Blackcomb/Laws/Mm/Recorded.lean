import Blackcomb.Laws.Mm.Multiboot

/-!
# The table that a map gives

`pmm_set_mmap` does not ask whether `regions` has a place left, and it rounds a start only when it moves it
behind the kernel image. So a map gives a table that the allocator can use just as long as no more than
`MAX_REGIONS` of its entries are recorded and each of these starts at a page.

On a table of aligned regions that do not overlap the allocator here is the one of `Pmm`.
-/

namespace Blackcomb.Mm

open Memory Bitmap

variable {k : KernelImage} {m : Bytes} {mmap stop phys i n : Nat} {e : MmapEntry} {r : MmapRegion}
  {rs : List MmapRegion}

/-! ## What is recorded -/

/-- An entry is recorded: it is available, and the image does not cover it. -/
def Recorded (k : KernelImage) (e : MmapEntry) : Prop :=
  e.type = multibootMemoryAvailable ∧
    (k.Overlaps e.addr → alignUp k.stop < add64 e.addr e.len) ∧
    (k.Overlaps (add64 e.addr e.len) → e.addr < alignDown k.start)

instance (k : KernelImage) (e : MmapEntry) : Decidable (Recorded k e) :=
  inferInstanceAs (Decidable (_ ∧ _))

/-- The start of a recorded region: the entry's, or the page behind the image. -/
theorem regionOf_start (recorded : k.regionOf e = some r) :
    r.start = if k.Overlaps e.addr then alignUp k.stop else e.addr := by
  unfold KernelImage.regionOf at recorded
  split at recorded
  · cases recorded
  obtain ⟨start, first, recorded⟩ := Option.bind_eq_some_iff.mp recorded
  obtain ⟨stop, _, recorded⟩ := Option.bind_eq_some_iff.mp recorded
  obtain rfl := Option.some.inj recorded
  unfold KernelImage.pokeStart at first
  split at first
  · rename_i here
    rw [if_pos here]
    split at first
    · cases first
    · exact (Option.some.inj first).symm
  · rename_i out
    rw [if_neg out]
    exact (Option.some.inj first).symm

theorem regionOf_isSome : (k.regionOf e).isSome = true ↔ Recorded k e := by
  have behind := k.le_alignUp
  have before := (alignDown_le k.start).1
  unfold KernelImage.regionOf KernelImage.pokeStart KernelImage.pokeEnd Recorded
  generalize add64 e.addr e.len = stop
  simp only [KernelImage.Overlaps]
  by_cases available : e.type = multibootMemoryAvailable
  · rw [if_neg (not_not.mpr available)]
    by_cases first : k.start ≤ e.addr ∧ e.addr < k.stop <;>
      by_cases last : k.start ≤ stop ∧ stop < k.stop
    · have covered : alignUp k.stop ≥ stop := by omega
      have not : ¬ alignUp k.stop < stop := by omega
      simp [available, first, last, covered, not]
    · by_cases covered : alignUp k.stop ≥ stop
      · simp [available, first, last, covered]
      · have out : alignUp k.stop < stop := by omega
        simp [available, first, last, covered, out]
    · by_cases covered : e.addr ≥ alignDown k.start
      · simp [available, first, last, covered]
      · have out : e.addr < alignDown k.start := by omega
        simp [available, first, last, covered, out]
    · simp [available, first, last]
  · rw [if_pos available]
    simp [available]

/-- How many regions a map asks to record. -/
theorem length_recorded (k : KernelImage) (es : List MmapEntry) :
    (es.filterMap k.regionOf).length = es.countP fun e => decide (Recorded k e) := by
  rw [List.length_filterMap_eq_countP]
  apply List.countP_congr
  intro e _
  rw [regionOf_isSome, decide_eq_true_eq]

theorem alignDown_mod (val : Nat) : alignDown val % pageSize = 0 := Nat.mul_mod_left _ _

/-- The start of a recorded region is rounded where it is moved, and nowhere else. -/
theorem regionOf_aligned (recorded : k.regionOf e = some r) :
    r.start % pageSize = 0 ↔ k.Overlaps e.addr ∨ e.addr % pageSize = 0 := by
  rw [regionOf_start recorded]
  split
  · rename_i here
    exact ⟨fun _ => .inl here, fun _ => alignDown_mod _⟩
  · rename_i out
    exact ⟨.inr, fun either => either.resolve_left out⟩

/-! ## The allocator -/

/-- A region that keeps what the allocator relies on, as it is recorded. -/
def Region.recorded (r : Region) : MmapRegion where
  start := r.start
  pages := r.pages

theorem Region.add64_eq (r : Region) (le : i ≤ r.pages) :
    add64 r.start (i * pageSize) = r.start + i * pageSize := by
  have fits := r.fits
  have less := Nat.mul_le_mul_right pageSize le
  exact Nat.mod_eq_of_lt (by omega)

theorem Region.recorded_findFreePageFrom (m : Bytes) (r : Region) (sum : i + n = r.pages) :
    r.recorded.findFreePageFrom m i n = findFreePageFrom m r i n := by
  induction n generalizing i with
  | zero => rfl
  | succ n ih =>
    rw [MmapRegion.findFreePageFrom, findFreePageFrom, ih (by omega)]
    exact congrArg (fun addr => if regionGetBit m r i then findFreePageFrom m r (i + 1) n
      else (addr, regionSetBit m r i)) (r.add64_eq (by omega))

/-- `pmm_init_regions` on a table that keeps it. -/
theorem recordedInit_eq (rs : RegionTable) (m : Bytes) :
    recordedInit (rs.regions.map Region.recorded) m = pmmInitRegions m rs := by
  have reserve : ∀ (m : Bytes) (r : Region) (n : Nat),
      r.recorded.reserveBitmap m n = reserveBitmap m r n := by
    intro m r n
    induction n with
    | zero => rfl
    | succ n ih =>
      rw [MmapRegion.reserveBitmap, reserveBitmap, ih]
      rfl
  rw [recordedInit, pmmInitRegions, List.foldl_map]
  congr 1
  funext m r
  exact reserve _ r _

/-- `pmm_alloc` on a table that keeps it. -/
theorem recordedAlloc_eq (rs : RegionTable) (m : Bytes) :
    recordedAlloc (rs.regions.map Region.recorded) m = pmmAlloc rs m := by
  have loop : ∀ regions : List Region,
      recordedAllocFrom m (regions.map Region.recorded) = allocFrom m regions := by
    intro regions
    induction regions generalizing m with
    | nil => rfl
    | cons r regions ih =>
      have page : r.recorded.findFreePage m = findFreePage m r :=
        r.recorded_findFreePageFrom m (Nat.zero_add _)
      rw [List.map_cons, recordedAllocFrom, allocFrom, page]
      dsimp only
      rw [ih]
  rw [recordedAlloc, loop]
  rfl

/-- `pmm_free` on such a table. -/
theorem recordedFree_eq (rs : RegionTable) (m : Bytes) (phys : Nat) :
    recordedFree (rs.regions.map Region.recorded) m phys = pmmFree rs m phys := by
  have body : ∀ (m : Bytes) (r : Region), r.recorded.freeIn phys m = freeIn phys m r := by
    intro m r
    have stop : add64 r.recorded.start (r.recorded.pages * pageSize) = r.start + r.pages * pageSize :=
      r.add64_eq (Nat.le_refl _)
    rw [MmapRegion.freeIn, stop]
    rfl
  rw [recordedFree, pmmFree, List.foldl_map]
  simp only [body]

theorem findFreePageFrom_mod (m : Bytes) (aligned : r.start % pageSize = 0) :
    (r.findFreePageFrom m i n).1 % pageSize = 0 := by
  induction n generalizing i with
  | zero => rfl
  | succ n ih =>
    rw [MmapRegion.findFreePageFrom]
    split
    · exact ih
    · simp only [add64, pageSize] at aligned ⊢
      omega

/-- From aligned regions come aligned addresses. -/
theorem recordedAlloc_mod (m : Bytes) (aligned : ∀ r ∈ rs, r.start % pageSize = 0) :
    (recordedAlloc rs m).1 % pageSize = 0 := by
  change (recordedAllocFrom m rs).1 % pageSize = 0
  induction rs generalizing m with
  | nil => rfl
  | cons r rs ih =>
    rw [recordedAllocFrom]
    dsimp only
    split
    · exact findFreePageFrom_mod m (aligned r (.head _))
    · exact ih _ fun q mem => aligned q (.tail _ mem)

/-- `pmm_free` takes back an address exactly when it is aligned. -/
theorem recordedFree_accepts : (∃ m', recordedFree rs m phys = .ok m') ↔ phys % pageSize = 0 := by
  unfold recordedFree
  split
  · rename_i other
    exact ⟨fun accepted => (by obtain ⟨_, same⟩ := accepted; cases same), fun aligned => absurd aligned other⟩
  · rename_i aligned
    exact ⟨fun _ => not_not.mp aligned, fun _ => ⟨_, rfl⟩⟩

/-! ## Every map -/

/-- What is promised of a table: its regions start at pages, so what `pmm_alloc` returns is aligned and
`pmm_free` takes it back. -/
structure TableRight (rs : List MmapRegion) : Prop where
  starts : ∀ r ∈ rs, r.start % pageSize = 0
  returned : ∀ m, (recordedAlloc rs m).1 % pageSize = 0
  accepted : ∀ m m', ∃ m'', recordedFree rs m' (recordedAlloc rs m).1 = .ok m''

theorem TableRight.of_starts (starts : ∀ r ∈ rs, r.start % pageSize = 0) : TableRight rs :=
  ⟨starts, fun m => recordedAlloc_mod m starts, fun m _ =>
    recordedFree_accepts.mpr (recordedAlloc_mod m starts)⟩

/-- A loop that does not move does not end. -/
theorem setMmapLoop_stuck {fuel entry : Nat} {rs' : List MmapRegion} (more : entry < stop) :
    setMmapLoop k m stop 0 fuel entry rs ≠ .ok rs' := by
  induction fuel generalizing rs with
  | zero =>
    rw [setMmapLoop, if_pos more]
    exact fun absurd => (by cases absurd)
  | succ fuel ih =>
    rw [setMmapLoop, if_pos more]
    split
    · exact ih
    · split
      · exact ih
      · exact fun absurd => (by cases absurd)

/-- A tag that ends before its entries has none. -/
theorem pmmSetMmap_bare (bare : mmapSize m mmap ≤ mmapEntriesOffset) :
    pmmSetMmap k m mmap = .ok [] := by
  have done : ¬ mmap + mmapEntriesOffset < mmap + mmapSize m mmap := by omega
  exact setMmapLoop_done done

/-- **Every map.** For every map, with any number of entries at any addresses: `pmm_set_mmap` stays in
`regions` and gives a table of aligned regions, all of whose addresses `pmm_free` takes back, exactly when
the entries have a size, at most `MAX_REGIONS` of them are recorded, and each that is recorded starts at a
page or in the kernel image. -/
theorem pmmSetMmap_wellFormed_iff (k : KernelImage) (m : Bytes) (mmap : Nat) :
    (∃ rs, pmmSetMmap k m mmap = .ok rs ∧ TableRight rs) ↔
      (mmapSize m mmap ≤ mmapEntriesOffset ∨ 0 < mmapEntrySize m mmap) ∧
      (mmapEntries m mmap).countP (fun e => decide (Recorded k e)) ≤ maxRegions ∧
      ∀ e ∈ mmapEntries m mmap, Recorded k e → k.Overlaps e.addr ∨ e.addr % pageSize = 0 := by
  by_cases pos : 0 < mmapEntrySize m mmap
  · rw [pmmSetMmap_cases pos, length_recorded]
    have starts : (∀ r ∈ (mmapEntries m mmap).filterMap k.regionOf, r.start % pageSize = 0) ↔
        ∀ e ∈ mmapEntries m mmap, Recorded k e → k.Overlaps e.addr ∨ e.addr % pageSize = 0 := by
      constructor
      · intro all e mem recorded
        obtain ⟨r, made⟩ := Option.isSome_iff_exists.mp (regionOf_isSome.mpr recorded)
        exact (regionOf_aligned made).mp (all r (List.mem_filterMap.mpr ⟨e, mem, made⟩))
      · intro all r mem
        obtain ⟨e, mem, made⟩ := List.mem_filterMap.mp mem
        have recorded : Recorded k e := regionOf_isSome.mp (by rw [made]; rfl)
        exact (regionOf_aligned made).mpr (all e mem recorded)
    constructor
    · rintro ⟨rs, made, right⟩
      split at made
      · rename_i few
        obtain rfl := Except.ok.inj made
        exact ⟨.inr pos, few, starts.mp right.starts⟩
      · cases made
    · rintro ⟨_, few, aligned⟩
      rw [if_pos few]
      exact ⟨_, rfl, .of_starts (starts.mpr aligned)⟩
  · have zero : mmapEntrySize m mmap = 0 := Nat.eq_zero_of_not_pos pos
    have bare : mmapEntries m mmap = [] := by simp [mmapEntries, mmapCount, zero]
    constructor
    · rintro ⟨rs, made, _⟩
      refine ⟨.inl ?_, by simp [bare], by simp [bare]⟩
      by_contra more
      rw [pmmSetMmap, zero] at made
      exact setMmapLoop_stuck (by omega) made
    · rintro ⟨bare | absurd, _⟩
      · exact ⟨[], pmmSetMmap_bare bare, .of_starts fun _ mem => (by cases mem)⟩
      · exact False.elim (pos absurd)

/-- A tag with 65 available entries, each of a page at the start of memory. -/
def crowdedTag : Bytes := fun a =>
  if a = 4 then 0x28 else if a = 5 then 0x06 else if a = 8 then 24
  else if 16 ≤ a ∧ a % 24 = 1 then 0x10 else if 16 ≤ a ∧ a % 24 = 8 then 1 else 0

/-- The last of 65 regions is written behind `regions`. -/
theorem pmmSetMmap_crowded : (mmapEntries crowdedTag 0).length = 65 ∧
    (∀ e ∈ mmapEntries crowdedTag 0, e = { addr := 0, len := 0x1000, type := 1 }) ∧
    pmmSetMmap linkedImage crowdedTag 0 = .error .undefined := by
  refine ⟨by rfl, by decide +kernel, ?_⟩
  rw [pmmSetMmap_cases (by decide), if_neg (by decide +kernel)]

/-- An entry at `0x200800` makes a region that starts in the middle of a page: what `pmm_alloc` returns first,
behind the bitmap that `pmm_init_regions` has made, is not aligned, and `pmm_free` panics at it. -/
theorem pmmSetMmap_unaligned :
    pmmSetMmap linkedImage (oneEntryTag 0x200800 0x100000) 0 =
        .ok [{ start := 0x200800, pages := 0x100 }] ∧
      (recordedAlloc [{ start := 0x200800, pages := 0x100 }]
        (recordedInit [{ start := 0x200800, pages := 0x100 }] fun _ => 0)).1 = 0x201800 ∧
      (∀ m, recordedFree [{ start := 0x200800, pages := 0x100 }] m 0x201800 =
        .error (.panic "attempting to free non-paged-aligned region")) ∧
      ¬ ∃ rs, pmmSetMmap linkedImage (oneEntryTag 0x200800 0x100000) 0 = .ok rs ∧ TableRight rs := by
  have made : pmmSetMmap linkedImage (oneEntryTag 0x200800 0x100000) 0 =
      .ok [{ start := 0x200800, pages := 0x100 }] := by rfl
  refine ⟨made, by rfl, fun _ => rfl, ?_⟩
  rintro ⟨rs, same, right⟩
  rw [made] at same
  obtain rfl := Except.ok.inj same
  exact absurd (right.starts _ (.head _)) (by decide)

end Blackcomb.Mm
