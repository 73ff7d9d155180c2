import Blackcomb.Mm.Multiboot

/-!
# Regions and the kernel image

Every region that `pmm_set_mmap` records lies in the entry that it is made from. It is disjoint from the
kernel image when the image does not lie inside the entry: an end of the entry that is in the image is
moved, but an entry around the image has none.
-/

namespace Blackcomb.Mm

open Memory

variable {k : KernelImage} {m : Bytes} {mmap stop size : Nat} {e : MmapEntry} {r : MmapRegion}

/-! ## The loop -/

/-- How many entries the tag has. -/
def mmapCount (m : Bytes) (mmap : Nat) : Nat :=
  (mmapSize m mmap - mmapEntriesOffset + (mmapEntrySize m mmap - 1)) / mmapEntrySize m mmap

/-- The entries of the tag. -/
def mmapEntries (m : Bytes) (mmap : Nat) : List MmapEntry :=
  (List.range (mmapCount m mmap)).map fun i =>
    mmapEntryAt m (mmap + mmapEntriesOffset + i * mmapEntrySize m mmap)

theorem setMmapLoop_done {fuel entry : Nat} {rs : List MmapRegion} (done : ¬ entry < stop) :
    setMmapLoop k m stop size fuel entry rs = .ok rs := by
  cases fuel with
  | zero => exact if_neg done
  | succ fuel => exact if_neg done

/-- With `n` entries to go, the loop records the regions of all of them, if each has a place. -/
theorem setMmapLoop_eq {n fuel entry : Nat} {rs : List MmapRegion} (reach : stop ≤ entry + n * size)
    (before : ∀ i < n, entry + i * size < stop) (enough : n ≤ fuel) (room : rs.length ≤ maxRegions) :
    setMmapLoop k m stop size fuel entry rs =
      let all := rs ++ ((List.range n).map fun i => mmapEntryAt m (entry + i * size)).filterMap k.regionOf
      if all.length ≤ maxRegions then .ok all else .error .undefined := by
  induction n generalizing fuel entry rs with
  | zero =>
    rw [setMmapLoop_done (by omega)]
    simp [room]
  | succ n ih =>
    obtain ⟨fuel, rfl⟩ : ∃ f, fuel = f + 1 := ⟨fuel - 1, by omega⟩
    have more : entry < stop := by simpa using before 0 (Nat.succ_pos n)
    have next : ∀ i, entry + size + i * size = entry + (i + 1) * size := by
      intro i
      rw [Nat.add_mul, Nat.one_mul]
      omega
    have rest := fun rs' room' => @ih fuel (entry + size) rs'
      (by rw [next]; exact reach) (fun i lt => by rw [next]; exact before (i + 1) (by omega))
      (by omega) room'
    simp only [next] at rest
    rw [setMmapLoop, if_pos more, List.range_succ_eq_map, List.map_cons, List.map_map, Nat.zero_mul,
      Nat.add_zero]
    cases recorded : k.regionOf (mmapEntryAt m entry) with
    | none =>
      rw [List.filterMap_cons_none recorded]
      exact rest rs room
    | some r =>
      rw [List.filterMap_cons_some recorded]
      dsimp only
      by_cases place : rs.length < maxRegions
      · rw [if_pos place, rest (rs ++ [r]) (by rw [List.length_append, List.length_singleton]; omega),
          ← List.append_cons]
        rfl
      · rw [if_neg place, if_neg]
        rw [List.length_append, List.length_cons]
        omega

/-- **The table.** A map makes a region of every entry that has one, if there is a place for each. -/
theorem pmmSetMmap_cases (pos : 0 < mmapEntrySize m mmap) : pmmSetMmap k m mmap =
    if ((mmapEntries m mmap).filterMap k.regionOf).length ≤ maxRegions then
      .ok ((mmapEntries m mmap).filterMap k.regionOf)
    else .error .undefined := by
  have whole := Nat.div_add_mod
    (mmapSize m mmap - mmapEntriesOffset + (mmapEntrySize m mmap - 1)) (mmapEntrySize m mmap)
  have rest := Nat.mod_lt
    (mmapSize m mmap - mmapEntriesOffset + (mmapEntrySize m mmap - 1)) pos
  rw [← mmapCount, Nat.mul_comm] at whole
  have before : ∀ i < mmapCount m mmap,
      mmapEntriesOffset + i * mmapEntrySize m mmap < mmapSize m mmap := by
    intro i lt
    have fewer : (i + 1) * mmapEntrySize m mmap ≤ mmapCount m mmap * mmapEntrySize m mmap :=
      Nat.mul_le_mul_right _ lt
    rw [Nat.add_mul, Nat.one_mul] at fewer
    omega
  have enough : mmapCount m mmap ≤ mmapSize m mmap := by
    by_contra more
    have last := before (mmapSize m mmap) (Nat.lt_of_not_le more)
    have least := Nat.le_mul_of_pos_right (mmapSize m mmap) pos
    omega
  unfold pmmSetMmap
  rw [setMmapLoop_eq (n := mmapCount m mmap) (by omega) (fun i lt => ?_) enough (Nat.zero_le _)]
  · rfl
  · have := before i lt
    omega

/-- The same of a map with a place for every entry. -/
theorem pmmSetMmap_eq (pos : 0 < mmapEntrySize m mmap)
    (few : (mmapEntries m mmap).length ≤ maxRegions) :
    pmmSetMmap k m mmap = .ok ((mmapEntries m mmap).filterMap k.regionOf) := by
  rw [pmmSetMmap_cases pos, if_pos]
  exact Nat.le_trans (List.length_filterMap_le _ _) few

/-! ## A region -/

/-- What is promised of a region: it lies in an available entry, and none of its pages overlaps the kernel
image. -/
structure RegionRight (k : KernelImage) (es : List MmapEntry) (r : MmapRegion) : Prop where
  inside : ∃ e ∈ es, e.type = multibootMemoryAvailable ∧ e.addr ≤ r.start ∧
    r.start + r.pages * pageSize ≤ e.addr + e.len
  clear : ∀ a, r.start ≤ a → a < r.start + r.pages * pageSize → ¬ k.Overlaps a

/-- The image lies inside the entry, whose whole pages come to it. -/
def Surrounds (k : KernelImage) (e : MmapEntry) : Prop :=
  e.addr < k.start ∧ k.start < k.stop ∧ k.stop ≤ e.addr + e.len ∧
    k.start < e.addr + e.len / pageSize * pageSize

/-- Rounding down. -/
theorem alignDown_le (val : Nat) : alignDown val ≤ val ∧ val < alignDown val + pageSize := by
  unfold alignDown pageSize
  omega

/-- Rounding up the end of the image. -/
theorem KernelImage.le_alignUp (k : KernelImage) : k.stop ≤ alignUp k.stop := by
  have room := k.room
  have fits : add64 k.stop (pageSize - 1) = k.stop + (pageSize - 1) :=
    Nat.mod_eq_of_lt (by simp only [pageSize] at room ⊢; omega)
  have down := (alignDown_le (k.stop + (pageSize - 1))).2
  unfold alignUp
  rw [fits]
  simp only [pageSize] at down ⊢
  omega

/-- The start of a region: the entry's, or behind the image. -/
theorem pokeStart_cases {start start' : Nat} (poked : k.pokeStart start stop = some start') :
    (¬ k.Overlaps start ∧ start' = start) ∨ (k.Overlaps start ∧ k.stop ≤ start' ∧ start' < stop) := by
  unfold KernelImage.pokeStart at poked
  split at poked
  · rename_i here
    split at poked
    · cases poked
    · obtain rfl := Option.some.inj poked
      exact .inr ⟨here, k.le_alignUp, by omega⟩
  · rename_i out
    exact .inl ⟨out, (Option.some.inj poked).symm⟩

/-- The end of a region: the entry's, or before the image. -/
theorem pokeEnd_cases {start stop' : Nat} (poked : k.pokeEnd start stop = some stop') :
    (¬ k.Overlaps stop ∧ stop' = stop) ∨ (k.Overlaps stop ∧ start < stop' ∧ stop' ≤ k.start) := by
  unfold KernelImage.pokeEnd at poked
  split at poked
  · rename_i here
    split at poked
    · cases poked
    · obtain rfl := Option.some.inj poked
      exact .inr ⟨here, by omega, (alignDown_le k.start).1⟩
  · rename_i out
    exact .inl ⟨out, (Option.some.inj poked).symm⟩

/-- A region lies in its entry, and overlaps the image only where the image lies inside the entry. -/
theorem regionOf_cases (recorded : k.regionOf e = some r) (sum : e.addr + e.len < 2 ^ 64) :
    e.type = multibootMemoryAvailable ∧ e.addr ≤ r.start ∧
      r.start + r.pages * pageSize ≤ e.addr + e.len ∧
      (¬ Surrounds k e → ∀ a, r.start ≤ a → a < r.start + r.pages * pageSize → ¬ k.Overlaps a) := by
  unfold KernelImage.regionOf at recorded
  split at recorded
  · cases recorded
  rename_i available
  have whole : add64 e.addr e.len = e.addr + e.len := Nat.mod_eq_of_lt sum
  rw [whole] at recorded
  obtain ⟨start, first, recorded⟩ := Option.bind_eq_some_iff.mp recorded
  obtain ⟨stop, last, recorded⟩ := Option.bind_eq_some_iff.mp recorded
  obtain rfl := Option.some.inj recorded
  have ordered := k.ordered
  have room := k.room
  have starts := pokeStart_cases first
  have stops := pokeEnd_cases last
  simp only [KernelImage.Overlaps, pageSize] at starts stops room
  have pages : sub64 stop start = stop - start := by
    unfold sub64
    omega
  simp only [Surrounds, KernelImage.Overlaps, pages, pageSize]
  refine ⟨not_not.mp available, by omega, by omega, ?_⟩
  intro outside a low high here
  apply outside
  omega

/-- An available entry around the image is recorded with the image in it. -/
theorem regionOf_surrounds (available : e.type = multibootMemoryAvailable)
    (sum : e.addr + e.len < 2 ^ 64) (around : Surrounds k e) :
    k.regionOf e = some { start := e.addr, pages := e.len / pageSize } := by
  obtain ⟨before, _, behind, _⟩ := around
  have whole : add64 e.addr e.len = e.addr + e.len := Nat.mod_eq_of_lt sum
  have start : k.pokeStart e.addr (e.addr + e.len) = some e.addr :=
    if_neg fun here => by have := here.1; omega
  have stop : k.pokeEnd e.addr (e.addr + e.len) = some (e.addr + e.len) :=
    if_neg fun here => by have := here.2; omega
  have pages : sub64 (e.addr + e.len) e.addr = e.len := by
    unfold sub64
    omega
  unfold KernelImage.regionOf
  rw [if_neg (not_not.mpr available), whole]
  simp only [start, stop, pages, Option.bind_eq_bind, Option.bind_some, Option.pure_def]

/-! ## Every map -/

/-- **No kernel memory.** For every map with a place for each entry, whose sums do not overflow, and every
kernel image: every region recorded lies in an available entry and has no page on the image, exactly when
the image lies inside no available entry whose whole pages come to it. -/
theorem pmmSetMmap_right_iff (k : KernelImage) (m : Bytes) (mmap : Nat)
    (pos : 0 < mmapEntrySize m mmap) (few : (mmapEntries m mmap).length ≤ maxRegions)
    (sums : ∀ e ∈ mmapEntries m mmap, e.addr + e.len < 2 ^ 64) :
    (∃ rs, pmmSetMmap k m mmap = .ok rs ∧ ∀ r ∈ rs, RegionRight k (mmapEntries m mmap) r) ↔
      ∀ e ∈ mmapEntries m mmap, e.type = multibootMemoryAvailable → ¬ Surrounds k e := by
  rw [pmmSetMmap_eq pos few]
  constructor
  · rintro ⟨rs, same, right⟩ e mem available around
    obtain rfl := Except.ok.inj same
    have recorded := regionOf_surrounds available (sums e mem) around
    have clear := (right _ (List.mem_filterMap.mpr ⟨e, mem, recorded⟩)).clear
    obtain ⟨before, some, behind, reach⟩ := around
    exact clear k.start (Nat.le_of_lt before) reach ⟨Nat.le_refl _, some⟩
  · intro outside
    refine ⟨_, rfl, fun r recorded => ?_⟩
    obtain ⟨e, mem, recorded⟩ := List.mem_filterMap.mp recorded
    obtain ⟨available, low, high, clear⟩ := regionOf_cases recorded (sums e mem)
    exact ⟨⟨e, mem, available, low, high⟩, clear (outside e mem available)⟩

/-- The image of `link.lds`, with an end in the second MiB. -/
def linkedImage : KernelImage where
  start := 0x100000
  stop := 0x140000
  ordered := by decide
  room := by decide

/-- A tag with one available entry, of a memory from an address on. -/
def oneEntryTag (addr len : Nat) : Bytes :=
  store (store (store (store (store (fun _ => 0) 4 4 40) 8 4 24) 16 8 addr) 24 8 len) 32 4
    multibootMemoryAvailable

/-- Memory that begins in the image is recorded from the page behind the image on. -/
theorem pmmSetMmap_right_iff_inside :
    ∃ rs, pmmSetMmap linkedImage (oneEntryTag 0x120000 0x100000) 0 = .ok rs ∧
      ∀ r ∈ rs, RegionRight linkedImage (mmapEntries (oneEntryTag 0x120000 0x100000) 0) r := by
  have entries : mmapEntries (oneEntryTag 0x120000 0x100000) 0 =
      [{ addr := 0x120000, len := 0x100000, type := 1 }] := by decide
  refine (pmmSetMmap_right_iff linkedImage _ 0 (by decide) ?_ ?_).mpr ?_
  · rw [entries]
    decide
  · rw [entries]
    decide
  · rw [entries]
    intro e mem _ around
    obtain rfl := List.mem_singleton.mp mem
    exact absurd around.1 (by decide)

/-- Memory around the image is recorded whole. -/
theorem pmmSetMmap_around :
    pmmSetMmap linkedImage (oneEntryTag 0 0x8000000) 0 =
        .ok [{ start := 0, pages := 0x8000 }] ∧
      ¬ RegionRight linkedImage (mmapEntries (oneEntryTag 0 0x8000000) 0)
        { start := 0, pages := 0x8000 } := by
  refine ⟨by rfl, ?_⟩
  intro right
  exact right.clear 0x100000 (by decide) (by decide) ⟨by decide, by decide⟩

end Blackcomb.Mm
