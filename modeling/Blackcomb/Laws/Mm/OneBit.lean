import Blackcomb.Laws.Mm.Pmm

/-!
# The bits that a free clears

`pmm_free` asks each region whether the address is behind its end, and takes the end itself for a page of the
region. So freeing the first address behind a region also clears the bit behind the last one of its bitmap:
one more bit of the bitmap's last byte, or the first of the byte after that, which is a byte of a frame when
the bitmap ends with a page.

Every bit of memory is followed through the loop.

**What it does not establish.** The allocator's own runs are in `Pmm`; here one call is followed, on
any table and any memory.
-/

namespace Blackcomb.Mm

open Memory Bitmap

variable {rs : RegionTable} {m m' : Bytes} {phys a k : Nat} {r q : Region} {qs : List Region}

/-! ## The loop -/

/-- A region that `pmm_free` takes an address for one of. -/
def Region.Takes (r : Region) (phys : Nat) : Prop := r.start ≤ phys ∧ phys ≤ r.stop

/-- The number of an address's page in a region. -/
def Region.indexOf (r : Region) (phys : Nat) : Nat := (phys - r.start) / pageSize

/-- Bit `k` of the byte at `a` is the one that a region keeps for an address. -/
def Region.BitAt (r : Region) (phys a k : Nat) : Prop :=
  a = r.start + r.indexOf phys / 8 ∧ k = r.indexOf phys % 8

theorem freeIn_bit (low : k < 8) : (freeIn phys m r a).getLsbD k = true ↔
    (m a).getLsbD k = true ∧ ¬ (r.Takes phys ∧ r.BitAt phys a k) := by
  unfold freeIn Region.Takes Region.stop
  split
  · rename_i out
    have not : ¬ (r.start ≤ phys ∧ phys ≤ r.start + r.pages * pageSize) := by omega
    simp [not]
  · rename_i inside
    have takes : r.start ≤ phys ∧ phys ≤ r.start + r.pages * pageSize := by omega
    rw [regionUnsetBit, getLsbD_clearBit low]
    simp [takes, Region.BitAt, Region.indexOf]

/-- A bit after the loop. -/
theorem foldl_freeIn_bit (low : k < 8) : (qs.foldl (freeIn phys) m a).getLsbD k = true ↔
    (m a).getLsbD k = true ∧ ∀ q ∈ qs, ¬ (q.Takes phys ∧ q.BitAt phys a k) := by
  induction qs generalizing m with
  | nil => simp
  | cons r qs ih =>
    rw [List.foldl_cons, ih, freeIn_bit low, List.forall_mem_cons, and_assoc]

/-! ## One bit -/

/-- What is promised of a free: the bit of the page at the address is cleared if there is one, and the rest of
memory stays. -/
structure FreesOneBit (rs : RegionTable) (m : Bytes) (phys : Nat) (m' : Bytes) : Prop where
  cleared : ∀ r ∈ rs.regions, r.start ≤ phys → phys < r.stop →
    m' = regionUnsetBit m r (r.indexOf phys)
  nothing : (∀ r ∈ rs.regions, ¬ (r.start ≤ phys ∧ phys < r.stop)) → m' = m

/-- The bit behind the last one of a bitmap is not the promised one and is set. -/
def Overclears (rs : RegionTable) (m : Bytes) (r : Region) : Prop :=
  regionGetBit m r r.pages = true ∧
    ¬ (r.pages = 0 ∧ ∃ q ∈ rs.regions, 0 < q.pages ∧ q.start = r.start)

theorem Region.indexOf_stop (r : Region) : r.indexOf r.stop = r.pages := by
  unfold indexOf stop
  rw [Nat.add_sub_cancel_left, Nat.mul_div_cancel _ (by decide)]

/-- The regions that take an address: the one that has it, and those that it is the end of. -/
theorem RegionTable.takes_cases (hr : r ∈ rs.regions) (hq : q ∈ rs.regions)
    (inside : r.start ≤ phys ∧ phys < r.stop) (takes : q.Takes phys) :
    q = r ∨ q.stop = phys ∧ r.start = phys := by
  by_cases same : q = r
  · exact .inl same
  · have apart := rs.apart hq hr same
    unfold Region.Takes at takes
    omega

theorem Region.takes_end (out : ¬ (r.start ≤ phys ∧ phys < r.stop)) (takes : r.Takes phys) :
    r.stop = phys := by
  unfold Takes at takes
  omega

/-- The bit behind the last one of a bitmap is the first of another one's only where it has no page. -/
theorem Region.pages_eq_zero (hend : q.stop = phys) (first : r.start = phys) (here : q.BitAt phys a k)
    (there : r.BitAt phys a k) : q.pages = 0 := by
  have index : q.indexOf phys = q.pages := hend ▸ q.indexOf_stop
  have byte := here.1.symm.trans there.1
  rw [index, indexOf, first, Nat.sub_self, Nat.zero_div, Nat.zero_div] at byte
  simp only [stop, pageSize] at hend
  omega

/-- The bit of a region without a page, where another one starts. -/
theorem Region.bitAt_first (none : q.pages = 0) (hend : q.stop = phys) (first : r.start = phys)
    (here : q.BitAt phys a k) : r.BitAt phys a k := by
  have start : q.start = r.start := by
    rw [stop, none] at hend
    omega
  unfold BitAt indexOf at *
  rwa [← start]

/-- The bit that a region keeps for its end. -/
theorem Region.bitAt_stop (hend : r.stop = phys) (here : r.BitAt phys a k) :
    (m a).getLsbD k = regionGetBit m r r.pages := by
  have index : r.indexOf phys = r.pages := hend ▸ r.indexOf_stop
  unfold BitAt at here
  rw [regionGetBit, bit_eq_getLsbD, here.1, here.2, index]

/-- An address of no region. -/
theorem foldl_freeIn_nothing (out : ∀ r ∈ rs.regions, ¬ (r.start ≤ phys ∧ phys < r.stop)) :
    rs.regions.foldl (freeIn phys) m = m ↔
      ∀ r ∈ rs.regions, r.stop = phys → ¬ Overclears rs m r := by
  constructor
  · intro same q hq hend clears
    have takes : q.Takes phys := ⟨by unfold Region.stop at hend; omega, hend.ge⟩
    have index : q.indexOf phys = q.pages := hend ▸ q.indexOf_stop
    have bitAt : q.BitAt phys (q.start + q.pages / 8) (q.pages % 8) := by
      rw [← index]
      exact ⟨rfl, rfl⟩
    have set := (Region.bitAt_stop (m := m) hend bitAt).trans clears.1
    rw [← same, foldl_freeIn_bit (Nat.mod_lt _ (by decide))] at set
    exact set.2 q hq ⟨takes, bitAt⟩
  · intro kept
    apply ext_bits
    intro a k low
    rw [foldl_freeIn_bit low]
    refine ⟨And.left, fun set => ⟨set, fun q hq taken => ?_⟩⟩
    have hend := q.takes_end (out q hq) taken.1
    apply kept q hq hend
    refine ⟨(Region.bitAt_stop hend taken.2).symm.trans set, fun next => ?_⟩
    obtain ⟨none, r, hr, some, first⟩ := next
    apply out r hr
    simp only [Region.stop, none, pageSize] at hend ⊢
    omega

/-- An address of a region. -/
theorem foldl_freeIn_cleared (hr : r ∈ rs.regions) (inside : r.start ≤ phys ∧ phys < r.stop) :
    rs.regions.foldl (freeIn phys) m = regionUnsetBit m r (r.indexOf phys) ↔
      ∀ q ∈ rs.regions, q.stop = phys → ¬ Overclears rs m q := by
  have some : 0 < r.pages := by
    simp only [Region.stop, pageSize] at inside
    omega
  have takes : r.Takes phys := ⟨inside.1, Nat.le_of_lt inside.2⟩
  constructor
  · intro same q hq hend clears
    have takesQ : q.Takes phys := ⟨by unfold Region.stop at hend; omega, hend.ge⟩
    have index : q.indexOf phys = q.pages := hend ▸ q.indexOf_stop
    have bitAt : q.BitAt phys (q.start + q.pages / 8) (q.pages % 8) := by
      rw [← index]
      exact ⟨rfl, rfl⟩
    have low : q.pages % 8 < 8 := Nat.mod_lt _ (by decide)
    have set := (Region.bitAt_stop (m := m) hend bitAt).trans clears.1
    have first : r.start = phys := by
      rcases rs.takes_cases hr hq inside takesQ with rfl | both
      · omega
      · exact both.2
    -- the bit is cleared by the loop, so it is the one of the page
    have gone : ¬ (regionUnsetBit m r (r.indexOf phys) (q.start + q.pages / 8)).getLsbD (q.pages % 8) =
        true := by
      rw [← same, foldl_freeIn_bit low]
      exact fun stays => stays.2 q hq ⟨takesQ, bitAt⟩
    rw [regionUnsetBit, getLsbD_clearBit low] at gone
    have there : r.BitAt phys (q.start + q.pages / 8) (q.pages % 8) := by
      by_contra other
      exact gone ⟨set, other⟩
    have none := Region.pages_eq_zero hend first bitAt there
    refine clears.2 ⟨none, r, hr, some, ?_⟩
    rw [first, ← hend, Region.stop, none]
    omega
  · intro kept
    apply ext_bits
    intro a k low
    rw [foldl_freeIn_bit low, regionUnsetBit, getLsbD_clearBit low]
    refine and_congr_right fun set => ⟨fun all here => all r hr ⟨takes, here⟩, fun other q hq taken => ?_⟩
    rcases rs.takes_cases hr hq inside taken.1 with rfl | ⟨hend, first⟩
    · exact other taken.2
    · have clear := kept q hq hend
      unfold Overclears at clear
      rw [← Region.bitAt_stop hend taken.2, not_and, not_not] at clear
      exact other (Region.bitAt_first (clear set).1 hend first taken.2)

/-- **Freeing.** For every table and every page-aligned address: `pmm_free` clears the bit of the page at the
address, if a region has it, and changes no other bit of memory, exactly when no region that ends at the
address has the bit behind its bitmap set, except for a region without pages where another one starts. -/
theorem pmmFree_oneBit_iff (rs : RegionTable) (m : Bytes) (phys : Nat) (aligned : phys % pageSize = 0) :
    (∃ m', pmmFree rs m phys = .ok m' ∧ FreesOneBit rs m phys m') ↔
      ∀ r ∈ rs.regions, r.stop = phys → ¬ Overclears rs m r := by
  have call : pmmFree rs m phys = .ok (rs.regions.foldl (freeIn phys) m) := if_neg (not_not.mpr aligned)
  rw [call]
  by_cases inside : ∃ r ∈ rs.regions, r.start ≤ phys ∧ phys < r.stop
  · obtain ⟨r, hr, inside⟩ := inside
    rw [← foldl_freeIn_cleared hr inside]
    constructor
    · rintro ⟨m', same, right⟩
      obtain rfl := Except.ok.inj same
      exact right.cleared r hr inside.1 inside.2
    · intro cleared
      refine ⟨_, rfl, fun q hq low high => ?_, fun out => absurd inside (out r hr)⟩
      have same : q = r := by
        rcases rs.takes_cases hr hq inside ⟨low, Nat.le_of_lt high⟩ with same | both
        · exact same
        · omega
      rw [cleared, same]
  · have out : ∀ r ∈ rs.regions, ¬ (r.start ≤ phys ∧ phys < r.stop) := fun r hr has =>
      inside ⟨r, hr, has⟩
    rw [← foldl_freeIn_nothing out]
    constructor
    · rintro ⟨m', same, right⟩
      obtain rfl := Except.ok.inj same
      exact right.nothing out
    · intro kept
      exact ⟨_, rfl, fun r hr low high => absurd ⟨low, high⟩ (out r hr), fun _ => kept⟩

/-- 32768 pages from 48 MiB on: the bitmap is one whole page. -/
def pageOfBits : Region where
  start := 0x3000000
  pages := 0x8000
  aligned := by decide
  fits := by decide

def pageOfBitsTable : RegionTable := ⟨[pageOfBits], List.pairwise_singleton _ _⟩

/-- A page in the middle. -/
theorem pmmFree_oneBit_iff_middle :
    ∃ m', pmmFree pageOfBitsTable (fun _ => 0xff) 0x3234000 = .ok m' ∧
      FreesOneBit pageOfBitsTable (fun _ => 0xff) 0x3234000 m' := by
  refine (pmmFree_oneBit_iff pageOfBitsTable _ 0x3234000 (by decide)).mpr fun r mem hend => ?_
  rw [List.mem_singleton.mp mem] at hend
  exact absurd hend (by decide)

/-- The address behind the region: a bit of the first frame is cleared. -/
theorem pmmFree_past_end :
    IsFrame pageOfBitsTable 0x3001000 ∧
      (∃ m', pmmFree pageOfBitsTable (fun _ => 0xff) 0xb000000 = .ok m' ∧ m' 0x3001000 = 0xfe) ∧
      ¬ ∃ m', pmmFree pageOfBitsTable (fun _ => 0xff) 0xb000000 = .ok m' ∧
        FreesOneBit pageOfBitsTable (fun _ => 0xff) 0xb000000 m' := by
  have freed : (pageOfBitsTable.regions.foldl (freeIn 0xb000000) fun _ => 0xff) 0x3001000 = 0xfe := by
    decide
  refine ⟨⟨pageOfBits, .head _, 1, by decide, by decide, rfl⟩, ⟨_, rfl, freed⟩, ?_⟩
  rintro ⟨m', same, right⟩
  obtain rfl := Except.ok.inj same
  have kept := right.nothing fun r mem => by
    rw [List.mem_singleton.mp mem]
    decide
  rw [kept] at freed
  exact absurd freed (by decide)

end Blackcomb.Mm
