import Mathlib.Data.Finset.Card
import Blackcomb.Lib.Run
import Blackcomb.Mm.Pmm

/-!
# The frame allocator's bitmap

The invariant of `pmm.c`: bit `i` of a region's bitmap is set exactly when page `i` holds the bitmap
itself or has been handed out. It rests on where things are: the bytes of a bitmap lie in the pages
the bitmap reserves for itself, so no frame ever handed out holds a bit. The same reservation keeps
address `0`, the failure value, from being handed out, and makes the inclusive upper bound of
`pmm_free` harmless: the address just past a region is no frame, or is the first page of the next.

**What it does not establish.** Regions are aligned and do not overlap; what the boot loader's map
makes of them otherwise is in `Recorded`. A frame that is given back twice is outside the runs.
-/

namespace Blackcomb.Mm

open Memory Bitmap Run

/-- `memset` writes its range and nothing else. -/
theorem memset_apply (m : Bytes) (s : Nat) (c : BitVec 8) (n a : Nat) :
    memset m s c n a = if s ≤ a ∧ a < s + n then c else m a := by
  induction n with
  | zero => rw [memset, if_neg (by omega)]
  | succ n ih =>
    rw [memset, Function.update_apply, ih]
    split
    · rw [if_pos (by omega)]
    · split
      · rw [if_pos (by omega)]
      · rw [if_neg (by omega)]

/-! ## Regions and frames -/

namespace Region

variable {r q : Region} {i : Nat}

/-- A region with a page has a page of bitmap. -/
theorem bmapPages_pos (lt : i < r.pages) : 0 < r.bmapPages := by
  simp only [bmapPages, bmapSize, pageSize]
  omega

/-- The bitmap fits its region. -/
theorem bmapPages_le (r : Region) : r.bmapPages ≤ r.pages := by
  simp only [bmapPages, bmapSize, pageSize]
  omega

/-- The byte of a page's bit lies in the bitmap. -/
theorem byte_lt (lt : i < r.pages) : i / 8 < r.bmapSize := by
  simp only [bmapSize]
  omega

/-- The bitmap lies in the pages it reserves. -/
theorem bmapSize_le (r : Region) : r.bmapSize ≤ r.bmapPages * pageSize := by
  simp only [bmapPages, pageSize]
  omega

end Region

/-- A frame that can be handed out: a page of a region that does not hold the bitmap. -/
def IsFrame (rs : RegionTable) (f : Nat) : Prop :=
  ∃ r ∈ rs.regions, ∃ i, r.bmapPages ≤ i ∧ i < r.pages ∧ f = r.start + i * pageSize

/-- A page whose bit is clear. -/
def Allocatable (rs : RegionTable) (m : Bytes) (f : Nat) : Prop :=
  ∃ r ∈ rs.regions, ∃ i < r.pages, f = r.start + i * pageSize ∧ regionGetBit m r i = false

variable {rs : RegionTable} {m : Bytes} {f g : Nat} {r q : Region} {i j : Nat}

/-- Two regions of the table do not overlap. -/
theorem RegionTable.apart (hr : r ∈ rs.regions) (hq : q ∈ rs.regions) (ne : r ≠ q) :
    r.stop ≤ q.start ∨ q.stop ≤ r.start := by
  have : Std.Symm fun r q : Region => r.stop ≤ q.start ∨ q.stop ≤ r.start := ⟨fun _ _ => Or.symm⟩
  exact rs.disjoint.forall hr hq ne

/-- A page has one region and one index. -/
theorem RegionTable.page_inj (hr : r ∈ rs.regions) (hq : q ∈ rs.regions) (hi : i < r.pages)
    (hj : j < q.pages) (same : r.start + i * pageSize = q.start + j * pageSize) : r = q ∧ i = j := by
  have region : r = q := by
    by_contra ne
    have := rs.apart hr hq ne
    simp only [Region.stop, pageSize] at this same
    omega
  subst region
  simp only [pageSize] at same
  exact ⟨rfl, by omega⟩

/-- The bytes of a bitmap are outside every frame. -/
theorem IsFrame.apart_byte (frame : IsFrame rs f) (hq : q ∈ rs.regions) (hj : j < q.pages) :
    q.start + j / 8 < f ∨ f + pageSize ≤ q.start + j / 8 := by
  obtain ⟨r, hr, i, low, high, rfl⟩ := frame
  have inside := Region.byte_lt hj
  have size := q.bmapSize_le
  have pages := q.bmapPages_le
  by_cases same : r = q
  · subst same
    simp only [pageSize] at *
    omega
  · have := rs.apart hr hq same
    simp only [Region.stop, pageSize] at *
    omega

/-- A bit's byte determines its region. -/
theorem RegionTable.byte_ne (hr : r ∈ rs.regions) (hq : q ∈ rs.regions) (hi : i < r.pages)
    (hj : j < q.pages) (ne : r ≠ q) : r.start + i / 8 ≠ q.start + j / 8 := by
  have insideR := Region.byte_lt hi
  have insideQ := Region.byte_lt hj
  have sizeR := r.bmapSize_le
  have sizeQ := q.bmapSize_le
  have pagesR := r.bmapPages_le
  have pagesQ := q.bmapPages_le
  have := rs.apart hr hq ne
  simp only [Region.stop, pageSize] at *
  omega

/-- Frames are aligned. -/
theorem IsFrame.aligned (frame : IsFrame rs f) : f % pageSize = 0 := by
  obtain ⟨r, _, i, _, _, rfl⟩ := frame
  have := r.aligned
  simp only [pageSize] at *
  omega

/-- No frame is at 0: the bitmap's pages come first. -/
theorem IsFrame.pos (frame : IsFrame rs f) : 0 < f := by
  obtain ⟨r, _, i, low, lt, rfl⟩ := frame
  have := Region.bmapPages_pos lt
  simp only [pageSize]
  omega

/-- Two frames are the same or do not overlap. -/
theorem IsFrame.apart (hf : IsFrame rs f) (hg : IsFrame rs g) (ne : f ≠ g) :
    f + pageSize ≤ g ∨ g + pageSize ≤ f := by
  have one := hf.aligned
  have two := hg.aligned
  simp only [pageSize] at *
  omega

/-! ## Bits -/

/-- A set bit is its own page's, in whichever region it is looked up. -/
theorem regionGetBit_set (hr : r ∈ rs.regions) (hq : q ∈ rs.regions) (hi : i < r.pages)
    (hj : j < q.pages) : regionGetBit (regionSetBit m r i) q j =
      (decide (r.start + i * pageSize = q.start + j * pageSize) || regionGetBit m q j) := by
  by_cases same : r = q
  · subst same
    have index : r.start + i * pageSize = r.start + j * pageSize ↔ j = i := by
      simp only [pageSize]
      omega
    simp only [regionGetBit, regionSetBit, bit_setBit, index]
  · have other : ¬ r.start + i * pageSize = q.start + j * pageSize := fun e =>
      same (rs.page_inj hr hq hi hj e).1
    have byte := rs.byte_ne hr hq hi hj same
    simp only [other, decide_false, Bool.false_or]
    exact bit_congr (setBit_outside (Ne.symm byte))

/-- The same for a cleared bit. -/
theorem regionGetBit_unset (hr : r ∈ rs.regions) (hq : q ∈ rs.regions) (hi : i < r.pages)
    (hj : j < q.pages) : regionGetBit (regionUnsetBit m r i) q j =
      (!decide (r.start + i * pageSize = q.start + j * pageSize) && regionGetBit m q j) := by
  by_cases same : r = q
  · subst same
    have index : r.start + i * pageSize = r.start + j * pageSize ↔ j = i := by
      simp only [pageSize]
      omega
    simp only [regionGetBit, regionUnsetBit, bit_clearBit, index]
  · have other : ¬ r.start + i * pageSize = q.start + j * pageSize := fun e =>
      same (rs.page_inj hr hq hi hj e).1
    have byte := rs.byte_ne hr hq hi hj same
    simp only [other, decide_false, Bool.not_false, Bool.true_and]
    exact bit_congr (clearBit_outside (Ne.symm byte))

/-! ## The invariant -/

/-- A bit is set exactly when its page holds the bitmap or has been handed out. -/
structure FramesInv (rs : RegionTable) (s : Frames) : Prop where
  bits : ∀ r ∈ rs.regions, ∀ i < r.pages,
    regionGetBit s.mem r i = true ↔ i < r.bmapPages ∨ r.start + i * pageSize ∈ s.taken
  frames : ∀ f ∈ s.taken, IsFrame rs f
  nodup : s.taken.Nodup

namespace FramesInv

variable {s s' : Frames}

/-- The pages with a clear bit are the frames not handed out. -/
theorem allocatable (inv : FramesInv rs s) : Allocatable rs s.mem f ↔ IsFrame rs f ∧ f ∉ s.taken := by
  constructor
  · intro ⟨r, hr, i, lt, at_, clear⟩
    have bit := inv.bits r hr i lt
    rw [clear] at bit
    simp only [Bool.false_eq_true, false_iff, not_or, Nat.not_lt] at bit
    exact ⟨⟨r, hr, i, bit.1, lt, at_⟩, at_ ▸ bit.2⟩
  · intro ⟨⟨r, hr, i, low, lt, at_⟩, free⟩
    refine ⟨r, hr, i, lt, at_, ?_⟩
    rw [Bool.eq_false_iff, ne_eq, inv.bits r hr i lt, not_or]
    exact ⟨Nat.not_lt.mpr low, at_ ▸ free⟩

end FramesInv

/-! ## pmm_alloc -/

/-- The search of a region from page `i` on: nothing is free, or the first free page is taken. -/
theorem findFreePageFrom_spec (m : Bytes) (r : Region) (i n : Nat) :
    (findFreePageFrom m r i n = (0, m) ∧ ∀ j, i ≤ j → j < i + n → regionGetBit m r j = true) ∨
      ∃ j, i ≤ j ∧ j < i + n ∧ regionGetBit m r j = false ∧
        findFreePageFrom m r i n = (r.start + j * pageSize, regionSetBit m r j) := by
  induction n generalizing i with
  | zero => exact .inl ⟨rfl, fun j low high => absurd high (by omega)⟩
  | succ n ih =>
    rw [findFreePageFrom]
    cases here : regionGetBit m r i with
    | false => exact .inr ⟨i, Nat.le_refl i, by omega, here, by simp⟩
    | true =>
      rw [if_pos rfl]
      rcases ih (i + 1) with ⟨none, full⟩ | ⟨j, low, high, clear, found⟩
      · refine .inl ⟨none, fun j low high => ?_⟩
        by_cases first : j = i
        · rw [first]
          exact here
        · exact full j (by omega) (by omega)
      · exact .inr ⟨j, by omega, by omega, clear, found⟩

/-- Whatever the bitmaps say, what is found is a page of a region or nothing. -/
theorem allocFrom_page (m : Bytes) (qs : List Region) :
    (allocFrom m qs).1 = 0 ∨
      ∃ r ∈ qs, ∃ j < r.pages, (allocFrom m qs).1 = r.start + j * pageSize := by
  induction qs generalizing m with
  | nil => exact .inl rfl
  | cons r qs ih =>
    rw [allocFrom, findFreePage]
    simp only
    split
    · rcases findFreePageFrom_spec m r 0 r.pages with ⟨none, _⟩ | ⟨j, _, lt, _, found⟩
      · exact .inl (by rw [none])
      · exact .inr ⟨r, List.mem_cons_self, j, by omega, by rw [found]⟩
    · rcases ih (findFreePageFrom m r 0 r.pages).2 with none | ⟨q, mem, j, lt, found⟩
      · exact .inl none
      · exact .inr ⟨q, List.mem_cons_of_mem r mem, j, lt, found⟩

/-- What `pmm_alloc` returns is aligned, 0 included. -/
theorem pmmAlloc_aligned (rs : RegionTable) (m : Bytes) : (pmmAlloc rs m).1 % pageSize = 0 := by
  rcases allocFrom_page m rs.regions with none | ⟨r, _, j, _, found⟩
  · rw [pmmAlloc, none]
    rfl
  · rw [pmmAlloc, found, Nat.add_mul_mod_self_right]
    exact r.aligned

/-- The search of the regions, each of which has its first page reserved. -/
theorem allocFrom_spec (m : Bytes) (qs : List Region)
    (reserved : ∀ r ∈ qs, 0 < r.pages → regionGetBit m r 0 = true) :
    (allocFrom m qs = (0, m) ∧ ∀ r ∈ qs, ∀ j < r.pages, regionGetBit m r j = true) ∨
      ∃ r ∈ qs, ∃ j < r.pages, regionGetBit m r j = false ∧
        allocFrom m qs = (r.start + j * pageSize, regionSetBit m r j) := by
  induction qs with
  | nil => exact .inl ⟨rfl, fun r hr => by cases hr⟩
  | cons r qs ih =>
    rw [allocFrom, findFreePage]
    rcases findFreePageFrom_spec m r 0 r.pages with ⟨none, full⟩ | ⟨j, _, high, clear, found⟩
    · rw [none]
      simp only [ne_eq, not_true_eq_false, if_false]
      rcases ih fun q hq => reserved q (List.mem_cons_of_mem r hq) with
        ⟨nothing, rest⟩ | ⟨q, hq, j, lt, clear, found⟩
      · refine .inl ⟨nothing, fun q hq j lt => ?_⟩
        rcases List.mem_cons.mp hq with rfl | hq
        · exact full j (Nat.zero_le j) (by omega)
        · exact rest q hq j lt
      · exact .inr ⟨q, List.mem_cons_of_mem r hq, j, lt, clear, found⟩
    · rw [found]
      have pos : j ≠ 0 := by
        rintro rfl
        rw [reserved r List.mem_cons_self (by omega)] at clear
        cases clear
      have address : r.start + j * pageSize ≠ 0 := by
        simp only [pageSize]
        omega
      simp only [ne_eq, address, not_false_eq_true, if_true]
      exact .inr ⟨r, List.mem_cons_self, j, by omega, clear, rfl⟩

namespace FramesInv

variable {s s' : Frames}

/-- The bitmap's first page is marked as taken. -/
theorem reserved (inv : FramesInv rs s) (hr : r ∈ rs.regions) (some : 0 < r.pages) :
    regionGetBit s.mem r 0 = true :=
  (inv.bits r hr 0 some).mpr (.inl (Region.bmapPages_pos some))

/-- `pmm_alloc` while a frame is free: a frame not handed out, its bit set and its bytes zeroed. -/
theorem alloc (inv : FramesInv rs s) (free : ∃ g, IsFrame rs g ∧ g ∉ s.taken) :
    ∃ r ∈ rs.regions, ∃ i, r.bmapPages ≤ i ∧ i < r.pages ∧ r.start + i * pageSize ∉ s.taken ∧
      pmmAlloc rs s.mem = (r.start + i * pageSize,
        memset (regionSetBit s.mem r i) (r.start + i * pageSize) 0 pageSize) := by
  unfold pmmAlloc
  rcases allocFrom_spec s.mem rs.regions fun r hr => inv.reserved hr with
    ⟨_, full⟩ | ⟨r, hr, i, lt, clear, found⟩
  · obtain ⟨g, frame⟩ := free
    obtain ⟨r, hr, i, lt, _, clear⟩ := inv.allocatable.mpr frame
    rw [full r hr i lt] at clear
    cases clear
  · have bit := inv.bits r hr i lt
    rw [clear] at bit
    simp only [Bool.false_eq_true, false_iff, not_or, Nat.not_lt] at bit
    exact ⟨r, hr, i, bit.1, lt, bit.2, by rw [found]⟩

/-- `pmm_alloc` when every frame is handed out: the failure value, and page `0` zeroed. -/
theorem alloc_full (inv : FramesInv rs s) (full : ∀ g, IsFrame rs g → g ∈ s.taken) :
    pmmAlloc rs s.mem = (0, memset s.mem 0 0 pageSize) := by
  unfold pmmAlloc
  rcases allocFrom_spec s.mem rs.regions fun r hr => inv.reserved hr with
    ⟨none, _⟩ | ⟨r, hr, i, lt, clear, found⟩
  · rw [none]
  · have := inv.allocatable.mp ⟨r, hr, i, lt, rfl, clear⟩
    exact absurd (full _ this.1) this.2

/-- A memory that agrees on the bytes of the bitmaps has the same bits. -/
theorem congr {m' : Bytes} (inv : FramesInv rs s)
    (same : ∀ r ∈ rs.regions, ∀ i < r.pages, m' (r.start + i / 8) = s.mem (r.start + i / 8)) :
    FramesInv rs { s with mem := m' } := by
  refine ⟨fun r hr i lt => ?_, inv.frames, inv.nodup⟩
  rw [← inv.bits r hr i lt, regionGetBit, regionGetBit, bit_congr (same r hr i lt)]

/-- Writing a frame leaves the bitmaps alone. -/
theorem outside {m' : Bytes} (inv : FramesInv rs s) (frame : IsFrame rs f)
    (same : ∀ a, a < f ∨ f + pageSize ≤ a → m' a = s.mem a) : FramesInv rs { s with mem := m' } :=
  inv.congr fun _ hr _ lt => same _ (frame.apart_byte hr lt)

/-- The invariant after a frame's bit is set. -/
theorem take (inv : FramesInv rs s) (hr : r ∈ rs.regions) (low : r.bmapPages ≤ i) (lt : i < r.pages)
    (free : r.start + i * pageSize ∉ s.taken) :
    FramesInv rs ⟨regionSetBit s.mem r i, (r.start + i * pageSize) :: s.taken⟩ := by
  refine ⟨fun q hq j hj => ?_, fun f hf => ?_, List.nodup_cons.mpr ⟨free, inv.nodup⟩⟩
  · rw [regionGetBit_set hr hq lt hj, Bool.or_eq_true, decide_eq_true_eq, inv.bits q hq j hj,
      List.mem_cons]
    constructor
    · intro cases
      rcases cases with e | low | mem
      · exact .inr (.inl e.symm)
      · exact .inl low
      · exact .inr (.inr mem)
    · intro cases
      rcases cases with low | e | mem
      · exact .inr (.inl low)
      · exact .inl e.symm
      · exact .inr (.inr mem)
  · rcases List.mem_cons.mp hf with rfl | hf
    · exact ⟨r, hr, i, low, lt, rfl⟩
    · exact inv.frames f hf

end FramesInv

/-! ## pmm_free -/

/-- Regions that an address is outside of, the address past their end included, are passed over. -/
theorem foldl_freeIn_outside (qs : List Region) (m : Bytes)
    (out : ∀ r ∈ qs, f < r.start ∨ r.stop < f) : qs.foldl (freeIn f) m = m := by
  induction qs with
  | nil => rfl
  | cons r qs ih =>
    have here : freeIn f m r = m := by
      have := out r List.mem_cons_self
      simp only [Region.stop] at this
      unfold freeIn
      rw [if_pos (by omega)]
    rw [List.foldl_cons, here]
    exact ih fun q hq => out q (List.mem_cons_of_mem r hq)

/-- `pmm_free` of a frame clears its bit and no other. -/
theorem pmmFree_spec (hr : r ∈ rs.regions) (low : r.bmapPages ≤ i) (lt : i < r.pages) :
    pmmFree rs m (r.start + i * pageSize) = .ok (regionUnsetBit m r i) := by
  have aligned : (r.start + i * pageSize) % pageSize = 0 :=
    IsFrame.aligned ⟨r, hr, i, low, lt, rfl⟩
  have others : ∀ q ∈ rs.regions, q ≠ r →
      r.start + i * pageSize < q.start ∨ q.stop < r.start + i * pageSize := by
    intro q hq ne
    have apart := rs.apart hq hr ne
    have pos := Region.bmapPages_pos lt
    simp only [Region.stop, pageSize] at *
    omega
  unfold pmmFree
  rw [if_neg (by simpa using aligned)]
  obtain ⟨xs, ys, split⟩ := List.append_of_mem hr
  have alone : r ∉ xs ∧ r ∉ ys := by
    -- a region overlaps itself, so the table has it once
    have disjoint := rs.disjoint
    rw [split, List.pairwise_append, List.pairwise_cons] at disjoint
    obtain ⟨_, ⟨right, _⟩, left⟩ := disjoint
    have self : ¬ (r.stop ≤ r.start ∨ r.stop ≤ r.start) := by
      simp only [Region.stop, pageSize]
      omega
    exact ⟨fun mem => self (left r mem r List.mem_cons_self), fun mem => self (right r mem)⟩
  have here : freeIn (r.start + i * pageSize) m r = regionUnsetBit m r i := by
    have index : (r.start + i * pageSize - r.start) / pageSize = i := by
      simp only [pageSize]
      omega
    unfold freeIn
    rw [if_neg (by simp only [pageSize]; omega), index]
  rw [split, List.foldl_append, List.foldl_cons,
    foldl_freeIn_outside xs m fun q hq => others q (by simp [split, hq]) fun e => alone.1 (e ▸ hq),
    here, foldl_freeIn_outside ys _ fun q hq => others q (by simp [split, hq]) fun e =>
      alone.2 (e ▸ hq)]

namespace FramesInv

variable {s s' : Frames}

/-- The invariant after a frame's bit is cleared. -/
theorem release (inv : FramesInv rs s) (hr : r ∈ rs.regions) (low : r.bmapPages ≤ i)
    (lt : i < r.pages) :
    FramesInv rs ⟨regionUnsetBit s.mem r i, s.taken.erase (r.start + i * pageSize)⟩ := by
  refine ⟨fun q hq j hj => ?_, fun f hf => inv.frames f (List.mem_of_mem_erase hf),
    inv.nodup.erase _⟩
  rw [regionGetBit_unset hr hq lt hj, inv.nodup.mem_erase_iff]
  by_cases same : r.start + i * pageSize = q.start + j * pageSize
  · obtain ⟨rfl, rfl⟩ := rs.page_inj hr hq lt hj same
    simp [low]
  · have ne : ¬ q.start + j * pageSize = r.start + i * pageSize := fun e => same e.symm
    simp [same, ne, inv.bits q hq j hj]

end FramesInv

/-- When calls are made: `pmm_alloc` while a frame is free, `pmm_free` of a frame handed out, and
writes to a frame handed out. -/
def Frames.Allowed (rs : RegionTable) : FrameCall → Frames → Prop
  | .alloc, s => ∃ g, IsFrame rs g ∧ g ∉ s.taken
  | .free f, s => f ∈ s.taken
  | .write a _, s => ∃ f ∈ s.taken, f ≤ a ∧ a < f + pageSize

/-- An allowed call keeps the invariant. -/
theorem FramesInv.step {s s' : Frames} {call : FrameCall} (inv : FramesInv rs s)
    (allowed : Frames.Allowed rs call s) (h : Frames.step rs call s = .ok s') :
    FramesInv rs s' := by
  cases call with
  | alloc =>
    obtain ⟨r, hr, i, low, lt, free, done⟩ := inv.alloc allowed
    have taken := inv.take hr low lt free
    have call : Frames.step rs .alloc s =
        .ok ⟨(pmmAlloc rs s.mem).2, (pmmAlloc rs s.mem).1 :: s.taken⟩ := rfl
    rw [call, done] at h
    cases h
    refine taken.outside ⟨r, hr, i, low, lt, rfl⟩ fun a out => ?_
    dsimp only
    rw [memset_apply, if_neg (by omega)]
  | free f =>
    obtain ⟨r, hr, i, low, lt, rfl⟩ := inv.frames f allowed
    have call : Frames.step rs (.free (r.start + i * pageSize)) s =
        (pmmFree rs s.mem (r.start + i * pageSize) >>= fun m =>
          .ok ⟨m, s.taken.erase (r.start + i * pageSize)⟩) := rfl
    rw [call, pmmFree_spec hr low lt] at h
    cases h
    exact inv.release hr low lt
  | write a byte =>
    cases h
    obtain ⟨f, hf, low, high⟩ := allowed
    refine inv.outside (inv.frames f hf) fun b out => ?_
    exact Function.update_of_ne (by omega) _ _

/-! ## pmm_init_regions -/

/-- After `k` rounds the first `k` pages are marked. -/
theorem reserveBitmap_bit (m : Bytes) (r : Region) (k j : Nat) :
    regionGetBit (reserveBitmap m r k) r j = (decide (j < k) || regionGetBit m r j) := by
  induction k with
  | zero => simp [reserveBitmap]
  | succ k ih =>
    rw [reserveBitmap, regionGetBit, regionSetBit, bit_setBit]
    rw [regionGetBit] at ih
    rw [ih]
    by_cases last : j = k
    · simp [last]
    · have : j < k + 1 ↔ j < k := by omega
      simp [last, this]

/-- The rounds write in the region's own bitmap. -/
theorem reserveBitmap_outside {a : Nat} (k : Nat) (le : k ≤ r.pages)
    (out : a < r.start ∨ r.stop ≤ a) : reserveBitmap m r k a = m a := by
  induction k with
  | zero => rfl
  | succ k ih =>
    have byte : k / 8 < r.pages * pageSize := by
      simp only [pageSize]
      omega
    rw [reserveBitmap, regionSetBit, setBit_outside, ih (by omega)]
    simp only [Region.stop] at out
    omega

/-- One region's bitmap after `pmm_init_regions` came to it. -/
theorem initRegion_bit (m : Bytes) (r : Region) (lt : i < r.pages) :
    regionGetBit (initRegion m r) r i = decide (i < r.bmapPages) := by
  have zero : regionGetBit (memset m r.start 0 r.bmapSize) r i = false := by
    have inside := Region.byte_lt lt
    rw [regionGetBit, bit, memset_apply, if_pos (by omega)]
    simp
  rw [initRegion, reserveBitmap_bit, zero, Bool.or_false]

/-- Setting a region up writes inside it. -/
theorem initRegion_outside {a : Nat} (m : Bytes) (r : Region) (out : a < r.start ∨ r.stop ≤ a) :
    initRegion m r a = m a := by
  have size := r.bmapSize_le
  have pages := r.bmapPages_le
  rw [initRegion, reserveBitmap_outside _ pages out, memset_apply, if_neg]
  simp only [Region.stop, pageSize] at *
  omega

/-- The bitmaps after `pmm_init_regions`. -/
theorem foldl_initRegion_bit (qs : List Region) (m : Bytes)
    (disjoint : qs.Pairwise fun r q => r.stop ≤ q.start ∨ q.stop ≤ r.start) :
    (∀ a, (∀ r ∈ qs, a < r.start ∨ r.stop ≤ a) → qs.foldl initRegion m a = m a) ∧
      ∀ r ∈ qs, ∀ i < r.pages,
        regionGetBit (qs.foldl initRegion m) r i = decide (i < r.bmapPages) := by
  induction qs generalizing m with
  | nil => exact ⟨fun _ _ => rfl, fun r hr => by cases hr⟩
  | cons r qs ih =>
    obtain ⟨first, rest⟩ := List.pairwise_cons.mp disjoint
    obtain ⟨outside, bits⟩ := ih (initRegion m r) rest
    rw [List.foldl_cons]
    refine ⟨fun a out => ?_, fun q hq i lt => ?_⟩
    · rw [outside a fun q hq => out q (List.mem_cons_of_mem r hq)]
      exact initRegion_outside m r (out r List.mem_cons_self)
    · rcases List.mem_cons.mp hq with rfl | hq
      · -- the later regions do not reach this one's bitmap
        have byte : q.start + i / 8 < q.stop := by
          simp only [Region.stop, pageSize]
          omega
        rw [← initRegion_bit m q lt, regionGetBit, regionGetBit]
        refine bit_congr (outside _ fun p hp => ?_)
        have := first p hp
        omega
      · exact bits q hq i lt

/-- The invariant holds after `pmm_init_regions`, with no frame taken. -/
theorem FramesInv.start (rs : RegionTable) (m : Bytes) :
    FramesInv rs ⟨pmmInitRegions m rs, []⟩ := by
  refine ⟨fun r hr i lt => ?_, fun f hf => (by cases hf), List.nodup_nil⟩
  have bits := (foldl_initRegion_bit rs.regions m rs.disjoint).2 r hr i lt
  show regionGetBit (rs.regions.foldl initRegion m) r i = true ↔ _
  rw [bits, decide_eq_true_eq]
  simp

/-- So it holds after every run of allowed calls. -/
theorem FramesInv.reach {m : Bytes} {s : Frames}
    (reached : Reach (Frames.step rs) (Frames.Allowed rs) ⟨pmmInitRegions m rs, []⟩ s) :
    FramesInv rs s :=
  reached.invariant (FramesInv rs) (.start rs m) fun _ _ _ inv allowed taken =>
    inv.step allowed taken

/-! ## No frame is lost -/

/-- The frames of a table, as a list. -/
def RegionTable.frames (rs : RegionTable) : List Nat :=
  rs.regions.flatMap fun r =>
    ((List.range r.pages).filter fun i => r.bmapPages ≤ i).map fun i => r.start + i * pageSize

/-- The frames of the table, as a list. -/
theorem RegionTable.mem_frames : f ∈ rs.frames ↔ IsFrame rs f := by
  simp only [RegionTable.frames, List.mem_flatMap, List.mem_map, List.mem_filter, List.mem_range,
    decide_eq_true_eq, IsFrame]
  constructor
  · intro ⟨r, hr, i, ⟨lt, low⟩, at_⟩
    exact ⟨r, hr, i, low, lt, at_.symm⟩
  · intro ⟨r, hr, i, low, lt, at_⟩
    exact ⟨r, hr, i, ⟨lt, low⟩, at_.symm⟩

/-- The frames not handed out. -/
def freeFrames (rs : RegionTable) (s : Frames) : Finset Nat :=
  rs.frames.toFinset \ s.taken.toFinset

/-- Repeated `pmm_alloc` comes to every free frame. The number of free frames goes down with each
call that returns another one. -/
theorem FramesInv.eventually {s : Frames} (inv : FramesInv rs s) (frame : IsFrame rs g)
    (free : g ∉ s.taken) :
    ∃ n, g ∈ (pmmAllocs rs n s.mem).1 ∧ 0 ∉ (pmmAllocs rs n s.mem).1 := by
  generalize bound : (freeFrames rs s).card = k
  induction k using Nat.strong_induction_on generalizing s with
  | _ k ih =>
    obtain ⟨r, hr, i, low, lt, unused, done⟩ := inv.alloc ⟨g, frame, free⟩
    have next : FramesInv rs ⟨(pmmAlloc rs s.mem).2, (pmmAlloc rs s.mem).1 :: s.taken⟩ :=
      inv.step (show Frames.Allowed rs .alloc s from ⟨g, frame, free⟩) rfl
    have nonzero : (pmmAlloc rs s.mem).1 ≠ 0 := by
      rw [done]
      exact Nat.ne_of_gt (IsFrame.pos ⟨r, hr, i, low, lt, rfl⟩)
    by_cases this_ : g = (pmmAlloc rs s.mem).1
    · refine ⟨1, ?_, ?_⟩
      · simp [pmmAllocs, this_]
      · simp [pmmAllocs, Ne.symm nonzero]
    · have still : g ∉ (pmmAlloc rs s.mem).1 :: s.taken := by
        simp [this_, free]
      have fewer : (freeFrames rs
          ⟨(pmmAlloc rs s.mem).2, (pmmAlloc rs s.mem).1 :: s.taken⟩).card < k := by
        have taken : (pmmAlloc rs s.mem).1 ∈ freeFrames rs s := by
          rw [done]
          simp only [freeFrames, Finset.mem_sdiff, List.mem_toFinset, RegionTable.mem_frames]
          exact ⟨⟨r, hr, i, low, lt, rfl⟩, unused⟩
        have erased : freeFrames rs ⟨(pmmAlloc rs s.mem).2, (pmmAlloc rs s.mem).1 :: s.taken⟩ =
            (freeFrames rs s).erase (pmmAlloc rs s.mem).1 := by
          ext f
          simp only [freeFrames, Finset.mem_sdiff, List.mem_toFinset, List.mem_cons, not_or,
            Finset.mem_erase]
          tauto
        rw [erased, ← bound]
        exact Finset.card_erase_lt_of_mem taken
      obtain ⟨n, found, none⟩ := ih _ fewer next still rfl
      refine ⟨n + 1, ?_, ?_⟩
      · exact List.mem_cons_of_mem _ found
      · intro mem
        rcases List.mem_cons.mp mem with zero | mem
        · exact nonzero zero.symm
        · exact none mem

/-- What `pmm_alloc` does in a state with a free frame. -/
structure AllocSpec (rs : RegionTable) (s : Frames) (f : Nat) (m' : Bytes) (r : Region) (i : Nat) :
    Prop where
  region : r ∈ rs.regions
  page : f = r.start + i * pageSize
  inside : r.start ≤ f ∧ f + pageSize ≤ r.stop
  nonzero : f ≠ 0
  aligned : f % pageSize = 0
  noBitmap : ∀ q ∈ rs.regions, f + pageSize ≤ q.start ∨ q.start + q.bmapPages * pageSize ≤ f
  free : f ∉ s.taken
  zeroed : ∀ a, f ≤ a → a < f + pageSize → m' a = 0
  others : ∀ a, a < f ∨ f + pageSize ≤ a → a ≠ r.start + i / 8 → m' a = s.mem a
  bit : m' (r.start + i / 8) = s.mem (r.start + i / 8) ||| (1#8 <<< (i % 8))

/-- With a free frame `pmm_alloc` finds one, marks it and clears it. -/
theorem FramesInv.allocSpec {s : Frames} (inv : FramesInv rs s)
    (free : ∃ g, IsFrame rs g ∧ g ∉ s.taken) :
    ∃ r i, AllocSpec rs s (pmmAlloc rs s.mem).1 (pmmAlloc rs s.mem).2 r i := by
  obtain ⟨r, hr, i, low, lt, unused, done⟩ := inv.alloc free
  have frame : IsFrame rs (r.start + i * pageSize) := ⟨r, hr, i, low, lt, rfl⟩
  rw [done]
  dsimp only
  refine ⟨r, i, hr, rfl, ?_, Nat.ne_of_gt frame.pos, frame.aligned, fun q hq => ?_, unused, ?_, ?_,
    ?_⟩
  · simp only [Region.stop, pageSize]
    omega
  · by_cases same : r = q
    · subst same
      simp only [pageSize]
      omega
    · have := rs.apart hr hq same
      have pages := q.bmapPages_le
      simp only [Region.stop, pageSize] at *
      omega
  · intro a low high
    rw [memset_apply, if_pos ⟨low, high⟩]
  · intro a out byte
    rw [memset_apply, if_neg (by omega), regionSetBit, setBit_outside byte]
  · have out := frame.apart_byte hr lt
    rw [memset_apply, if_neg (by omega), regionSetBit, setBit, Function.update_self]

/-- **The frame allocator.** After `pmm_init_regions` and any sequence of calls: `pmm_alloc` returns
a frame of one region, outside every bitmap and not handed out, zeroed, and changes nothing else but
its bit; `pmm_free` of a frame handed out makes that frame allocatable and no other; what is
allocatable is what is neither handed out nor a bitmap page, and repeated `pmm_alloc` returns all of
it. -/
theorem pmm_correct (rs : RegionTable) (m : Bytes) (s : Frames)
    (reached : Reach (Frames.step rs) (Frames.Allowed rs) ⟨pmmInitRegions m rs, []⟩ s) :
    ((∃ g, IsFrame rs g ∧ g ∉ s.taken) →
      ∃ r i, AllocSpec rs s (pmmAlloc rs s.mem).1 (pmmAlloc rs s.mem).2 r i) ∧
    (∀ f ∈ s.taken, ∃ m', pmmFree rs s.mem f = .ok m' ∧
      (∀ g, Allocatable rs m' g ↔ Allocatable rs s.mem g ∨ g = f) ∧
      ∃ r ∈ rs.regions, ∃ i < r.pages, f = r.start + i * pageSize ∧
        ∀ a, a ≠ r.start + i / 8 → m' a = s.mem a) ∧
    (∀ g, Allocatable rs s.mem g ↔ IsFrame rs g ∧ g ∉ s.taken) ∧
    (∀ g, IsFrame rs g → g ∉ s.taken →
      ∃ n, g ∈ (pmmAllocs rs n s.mem).1 ∧ 0 ∉ (pmmAllocs rs n s.mem).1) := by
  have inv := FramesInv.reach reached
  refine ⟨inv.allocSpec, fun f hf => ?_, fun g => inv.allocatable, fun g => inv.eventually⟩
  obtain ⟨r, hr, i, low, lt, rfl⟩ := inv.frames f hf
  refine ⟨_, pmmFree_spec hr low lt, fun g => ?_, r, hr, i, lt, rfl, fun a out =>
    clearBit_outside out⟩
  rw [(inv.release hr low lt).allocatable, inv.allocatable, inv.nodup.mem_erase_iff]
  by_cases same : g = r.start + i * pageSize
  · subst same
    simp only [ne_eq, not_true_eq_false, false_and, not_false_eq_true, and_true, or_true, iff_true]
    exact ⟨r, hr, i, low, lt, rfl⟩
  · simp [same]

/-- A table of one region of sixteen pages, at the first megabyte. -/
def oneRegion : RegionTable where
  regions := [{
    start := 0x100000, pages := 16, aligned := by decide, fits := by decide }]
  disjoint := List.pairwise_singleton _ _

/-- Three frames are taken and the second is given back: the frame freed next is allocatable then, and no
other comes to be, and a frame is returned. -/
theorem pmm_correct_freed : ∃ s, Reach (Frames.step oneRegion) (Frames.Allowed oneRegion)
      ⟨pmmInitRegions (fun _ => 0) oneRegion, []⟩ s ∧ s.taken = [0x103000, 0x101000] ∧
    (∃ r i, AllocSpec oneRegion s (pmmAlloc oneRegion s.mem).1 (pmmAlloc oneRegion s.mem).2 r i) ∧
    ∃ m', pmmFree oneRegion s.mem 0x101000 = .ok m' ∧
      ∀ g, Allocatable oneRegion m' g ↔ Allocatable oneRegion s.mem g ∨ g = 0x101000 := by
  have frame : IsFrame oneRegion 0x104000 := ⟨_, List.mem_cons_self, 4, by decide, by decide, by decide⟩
  obtain ⟨s₁, ran₁, taken₁⟩ := follow_of_observed (Frames.step oneRegion)
    ⟨pmmInitRegions (fun _ => 0) oneRegion, []⟩ ([] ++ [.alloc]) Frames.taken [0x101000] (by decide +kernel)
  obtain ⟨s₂, ran₂, taken₂⟩ := follow_of_observed (Frames.step oneRegion)
    ⟨pmmInitRegions (fun _ => 0) oneRegion, []⟩ ([.alloc] ++ [.alloc]) Frames.taken
    [0x102000, 0x101000] (by decide +kernel)
  obtain ⟨s₃, ran₃, taken₃⟩ := follow_of_observed (Frames.step oneRegion)
    ⟨pmmInitRegions (fun _ => 0) oneRegion, []⟩ ([.alloc, .alloc] ++ [.alloc]) Frames.taken
    [0x103000, 0x102000, 0x101000] (by decide +kernel)
  have reached₁ := Reach.start.step (show Frames.Allowed oneRegion .alloc
    ⟨pmmInitRegions (fun _ => 0) oneRegion, []⟩ from ⟨_, frame, List.not_mem_nil⟩) (step_of_follow rfl ran₁)
  have reached₂ := reached₁.step (show Frames.Allowed oneRegion .alloc s₁ from
    ⟨_, frame, by simp [taken₁]⟩) (step_of_follow ran₁ ran₂)
  have reached₃ := reached₂.step (show Frames.Allowed oneRegion .alloc s₂ from
    ⟨_, frame, by simp [taken₂]⟩) (step_of_follow ran₂ ran₃)
  have held : 0x102000 ∈ s₃.taken := by simp [taken₃]
  obtain ⟨m', freed, _⟩ := (pmm_correct oneRegion (fun _ => 0) s₃ reached₃).2.1 _ held
  have taken : Frames.step oneRegion (.free 0x102000) s₃ = .ok ⟨m', s₃.taken.erase 0x102000⟩ := by
    rw [Frames.step, freed]
    rfl
  have reached := reached₃.step (show Frames.Allowed oneRegion (.free 0x102000) s₃ from held) taken
  have left : s₃.taken.erase 0x102000 = [0x103000, 0x101000] := by
    rw [taken₃]
    decide
  obtain ⟨allocates, frees, _⟩ := pmm_correct oneRegion (fun _ => 0) _ reached
  obtain ⟨m'', freed', allocatable, _⟩ := frees 0x101000 (by simp [left])
  exact ⟨_, reached, left, allocates ⟨_, frame, by simp [left]⟩, m'', freed', allocatable⟩

end Blackcomb.Mm
