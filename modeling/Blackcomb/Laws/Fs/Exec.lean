import Blackcomb.Laws.Fs.Spaces
import Blackcomb.Laws.Mm.Books

/-!
# What an executable makes of an address space

`exec_elf` maps what the program headers of a file say, in a space that has the kernel's areas, and
the user stack after that. It compares no address with another one. So the areas of the space are
those of the kernel, one for each `PT_LOAD` header and the stack, whatever the file holds; and they
share no page exactly when their ranges do not. When they do not, and no header has more bytes in the
file than pages in memory, the entries of the kernel's pages are as they were.

**What it does not establish.** What the pages hold is left to `Image`. Frames are taken to suffice,
since a file that is loaded without them overwrites what it likes (`Mm.Exhaustion`). That a file
with more bytes than pages may still harm nobody is possible, and not excluded: the condition is
enough, and `Overrun` has a file that breaks it.
-/

namespace Blackcomb.Fs

open Memory Run Budget Mm

variable {rs : RegionTable} {s s' t t' : Vmm} {own : Nat → Path → Prop} {mm k n start prot : Nat}
  {user : Bool} {v : Path} {elf : Bytes} {a : Nat × Nat} {done : List (Nat × Nat)}

/-! ## Lists of areas -/

/-- The ranges of a space's list of areas. -/
structure Listing (s : Vmm) (mm : Nat) (lis : List Nat) (ranges : List (Nat × Nat)) : Prop where
  listed : Listed s mm lis
  named : ∀ r ∈ s.vmasOf lis, r < s.nvmas
  static : 3 ≤ s.nlis
  ranges : (s.vmasOf lis).map (fun r => rangeOf (s.vmas r)) = ranges

namespace Listing

variable {lis : List Nat} {ranges : List (Nat × Nat)}

theorem congr (listing : Listing s mm lis ranges) (same : SameBooks s t) :
    Listing t mm lis ranges := by
  refine ⟨listing.listed.congr (same.heads mm) (fun l _ => congrFun same.lis l) same.nlis.ge,
    fun r mem => ?_, ?_, ?_⟩
  · rw [Vmm.vmasOf, same.lis] at mem
    rw [same.nvmas]
    exact listing.named r mem
  · rw [same.nlis]
    exact listing.static
  · rw [Vmm.vmasOf, same.lis, same.vmas]
    exact listing.ranges

/-- `anon_mmap` puts its range in front, whatever it did to the tables. -/
theorem anonMmap (listing : Listing s mm lis ranges)
    (ran : Mm.anonMmap rs mm start n prot user s = .ok ((), s')) :
    ∃ l, Listing s' mm (l :: lis) ((start, n) :: ranges) := by
  obtain ⟨_, u, same, added⟩ := anonMmap_done ran
  have before := listing.congr same
  have fresh : Listed { u with
      vmas := Function.update u.vmas u.nvmas (anonArea start n prot user), nvmas := u.nvmas + 1 } mm
      lis := before.listed.congr rfl (fun _ _ => rfl) (Nat.le_refl _)
  obtain ⟨_, _, nvmas, nlis, _⟩ := addArea_rest u mm (anonArea start n prot user)
  have vmas := addArea_vmas u mm (anonArea start n prot user)
  have areas : s'.vmasOf (u.nlis :: lis) = u.nvmas :: u.vmasOf lis := by
    rw [added]
    exact fresh.vmasOf_insert u.nvmas
  refine ⟨u.nlis, ?_, fun r mem => ?_, ?_, ?_⟩
  · rw [added]
    exact fresh.insert before.static
  · rw [areas] at mem
    rw [added, nvmas]
    rcases List.mem_cons.mp mem with rfl | old
    · exact Nat.lt_succ_self _
    · exact Nat.lt_succ_of_lt (before.named r old)
  · have := before.static
    rw [added]
    omega
  · rw [areas, List.map_cons, ← before.ranges, added, vmas, Function.update_self]
    apply congrArg
    apply List.map_congr_left
    intro r old
    rw [Function.update_of_ne (Nat.ne_of_lt (before.named r old))]

theorem mapSegment {ph : Elf64Phdr} (listing : Listing s mm lis ranges)
    (ran : Fs.mapSegment rs mm elf ph s = .ok ((), s')) :
    ∃ l, Listing s' mm (l :: lis) ((ph.mapAddr, ph.memPages) :: ranges) := by
  obtain ⟨_, t, mapped, copied⟩ := Budget.bind_eq_ok.mp ran
  obtain ⟨l, before⟩ := listing.anonMmap mapped
  exact ⟨l, before.congr (sameBooks_mmCopyFromBuf _ _ _ copied)⟩

/-- The loop of `exec_elf`. -/
theorem segments (listing : Listing s mm lis ranges)
    (ran : forTo n (loadSegment rs mm elf) s = .ok ((), s')) :
    ∃ lis', Listing s' mm lis' (Fs.segments elf n ++ ranges) := by
  induction n generalizing s' with
  | zero =>
    cases ran
    exact ⟨lis, listing⟩
  | succ n ih =>
    obtain ⟨_, t, before, round⟩ := Budget.bind_eq_ok.mp ran
    obtain ⟨lis', earlier⟩ := ih before
    rw [loadSegment] at round
    rw [Fs.segments, segmentOf]
    split at round
    · rename_i load
      rw [if_pos load]
      obtain ⟨l, later⟩ := earlier.mapSegment round
      exact ⟨l :: lis', later⟩
    · rename_i other
      cases round
      rw [if_neg other]
      exact ⟨lis', earlier⟩

end Listing

/-- A space that `mm_new` made has the kernel's areas. -/
theorem listing_new {lists areas : Nat → List Nat} (spaces : Spaces rs s lists areas)
    (live : s.Live mm) (empty : areas mm = []) : Listing s mm (lists mm) kernelRanges := by
  have space := spaces.space mm live
  have list := space.areas
  rw [empty, List.nil_append] at list
  have named := spaces.kernel.named
  have range : ∀ a < 3, rangeOf (s.vmas a) = rangeOf (kernelShape a) := by
    intro a lt
    obtain ⟨_, start, pages, _⟩ :=
      VmArea.shape_inj ((spaces.kernel.shape a lt).trans (kernelShape_shape a).symm)
    rw [rangeOf, rangeOf, start, pages]
  refine ⟨space.listed, fun r mem => ?_, named.2.2, ?_⟩
  · rw [list] at mem
    simp only [List.mem_cons, List.not_mem_nil, or_false] at mem
    omega
  · rw [list]
    simp only [List.map_cons, List.map_nil, range 2 (by decide), range 1 (by decide),
      range 0 (by decide)]
    rfl

/-! ## Areas that share no page -/

/-- The areas of a space share no page. -/
def AreasApart (s : Vmm) (mm : Nat) : Prop :=
  (s.areasOf mm).Pairwise fun a b => ∀ v, InArea (s.vmas a) v → ¬ InArea (s.vmas b) v

theorem Listing.apart_iff {lis : List Nat} {ranges : List (Nat × Nat)}
    (listing : Listing s mm lis ranges) : AreasApart s mm ↔ Apart ranges := by
  have listed := listing.listed
  have enough : lis.length ≤ s.nlis :=
    length_le_of_nodup listed.nodup fun l mem => (listed.bound l mem).2
  have areas : s.areasOf mm = s.vmasOf lis := by
    rw [Vmm.areasOf, listed.head, nodes_eq enough listed.linked]
    rfl
  rw [AreasApart, areas, Apart, ← listing.ranges, List.pairwise_map]
  rfl

/-- The areas of the space that `exec_elf` makes. -/
theorem execElf_listing {lists areas : Nat → List Nat} {new : Nat} (spaces : Spaces rs s lists areas)
    (live : s.Live new) (empty : areas new = [])
    (loaded : forTo (ePhnum elf) (loadSegment rs new elf) s = .ok ((), t))
    (stack : anonMmapUser rs new userStackBase userStackPages (pageProtRead ||| pageProtWrite) t =
      .ok ((), s')) : ∃ lis, Listing s' new lis (userRanges elf ++ kernelRanges) := by
  obtain ⟨lis, listing⟩ := (listing_new spaces live empty).segments loaded
  obtain ⟨l, last⟩ := listing.anonMmap stack
  exact ⟨l :: lis, last⟩

/-! ## The kernel's pages -/

/-- The owned pages with those of some ranges. -/
def withRanges (own : Nat → Path → Prop) (mm : Nat) (done : List (Nat × Nat)) : Nat → Path → Prop :=
  fun k v => own k v ∨ k = mm ∧ ∃ a ∈ done, Covers a v

/-- A space without areas, other than the kernel's, owns no page. -/
theorem owns_new {areas : Nat → List Nat} (nonzero : 0 ≠ mm) (empty : areas mm = []) :
    ¬ owns s areas mm v := by
  rintro (⟨zero, _⟩ | ⟨_, r, mem, _⟩)
  · exact nonzero zero.symm
  · rw [empty] at mem
    cases mem

theorem withRanges_nil : withRanges own mm [] = own := by
  funext k v
  simp [withRanges]

theorem withRanges_cons : withPages (withRanges own mm done) mm start n =
    withRanges own mm ((start, n) :: done) := by
  funext k v
  apply propext
  simp only [withPages, withRanges, List.mem_cons, exists_eq_or_imp, Covers, or_assoc, and_or_left]
  apply or_congr_right
  exact or_comm

/-- A space while `exec_elf` maps ranges that share no page, from the state that `mm_new` left. -/
structure Loading (rs : RegionTable) (s t : Vmm) (own : Nat → Path → Prop) (mm : Nat)
    (done : List (Nat × Nat)) : Prop where
  tables : Tables rs t (withRanges own mm done) none none
  mapped : ∀ a ∈ done, ∀ v, Covers a v → t.slot mm v ≠ 0
  kernel : ∀ a < 3, ∀ v, InArea (kernelShape a) v → t.slot mm v = s.slot mm v
  others : ∀ k p, p.length ≤ 4 → k ≠ mm → t.slot k p = s.slot k p

/-- The pages of a range hold an image. -/
def Holds (t : Vmm) (mm : Nat) (a : Nat × Nat) (image : Bytes) : Prop :=
  ∀ k < a.2, ∀ o < pageSize,
    t.frames.mem (pageOf (t.slot mm (pageAt a.1 k)) + o) = image (k * pageSize + o)

/-- What a segment's pages hold: bytes of the file, then zeros. -/
def segmentImage (elf : Bytes) (ph : Elf64Phdr) : Bytes := fun i =>
  if i < ph.fileBytes then elf (ph.mapOffset + i) else 0

namespace Loading

theorem bare (tables : Tables rs s own none none) : Loading rs s s own mm [] := by
  refine ⟨?_, fun a mem => (by cases mem), fun _ _ _ _ => rfl, fun _ _ _ _ => rfl⟩
  rw [withRanges_nil]
  exact tables

/-- A page of a range is a page of its space's own. -/
theorem pageFrame (loading : Loading rs s t own mm done) (mem : a ∈ done) (lt : k < a.2) :
    PageFrame t (withRanges own mm done) none (pageOf (t.slot mm (pageAt a.1 k))) :=
  .inr ⟨mm, _, pageAt_length a.1 k, .inr ⟨rfl, a, mem, k, lt, rfl⟩,
    loading.mapped a mem _ ⟨k, lt, rfl⟩, rfl⟩

/-- `anon_mmap` of a range that shares no page with the ones before: zeros, and the others hold what
they held. -/
theorem anonMmap_runs (loading : Loading rs s t own mm done) (met : ¬ t.ranOut = true)
    (unowned : ∀ v, Covers (start, n) v → ¬ own mm v)
    (apart : ∀ b ∈ done ++ kernelRanges, ∀ v, Covers (start, n) v → ¬ Covers b v)
    (aligned : start % pageSize = 0) (few : n ≤ 2 ^ 19) :
    Runs (meter rs) (Mm.anonMmap rs mm start n prot user) (n * 5) t fun _ t' =>
      Loading rs s t' own mm ((start, n) :: done) ∧ Holds t' mm (start, n) (fun _ => 0) ∧
        ∀ a ∈ done, ∀ image, Holds t mm a image → Holds t' mm a image := by
  have free : ∀ j < n, ¬ withRanges own mm done mm (pageAt start j) := by
    rintro j lt (owned | ⟨_, a, mem, inside⟩)
    · exact unowned _ ⟨j, lt, rfl⟩ owned
    · exact apart a (List.mem_append_left _ mem) _ ⟨j, lt, rfl⟩ inside
  refine (anonMmap_fresh loading.tables met aligned few free).imp ?_
  rintro _ t' ⟨u, frame, fresh, added⟩
  have slots : ∀ k p, t'.slot k p = u.slot k p := by
    rw [added]
    exact addArea_slot u mm _
  have outside : ∀ v, v.length = 4 → ¬ Covers (start, n) v → t'.slot mm v = t.slot mm v := by
    intro v long out
    rw [slots]
    exact fresh.others mm v long fun same => out same.2
  have bytes : t'.frames.mem = u.frames.mem := by rw [added, addArea_frames]
  refine ⟨⟨?_, fun a mem v inside => ?_, fun b lt v inside => ?_, fun k p short ne => ?_⟩,
    fun k lt o small => ?_, fun a mem image holds k lt o small => ?_⟩
  · rw [← withRanges_cons, added]
    exact fresh.tables.records (addArea_frames _) fun _ => insertVma_p4
  · by_cases here : Covers (start, n) v
    · obtain ⟨j, lt, rfl⟩ := here
      rw [slots, fresh.here j lt]
      exact or_ne_zero (Nat.ne_of_gt (fresh.isFrame j lt).pos)
    · rcases List.mem_cons.mp mem with rfl | mem
      · exact absurd inside here
      · obtain ⟨j, _, rfl⟩ := inside
        rw [outside _ rfl here]
        exact loading.mapped a mem _ ⟨j, ‹_›, rfl⟩
  · obtain ⟨a, mem, covers⟩ := covers_kernel.mpr ⟨b, lt, inside⟩
    rw [outside v inside.length fun here =>
      apart a (List.mem_append_right _ mem) v here covers]
    exact loading.kernel b lt v inside
  · rw [slots, fresh.trees k p ne short]
    exact loading.others k p short ne
  · have page := pageOf_or (fresh.isFrame k lt).aligned (pageFlags_lt prot user)
    rw [slots, bytes, fresh.here k lt, page]
    exact fresh.zeroed k lt _ (Nat.le_add_right _ _) (Nat.add_lt_add_left small _)
  · have same : t'.slot mm (pageAt a.1 k) = t.slot mm (pageAt a.1 k) := by
      apply outside _ (pageAt_length a.1 k)
      exact fun here => apart a (List.mem_append_left _ mem) _ here ⟨k, lt, rfl⟩
    rw [same, bytes, ← holds k lt o small]
    exact fresh.pages _ (loading.pageFrame mem lt) _ (Nat.le_add_right _ _)
      (Nat.add_lt_add_left small _)

/-- The same of a call that returned. -/
theorem anonMmap (loading : Loading rs s t own mm done) (met : ¬ t.ranOut = true)
    (unowned : ∀ v, ¬ own mm v)
    (apart : ∀ b ∈ done ++ kernelRanges, ∀ v, Covers (start, n) v → ¬ Covers b v)
    (ran : Mm.anonMmap rs mm start n prot user t = .ok ((), t')) (met' : ¬ t'.ranOut = true) :
    Loading rs s t' own mm ((start, n) :: done) := by
  obtain ⟨aligned, few⟩ := anonMmap_returned ran
  exact ((loading.anonMmap_runs met (fun v _ => unowned v) apart aligned few).safe ran met').1

/-- `mm_copy_from_buf` into a range: the bytes of the buffer come first, and the other ranges hold
what they held. -/
theorem copyFromBuf_runs {buf : Bytes} {len : Nat}
    (loading : Loading rs s t own mm ((start, n) :: done)) (met : ¬ t.ranOut = true)
    (aligned : start % pageSize = 0) (few : n ≤ 2 ^ 19) (fits : len ≤ n * pageSize)
    (apart : ∀ b ∈ done, ∀ v, Covers (start, n) v → ¬ Covers b v) :
    Runs (meter rs) (mmCopyFromBuf mm buf start len) 0 t fun _ t' =>
      Loading rs s t' own mm ((start, n) :: done) ∧
        (Holds t mm (start, n) (fun _ => 0) →
          Holds t' mm (start, n) fun i => if i < len then buf i else 0) ∧
        ∀ a ∈ done, ∀ image, Holds t mm a image → Holds t' mm a image := by
  have owned : ∀ k < n, withRanges own mm ((start, n) :: done) mm (pageAt start k) := fun k lt =>
    .inr ⟨rfl, _, .head _, k, lt, rfl⟩
  have there : ∀ k < n, t.slot mm (pageAt start k) ≠ 0 := fun k lt =>
    loading.mapped _ (.head _) _ ⟨k, lt, rfl⟩
  refine (mmCopyFromBuf_pours loading.tables met aligned few fits owned there).imp ?_
  intro _ t' poured
  have slots : ∀ v, v.length = 4 → t'.slot mm v = t.slot mm v := fun v long =>
    poured.slots mm v (Nat.le_of_eq long)
  refine ⟨⟨poured.tables, fun a mem v inside => ?_, fun b lt v inside => ?_,
    fun k p short ne => ?_⟩, fun zeros k lt o small => ?_, fun a mem image holds k lt o small => ?_⟩
  · obtain ⟨j, lt, rfl⟩ := inside
    rw [slots _ (pageAt_length _ _)]
    exact loading.mapped a mem _ ⟨j, lt, rfl⟩
  · rw [slots v inside.length]
    exact loading.kernel b lt v inside
  · rw [poured.slots k p short]
    exact loading.others k p short ne
  · have rounded : min len ((len + pageSize - 1) / pageSize * pageSize) = len := by
      simp only [pageSize]
      omega
    have byte := poured.bytes k lt o small
    rw [rounded, zeros k lt o small] at byte
    rw [slots _ (pageAt_length _ _)]
    exact byte
  · rw [slots _ (pageAt_length _ _), ← holds k lt o small]
    have other : ∀ j < n, pageOf (t.slot mm (pageAt a.1 k)) ≠ pageOf (t.slot mm (pageAt start j)) :=
      fun j less => loading.tables.page_ne (pageAt_length _ _) (pageAt_length _ _)
        (.inr ⟨rfl, a, .tail _ mem, k, lt, rfl⟩) (owned j less)
        (loading.mapped a (.tail _ mem) _ ⟨k, lt, rfl⟩) (there j less)
        fun same => apart a mem _ ⟨j, less, rfl⟩ ⟨k, lt, same.2.symm⟩
    exact poured.kept _ (loading.pageFrame (.tail _ mem) lt) other _ (Nat.le_add_right _ _)
      (Nat.add_lt_add_left small _)

/-- `map_segment` of a header that fits. -/
theorem mapSegment_runs {ph : Elf64Phdr} (loading : Loading rs s t own mm done)
    (met : ¬ t.ranOut = true) (unowned : ∀ v, ¬ own mm v)
    (apart : ∀ b ∈ done ++ kernelRanges, ∀ v, Covers (ph.mapAddr, ph.memPages) v → ¬ Covers b v)
    (few : ph.memPages ≤ 2 ^ 19) (fits : ph.fileBytes ≤ ph.memPages * pageSize) :
    Runs (meter rs) (Fs.mapSegment rs mm elf ph) (ph.memPages * 5) t fun _ t' =>
      Loading rs s t' own mm ((ph.mapAddr, ph.memPages) :: done) ∧
        Holds t' mm (ph.mapAddr, ph.memPages) (segmentImage elf ph) ∧
        ∀ a ∈ done, ∀ image, Holds t mm a image → Holds t' mm a image := by
  have aligned := ph.mapAddr_aligned
  have mapped : Runs (meter rs) (anonMmapUser rs mm ph.mapAddr ph.memPages pageProtRead)
      (ph.memPages * 5) t _ := loading.anonMmap_runs met (fun v _ => unowned v) apart aligned few
  refine .bind (k := 0) (mapped.imp ?_) fun _ => sticky_mmCopyFromBuf ofFrames_meter
  rintro _ u ⟨mapped, zeros, kept⟩ met'
  refine (mapped.copyFromBuf_runs met' aligned few fits
    fun b mem => apart b (List.mem_append_left _ mem)).imp ?_
  rintro _ t' ⟨copied, filled, kept'⟩
  exact ⟨copied, filled zeros, fun a mem image holds => kept' a mem image (kept a mem image holds)⟩

end Loading

theorem mem_segments {i : Nat} (lt : i < n) (load : (phArr elf i).pType = ptLoad) :
    ((phArr elf i).mapAddr, (phArr elf i).memPages) ∈ segments elf n := by
  induction n with
  | zero => exact absurd lt (Nat.not_lt_zero i)
  | succ n ih =>
    rw [segments]
    rcases Nat.lt_succ_iff_lt_or_eq.mp lt with less | rfl
    · exact List.mem_append_right _ (ih less)
    · rw [segmentOf, if_pos load]
      exact .head _

/-- How many frames the loop of `exec_elf` may draw: for every page its own and four tables. -/
def framesFor (ranges : List (Nat × Nat)) : Nat := (ranges.map fun a => a.2 * 5).sum

/-- The loop of `exec_elf`, on a file whose ranges share no page. -/
theorem Loading.segments_runs (loading : Loading rs s s own mm []) (met : ¬ s.ranOut = true)
    (unowned : ∀ v, ¬ own mm v) (apart : Apart (Fs.segments elf n ++ kernelRanges))
    (few : ∀ i < n, (phArr elf i).pType = ptLoad → (phArr elf i).memPages ≤ 2 ^ 19)
    (fits : ∀ i < n, (phArr elf i).pType = ptLoad →
      (phArr elf i).fileBytes ≤ (phArr elf i).memPages * pageSize) :
    Runs (meter rs) (forTo n (loadSegment rs mm elf)) (framesFor (Fs.segments elf n)) s fun _ t =>
      Loading rs s t own mm (Fs.segments elf n) ∧
        ∀ i < n, (phArr elf i).pType = ptLoad →
          Holds t mm ((phArr elf i).mapAddr, (phArr elf i).memPages)
            (segmentImage elf (phArr elf i)) := by
  induction n with
  | zero => exact .pure met ⟨loading, fun i lt => absurd lt (Nat.not_lt_zero i)⟩
  | succ n ih =>
    rw [Fs.segments, List.append_assoc] at apart
    have before := ih (List.pairwise_append.mp apart).2.1 (fun i lt => few i (Nat.lt_succ_of_lt lt))
      fun i lt => fits i (Nat.lt_succ_of_lt lt)
    have budget : framesFor (Fs.segments elf (n + 1)) =
        framesFor (Fs.segments elf n) + framesFor (segmentOf elf n) := by
      rw [Fs.segments, framesFor, List.map_append, List.sum_append, Nat.add_comm]
      rfl
    rw [budget]
    refine .bind (before.imp ?_) fun _ => sticky_loadSegment
    rintro _ u ⟨earlier, held⟩ met'
    rw [loadSegment, Fs.segments]
    rw [segmentOf] at apart ⊢
    split
    · rename_i load
      rw [if_pos load] at apart
      have mapped : Runs (meter rs) (Fs.mapSegment rs mm elf (phArr elf n)) _ u _ :=
        earlier.mapSegment_runs met' unowned (List.pairwise_cons.mp apart).1
          (few n (Nat.lt_succ_self n) load) (fits n (Nat.lt_succ_self n) load)
      refine mapped.imp ?_
      rintro _ t ⟨later, holds, kept⟩
      refine ⟨later, fun i lt loads => ?_⟩
      rcases Nat.lt_succ_iff_lt_or_eq.mp lt with less | rfl
      · exact kept _ (mem_segments less loads) _ (held i less loads)
      · exact holds
    · rename_i other
      refine .pure met' ⟨earlier, fun i lt loads => ?_⟩
      rcases Nat.lt_succ_iff_lt_or_eq.mp lt with less | rfl
      · exact held i less loads
      · exact absurd loads other

/-- The same of a loop that returned. -/
theorem Loading.segments (loading : Loading rs s s own mm [])
    (unowned : ∀ v, ¬ own mm v) (apart : Apart (Fs.segments elf n ++ kernelRanges))
    (fits : ∀ i < n, (phArr elf i).pType = ptLoad →
      (phArr elf i).fileBytes ≤ (phArr elf i).memPages * pageSize)
    (ran : forTo n (loadSegment rs mm elf) s = .ok ((), t)) (met' : ¬ t.ranOut = true) :
    Loading rs s t own mm (Fs.segments elf n) := by
  have sticky : Sticky (meter rs) (forTo n (loadSegment rs mm elf)) :=
    .forTo fun _ => sticky_loadSegment
  have met : ¬ s.ranOut = true := fun out => met' (sticky s _ t ran out)
  have runs := loading.segments_runs met unowned apart
    (fun i lt load => segments_returned ran lt load) fits
  exact (runs.safe ran met').1

/-! ## The law -/

/-- The kernel's pages in the space `mm` have the entries of `kernel_mm`, which are what they were,
and none is for user mode. -/
structure KernelKept (s s' : Vmm) (mm : Nat) : Prop where
  space : ∀ a < 3, ∀ virt, (s.vmas a).Has virt → s'.leafEntry mm virt = s.leafEntry 0 virt
  kernel : ∀ a < 3, ∀ virt, (s.vmas a).Has virt → s'.leafEntry 0 virt = s.leafEntry 0 virt
  user : ∀ a < 3, ∀ virt, (s.vmas a).Has virt → s'.leafEntry mm virt &&& pageUser = 0

section Law

variable {lists areas : Nat → List Nat} {new : Nat} (spaces : Spaces rs s lists areas)
  (ran : execElf rs elf s = .ok (new, s')) (met' : ¬ s'.ranOut = true)

include spaces ran met'

/-- The state between `mm_new` and the loop. -/
theorem execElf_born : ∃ s₁ t, Born rs s s₁ lists areas ∧ new = s.nmms ∧ s₁.Live new ∧
    ¬ s₁.ranOut = true ∧ ¬ t.ranOut = true ∧
    forTo (ePhnum elf) (loadSegment rs new elf) s₁ = .ok ((), t) ∧
    anonMmapUser rs new userStackBase userStackPages (pageProtRead ||| pageProtWrite) t =
      .ok ((), s') := by
  obtain ⟨s₁, t, ⟨made, loaded, stack⟩, met, met₁, metT⟩ := execElf_stages ran met'
  obtain ⟨rfl, born⟩ := (mmNew_runs spaces met).safe made met₁
  have live : s₁.Live s.nmms := (born.live_iff spaces).mpr (.inr rfl)
  exact ⟨s₁, t, born, rfl, live, met₁, metT, loaded, stack⟩

/-- The areas share no page exactly when the ranges share none. -/
theorem execElf_apart_iff : AreasApart s' new ↔ Apart (userRanges elf ++ kernelRanges) := by
  obtain ⟨s₁, t, born, rfl, live, _, _, loaded, stack⟩ := execElf_born spaces ran met'
  obtain ⟨lis, listing⟩ := execElf_listing born.spaces live (Function.update_self _ _ _) loaded stack
  exact listing.apart_iff

/-- The kernel's pages, when they share none and the files fit. -/
theorem execElf_kernel (apart : Apart (userRanges elf ++ kernelRanges)) (fits : FileFits elf) :
    KernelKept s s' new := by
  obtain ⟨s₁, t, born, rfl, live, met₁, metT, loaded, stack⟩ := execElf_born spaces ran met'
  have nonzero : (0 : Nat) ≠ s.nmms := Nat.ne_of_lt spaces.kernel.named.1
  have unowned : ∀ v, ¬ owns s₁ (Function.update areas s.nmms []) s.nmms v :=
    fun _ => owns_new nonzero (Function.update_self _ _ _)
  have start : Loading rs s₁ s₁ (owns s₁ (Function.update areas s.nmms [])) s.nmms [] :=
    .bare born.spaces.tables
  rw [userRanges, List.cons_append, Apart, List.pairwise_cons] at apart
  have loading := start.segments unowned apart.2 fits loaded metT
  have done := loading.anonMmap metT unowned apart.1 stack met'
  have entry : ∀ a < 3, ∀ virt, (s.vmas a).Has virt → s.slot 0 (pathOf virt) ≠ 0 ∧
      s.slot 0 (pathOf virt) % pageSize = 3 ∧ s.leafEntry 0 virt = s.slot 0 (pathOf virt) ∧
      s'.leafEntry s.nmms virt = s.slot 0 (pathOf virt) ∧
      s'.leafEntry 0 virt = s.slot 0 (pathOf virt) := by
    intro a static virt has
    obtain ⟨inside, there, flags⟩ := spaces.kernel.entry static has
    have old : s₁.slot 0 (pathOf virt) = s.slot 0 (pathOf virt) :=
      born.slots 0 _ (pathOf_length virt).le nonzero
    have here : s'.slot s.nmms (pathOf virt) = s.slot 0 (pathOf virt) := by
      rw [done.kernel a static _ inside,
        (born.spaces.space _ live).kernel a static _ inside, old]
    have kernel : s'.slot 0 (pathOf virt) = s.slot 0 (pathOf virt) := by
      rw [done.others 0 _ (pathOf_length virt).le nonzero, old]
    refine ⟨there, flags, leafEntry_eq spaces.tables.layout virt there, ?_, ?_⟩
    · rw [leafEntry_eq done.tables.layout virt (by rwa [here]), here]
    · rw [leafEntry_eq done.tables.layout virt (by rwa [kernel]), kernel]
  refine ⟨fun a static virt has => ?_, fun a static virt has => ?_, fun a static virt has => ?_⟩
  · obtain ⟨_, _, old, here, _⟩ := entry a static virt has
    rw [here, old]
  · obtain ⟨_, _, old, _, kernel⟩ := entry a static virt has
    rw [kernel, old]
  · obtain ⟨_, flags, _, here, _⟩ := entry a static virt has
    rw [here, and_flags (by decide), flags]
    rfl

end Law

/-- **Executables and the layout.** Whatever a file holds: the areas of the space that `exec_elf`
makes share no page exactly when the ranges that the file asks for share none with each other, with
the stack and with the kernel's. Then, if the file's bytes fit their pages, the kernel's pages are
what they were. -/
theorem execElf_layout (rs : RegionTable) (m : Bytes) (s₀ s s' : Vmm) (elf : Bytes) (new : Nat)
    (booted : kernelMmInit rs 0 (Vmm.boot rs m) = .ok ((), s₀))
    (reached : Reach (Vmm.step rs) (Vmm.Permitted rs) s₀ s)
    (ran : execElf rs elf s = .ok (new, s')) (met : s'.ranOut = false) :
    (AreasApart s' new ↔ Apart (userRanges elf ++ kernelRanges)) ∧
      (FileFits elf →
        (AreasApart s' new ∧ KernelKept s s' new ↔ Apart (userRanges elf ++ kernelRanges))) := by
  have met' : ¬ s'.ranOut = true := ne_true_of_eq_false met
  obtain ⟨_, _, _, start, _⟩ := execElf_stages ran met'
  obtain ⟨lists, areas, spaces⟩ := spaces_of_permitted booted reached start
  have iff := execElf_apart_iff spaces ran met'
  refine ⟨iff, fun fits => ⟨fun both => iff.mp both.1, fun apart => ⟨iff.mpr apart, ?_⟩⟩⟩
  exact execElf_kernel spaces ran met' apart fits

/-- A file with one page in the user half: `exec_elf` completes, and the layout is kept. -/
theorem execElf_layout_user : ∃ s₀ s' new,
    kernelMmInit wideTable 0 (Vmm.boot wideTable fun _ => 0) = .ok ((), s₀) ∧
      execElf wideTable (elfOf (fun _ => 0) 0x400000 0x1000 0x1000) s₀ = .ok (new, s') ∧
      s'.ranOut = false ∧ AreasApart s' new ∧ KernelKept s₀ s' new := by
  obtain ⟨s₀, booted, met₀, left₀, spaces₀, _⟩ := wide_booted
  obtain ⟨user, fits, small⟩ := elfOf_user (fun _ => 0)
  obtain ⟨new, s', ran, met', _⟩ := (execElf_runs spaces₀ met₀ user fits (by decide) small).total
    (by rw [(elfOf_header _ _ _ _ (by decide) (by decide) (by decide)).1]; omega)
  have met : s'.ranOut = false := Bool.eq_false_of_not_eq_true met'
  have law := execElf_layout wideTable (fun _ => 0) s₀ s₀ s' _ new booted .start ran met
  exact ⟨s₀, s', new, booted, ran, met, (law.2 fits).mpr user.apart_kernel⟩

/-- A file with one page at the address of the kernel text: `exec_elf` completes, and two areas of
the space share a page. -/
theorem execElf_overlaps : ∃ s₀ s' new,
    kernelMmInit wideTable 0 (Vmm.boot wideTable fun _ => 0) = .ok ((), s₀) ∧
      execElf wideTable (elfOf (fun _ => 0) kernelTextBase 0 0x1000) s₀ = .ok (new, s') ∧
      ¬ AreasApart s' new := by
  obtain ⟨s₀, booted, met₀, left₀, spaces₀, _⟩ := wide_booted
  obtain ⟨mm, s₁, made, met₁, _, rfl, born⟩ := (mmNew_runs spaces₀ met₀).total (by omega)
  have live : s₁.Live s₀.nmms := (born.live_iff spaces₀).mpr (.inr rfl)
  obtain ⟨count, header⟩ := elfOf_header (fun _ => 0) kernelTextBase 0 0x1000 (by decide) (by decide)
    (by decide)
  generalize elfOf (fun _ => 0) kernelTextBase 0 0x1000 = elf at count header ⊢
  have few : ∀ i < ePhnum elf, (phArr elf i).memPages ≤ 2 ^ 19 := by
    intro i lt
    rw [count, Nat.lt_one_iff] at lt
    rw [lt, header]
    decide
  obtain ⟨_, t, loaded⟩ := Returns.forTo (fun i lt => returns_loadSegment (few i lt)) s₁
  obtain ⟨_, s', stack⟩ := returns_anonMmap s₀.nmms _ true (by decide : userStackBase % pageSize = 0)
    (by decide : userStackPages ≤ 2 ^ 19) t
  have ran : execElf wideTable elf s₀ = .ok (s₀.nmms, s') := Budget.bind_eq_ok.mpr ⟨_, s₁, made,
    Budget.bind_eq_ok.mpr ⟨_, t, loaded, Budget.bind_eq_ok.mpr ⟨_, s', stack, rfl⟩⟩⟩
  obtain ⟨lis, listing⟩ := execElf_listing born.spaces live (Function.update_self _ _ _) loaded stack
  refine ⟨s₀, s', s₀.nmms, booted, ran, fun apart => ?_⟩
  have ranges : userRanges elf = [(userStackBase, userStackPages), (kernelTextBase, 1)] :=
    userRanges_of_one count header rfl
  have pairwise := listing.apart_iff.mp apart
  rw [ranges, Apart, List.cons_append, List.pairwise_cons, List.cons_append, List.pairwise_cons]
    at pairwise
  exact pairwise.2.1 (kernelTextBase, 512) (.tail _ (.tail _ (.head _))) _ ⟨0, by decide, rfl⟩
    ⟨0, by decide, rfl⟩

end Blackcomb.Fs
