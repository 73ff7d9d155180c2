import Blackcomb.Laws.Mm.Mapping

/-!
# Page ranges

The loops of `vmm.c` over the pages of an area: mapping fresh frames, sharing another space's pages,
unmapping with and without freeing the frames, and copying between two spaces. Each round edits the
slot of one page, and a range has a page once, so what a loop does is said of all its pages at once.

For each loop there is a predicate on the state after `n` rounds (`Fresh`, `Shared`, `Repaged`,
`Reclaimed`, `Copied`, `Poured`), a lemma for one round and one for all. They are what `Mmap`,
`MmNew`, `Teardown` and `Fork` put together.

**What it does not establish.** No list of areas occurs here; which ranges belong to a space is
decided above.
-/

namespace Blackcomb.Mm

open Memory Run Budget Ownership

variable {rs : RegionTable} {s s' s₁ s₂ t t' : Vmm} {own keep : Nat → Path → Prop}
  {spare : Option Nat} {mm src dst start k n f g e flags : Nat} {v w : Path} {val : Nat → Nat}

/-! ## Addresses and paths -/

/-- Two addresses have the same path when they agree on the bits 12 to 47. -/
theorem pathOf_eq_iff {x y : Nat} :
    pathOf x = pathOf y ↔ x / 4096 % 2 ^ 36 = y / 4096 % 2 ^ 36 := by
  simp only [pathOf, p1Ndx, p2Ndx, p3Ndx, p4Ndx, List.cons.injEq, and_true, Fin.ext_iff,
    Fin.val_ofNat, Nat.shiftRight_eq_div_pow]
  omega

/-- The path of page `k` of a range. -/
def pageAt (start k : Nat) : Path := pathOf (add64 start (k * pageSize))

theorem pageAt_length (start k : Nat) : (pageAt start k).length = 4 := rfl

/-- A range of pages that does not wrap around, small enough for an `int` offset. -/
structure Range (start pages : Nat) : Prop where
  aligned : start % pageSize = 0
  fits : start + pages * pageSize ≤ 2 ^ 64
  small : pages ≤ 2 ^ 19

/-- Within a range the addresses of its pages do not wrap. -/
theorem Range.add64_eq (range : Range start n) (lt : k < n) :
    add64 start (k * pageSize) = start + k * pageSize := by
  have := range.fits
  simp only [add64, pageSize] at *
  rw [Nat.mod_eq_of_lt]
  omega

/-- Pages have the same path when their numbers agree on 36 bits, also across a wrap-around. -/
theorem pageAt_eq_iff {start' k' : Nat} : pageAt start k = pageAt start' k' ↔
    (start / 4096 + k) % 2 ^ 36 = (start' / 4096 + k') % 2 ^ 36 := by
  rw [pageAt, pageAt, pathOf_eq_iff]
  simp only [add64, pageSize]
  omega

/-- A range has a page once. -/
theorem pageAt_inj {k' : Nat} (few : n ≤ 2 ^ 19) (lt : k < n) (lt' : k' < n)
    (same : pageAt start k = pageAt start k') : k = k' := by
  rw [pageAt_eq_iff] at same
  omega

/-- Below `2^19` the byte offset of a page fits an `int`. -/
theorem intOffset_eq (lt : k < 2 ^ 19) : intOffset k s = .ok (k * pageSize, s) := by
  unfold intOffset
  rw [if_pos (by simp only [pageSize]; omega)]
  rfl

/-- A check that is not met lets the call go on. -/
theorem panicIf_eq {c : Prop} [Decidable c] {msg : String} (unmet : ¬ c) :
    panicIf c msg s = .ok ((), s) := by
  unfold panicIf
  rw [if_neg unmet]
  rfl

/-- Looking up a mapped page reads the entry of its path. -/
theorem leafEntry_eq (layout : Layout rs s) (virt : Nat) (there : s.slot mm (pathOf virt) ≠ 0) :
    s.leafEntry mm virt = s.slot mm (pathOf virt) :=
  layout.getEntry_eq (Radix.slot_above there)

/-! ## Rounds -/

/-- The entries of `n` pages of a range were set, the bytes of the pages in `keep` stay. -/
structure Repaged (s s' : Vmm) (keep : Nat → Path → Prop) (mm start n : Nat) (val : Nat → Nat) :
    Prop extends Kept s s' keep none mm where
  here : ∀ k < n, s'.slot mm (pageAt start k) = val k
  others : ∀ j v, v.length = 4 → ¬ (j = mm ∧ ∃ k < n, v = pageAt start k) →
    s'.slot j v = s.slot j v

namespace Repaged

theorem refl (s : Vmm) : Repaged s s keep mm start 0 val :=
  ⟨⟨fun _ _ _ _ _ => rfl, .refl s, fun _ _ _ _ => rfl⟩, fun _ lt => absurd lt (Nat.not_lt_zero _),
    fun _ _ _ _ => rfl⟩

/-- The pages that are kept are where they were. -/
theorem page (done : Repaged s t keep mm start n val) (apart : ∀ k < n, ¬ keep mm (pageAt start k))
    (page : PageFrame s keep none g) : PageFrame t keep none g := by
  rcases page with free | ⟨j, v, long, keeps, there, frame⟩
  · cases free
  · have other : ¬ (j = mm ∧ ∃ k < n, v = pageAt start k) := by
      rintro ⟨rfl, k, lt, rfl⟩
      exact apart k lt keeps
    refine .inr ⟨j, v, long, keeps, ?_⟩
    rw [done.others j v long other]
    exact ⟨there, frame⟩

/-- One more page. -/
theorem round (few : n ≤ 2 ^ 19) (lt : k < n) (done : Repaged s t keep mm start k val)
    (apart : ∀ j < n, ¬ keep mm (pageAt start j))
    (step : Remapped t t' own spare mm (pageAt start k) (val k))
    (sub : ∀ g, PageFrame t keep none g → PageFrame t own spare g) :
    Repaged s t' keep mm start (k + 1) val := by
  refine ⟨⟨fun g page a low high => ?_, done.records.trans step.records, fun j p ne short => ?_⟩,
    fun j le => ?_, fun j v long other => ?_⟩
  · have there := done.page (fun j lt' => apart j (by omega)) page
    rw [step.pages g (sub g there) a low high, done.pages g page a low high]
  · rw [step.trees j p ne short, done.trees j p ne short]
  · by_cases last : j = k
    · rw [last]
      exact step.here
    · rw [step.others mm _ (pageAt_length start j), done.here j (by omega)]
      intro same
      exact last (pageAt_inj few (by omega) lt same.2)
  · rw [step.others j v long, done.others j v long]
    · rintro ⟨rfl, i, lt', rfl⟩
      exact other ⟨rfl, i, by omega, rfl⟩
    · rintro ⟨rfl, rfl⟩
      exact other ⟨rfl, k, Nat.lt_succ_self k, rfl⟩

/-- Only the values of the pages done so far matter. -/
theorem congr {val' : Nat → Nat} (done : Repaged s t keep mm start n val)
    (same : ∀ k < n, val' k = val k) : Repaged s t keep mm start n val' :=
  ⟨done.toKept, fun k lt => (done.here k lt).trans (same k lt).symm, done.others⟩

end Repaged

/-! ## A frame in hand -/

/-- Where the slots stay, so do the holders but the operation. -/
theorem held_congr {r : Role} {spare' : Option Nat}
    (same : ∀ k p, p.length ≤ 4 → s'.slot k p = s.slot k p) (some : r ≠ none) :
    held s' own spare' r = held s own spare r := by
  cases r with
  | none => exact absurd rfl some
  | some path =>
    obtain ⟨j, p⟩ := path
    by_cases short : p.length ≤ 4
    · ext f
      rw [held_eq_some, held_eq_some, same j p short]
    · have long : ¬ p.length ≤ 3 ∧ ¬ p.length = 4 := by omega
      simp [held, long.1, long.2]

/-- Tables without empty ones stay so while the entries are kept. -/
theorem Tight.congr {hole : Role} (tight : Tight s hole)
    (same : ∀ k p, p.length ≤ 4 → s'.slot k p = s.slot k p) : Tight s' hole := by
  intro j p short ne there
  rw [same j p (by omega)] at there
  obtain ⟨i, below⟩ := tight j p short ne there
  refine ⟨i, ?_⟩
  rwa [same j (i :: p) (by simp only [List.length_cons]; omega)]

/-- `pmm_alloc` puts a frame into the operation's hands. -/
theorem Tables.alloc (tables : Tables rs s own none none) (alloced : Alloced rs s f s') :
    Quiet s s' own none mm ∧ Tables rs s' own (some f) none := by
  have same : ∀ k p, p.length ≤ 4 → s'.slot k p = s.slot k p := fun k p =>
    tables.slot_alloced alloced
  have mms : s'.mms = s.mms := by rw [alloced.state]
  refine ⟨⟨⟨fun g page => ?_, alloced.records, fun k p _ => same k p⟩, fun k v long => same k v (Nat.le_of_eq long)⟩,
    alloced.inv, ?_, fun k => ?_, tables.tight.congr same⟩
  · exact alloced.kept g (page.frame tables) fun eq => alloced.fresh (eq ▸ page.mem tables)
  · rw [alloced.taken]
    exact tables.exclusive.gain (r := none) alloced.fresh rfl (fun r path => held_congr same path) rfl
  · rw [mms]
    exact tables.root k

/-- `pmm_free` takes it back. -/
theorem Tables.release (tables : Tables rs s own (some f) none) (freed : Freed rs s f s') :
    Quiet s s' own none mm ∧ Tables rs s' own none none := by
  have same : ∀ k p, p.length ≤ 4 → s'.slot k p = s.slot k p := fun k p => tables.slot_freed freed
  have mms : s'.mms = s.mms := by rw [freed.state]
  refine ⟨⟨⟨fun g page => ?_, freed.records, fun k p _ => same k p⟩, fun k v long => same k v (Nat.le_of_eq long)⟩,
    freed.inv, ?_, fun k => ?_, tables.tight.congr same⟩
  · rcases page with free | page
    · cases free
    · exact freed.kept g (PageFrame.frame (.inr page) tables)
  · rw [freed.taken]
    exact tables.exclusive.lose (r := none) tables.frames.nodup rfl
      (fun r path => held_congr same path) rfl
  · rw [mms]
    exact tables.root k

/-! ## The loops -/

/-- The set of owned pages with the first `n` of a range. -/
def withPages (own : Nat → Path → Prop) (mm start n : Nat) : Nat → Path → Prop :=
  fun k w => own k w ∨ k = mm ∧ ∃ j < n, w = pageAt start j

/-- The set of owned pages without the first `n` of a range. -/
def withoutPages (own : Nat → Path → Prop) (mm start n : Nat) : Nat → Path → Prop :=
  fun k w => own k w ∧ ¬ (k = mm ∧ ∃ j < n, w = pageAt start j)

/-- No pages more is the same pages. -/
theorem withPages_zero : withPages own mm start 0 = own := by
  funext k w
  simp [withPages]

/-- No pages fewer is the same pages. -/
theorem withoutPages_zero : withoutPages own mm start 0 = own := by
  funext k w
  simp [withoutPages]

/-- One page more is claimed after the pages before it. -/
theorem withPages_succ : withPage (withPages own mm start n) mm (pageAt start n) =
    withPages own mm start (n + 1) := by
  funext k w
  simp only [withPage, withPages, Nat.lt_succ_iff_lt_or_eq, or_and_right, exists_or,
    exists_eq_left, and_or_left, or_assoc]

/-- One page fewer is given up after the pages before it. -/
theorem withoutPages_succ : withoutPage (withoutPages own mm start n) mm (pageAt start n) =
    withoutPages own mm start (n + 1) := by
  funext k w
  simp only [withoutPage, withoutPages, Nat.lt_succ_iff_lt_or_eq, or_and_right,
    exists_or, exists_eq_left, and_or_left, not_or, and_assoc]

/-- What a loop of `mapFresh` did: each page has a frame of its own, which was free, zeroed. -/
structure Fresh (rs : RegionTable) (s s' : Vmm) (own : Nat → Path → Prop) (mm start n flags : Nat)
    (frame : Nat → Nat) : Prop extends
    Repaged s s' own mm start n (fun k => frame k ||| flags) where
  tables : Tables rs s' (withPages own mm start n) none none
  grows : s.frames.taken ⊆ s'.frames.taken
  isFrame : ∀ k < n, IsFrame rs (frame k)
  fresh : ∀ k < n, frame k ∉ s.frames.taken
  zeroed : ∀ k < n, ∀ a, frame k ≤ a → a < frame k + pageSize → s'.frames.mem a = 0

theorem sticky_panicIf {M : Meter Vmm} {c : Prop} [Decidable c] {msg : String} :
    Sticky M (panicIf c msg) :=
  .ite (.throw _) (.pure _)

theorem sticky_intOffset {M : Meter Vmm} : Sticky M (intOffset k) :=
  .ite (.pure _) (.throw _)

theorem sticky_mapFresh {M : Meter Vmm} [frames : OfFrames rs M] :
    Sticky M (mapFresh rs mm start flags k) :=
  .bind sticky_intOffset fun _ => .bind frames.alloc fun _ => sticky_vmmMapPage

/-- More claims keep the frames behind the pages claimed before. -/
theorem PageFrame.mono {own' : Nat → Path → Prop} (page : PageFrame s own none g)
    (sub : ∀ k v, own k v → own' k v) : PageFrame s own' spare g := by
  rcases page with free | ⟨k, v, long, owns, rest⟩
  · cases free
  · exact .inr ⟨k, v, long, sub k v owns, rest⟩

/-- Keeping more pages is keeping fewer. -/
theorem Remapped.mono {own' : Nat → Path → Prop} (remapped : Remapped s s' own spare mm v e)
    (sub : ∀ k v, own' k v → own k v) : Remapped s s' own' none mm v e :=
  ⟨⟨fun g page => remapped.pages g (page.mono sub), remapped.records, remapped.trees⟩,
    remapped.here, remapped.others⟩

/-- Each fresh page has the frame that was taken for it. -/
theorem Fresh.pageFrame {frame : Nat → Nat} (done : Fresh rs s t own mm start n flags frame)
    (small : flags < pageSize) (lt : k < n) :
    PageFrame t (withPages own mm start n) spare (frame k) := by
  have aligned := (done.isFrame k lt).aligned
  refine .inr ⟨mm, pageAt start k, pageAt_length start k, .inr ⟨rfl, k, lt, rfl⟩, ?_⟩
  rw [done.here k lt]
  exact ⟨or_ne_zero (Nat.ne_of_gt (done.isFrame k lt).pos), pageOf_or aligned small⟩

/-- The frames of a loop that has one more. -/
theorem forall_lt_update {P : Nat → Nat → Prop} {frame : Nat → Nat} {f : Nat}
    (before : ∀ j < k, P j (frame j)) (now : P k f) : ∀ j < k + 1, P j (Function.update frame k f j) := by
  intro j le
  rcases Nat.lt_succ_iff_lt_or_eq.mp le with less | rfl
  · rw [Function.update_of_ne (Nat.ne_of_lt less)]
    exact before j less
  · rw [Function.update_self]
    exact now

/-- One round of a loop that allocates pages. -/
theorem mapFresh_round {frame : Nat → Nat} (few : n ≤ 2 ^ 19) (lt : k < n)
    (small : flags < pageSize) (free : ∀ j < n, ¬ own mm (pageAt start j)) (met : ¬ t.ranOut = true)
    (done : Fresh rs s t own mm start k flags frame) :
    Runs (meter rs) (mapFresh rs mm start flags k) 5 t fun _ t' =>
      ∃ frame, Fresh rs s t' own mm start (k + 1) flags frame := by
  have unmapped : ¬ withPages own mm start k mm (pageAt start k) := by
    rintro (owned | ⟨_, j, less, same⟩)
    · exact free k lt owned
    · have := pageAt_inj few lt (by omega) same
      omega
  unfold mapFresh
  refine .step (intOffset_eq (by omega)) (Nat.le_refl _) ?_
  refine .bind (n := 1) (k := 4) ((allocFrame_runs done.tables.frames met).imp ?_)
    fun _ => sticky_vmmMapPage
  intro f t₁ alloced met₁
  obtain ⟨quiet, tables₁⟩ := done.tables.alloc alloced
  refine (vmmMapPage_owned tables₁ met₁ small unmapped).imp ?_
  intro _ t₂ ⟨remapped, grows, tables₂⟩
  have before : ∀ j < k, Function.update frame k f j = frame j := fun j less =>
    Function.update_of_ne (Nat.ne_of_lt less) _ _
  have now : Function.update frame k f k = f := Function.update_self _ _ _
  have moved : Remapped t t₂ (withPages own mm start k) none mm (pageAt start k)
      (Function.update frame k f k ||| flags) := by
    rw [now]
    exact (remapped.mono fun _ _ owns => owns).after quiet
  have earlier : Repaged s t own mm start k (fun j => Function.update frame k f j ||| flags) := by
    apply done.toRepaged.congr
    intro j less
    rw [before j less]
  refine ⟨Function.update frame k f, ?_, ?_, ?_, ?_, ?_, ?_⟩
  · exact earlier.round few lt free moved fun g page => page.mono fun _ _ owns => Or.inl owns
  · rw [← withPages_succ]
    exact tables₂
  · exact fun g mem => grows (alloced.grows (done.grows mem))
  · exact forall_lt_update done.isFrame alloced.frame
  · exact forall_lt_update (P := fun _ g => g ∉ s.frames.taken) done.fresh
      fun mem => alloced.fresh (done.grows mem)
  · refine forall_lt_update
      (P := fun _ g => ∀ a, g ≤ a → a < g + pageSize → t₂.frames.mem a = 0) ?_ ?_
    · intro j less a low high
      rw [moved.pages _ (done.pageFrame small less) a low high]
      exact done.zeroed j less a low high
    · intro a low high
      rw [remapped.pages f (.inl rfl) a low high]
      exact alloced.zeroed a low high

/-- A loop that allocates pages. -/
theorem mapFresh_loop (tables : Tables rs s own none none) (met : ¬ s.ranOut = true)
    (few : n ≤ 2 ^ 19) (small : flags < pageSize)
    (free : ∀ j < n, ¬ own mm (pageAt start j)) :
    Runs (meter rs) (forTo n (mapFresh rs mm start flags)) (n * 5) s fun _ s' =>
      ∃ frame, Fresh rs s s' own mm start n flags frame := by
  refine .forTo (fun k t => ∃ frame, Fresh rs s t own mm start k flags frame) met
    ⟨fun _ => 0, .refl s, ?_, fun _ mem => mem, ?_, ?_, ?_⟩ (fun k lt t met ⟨frame, done⟩ => ?_)
    fun _ => sticky_mapFresh
  · rw [withPages_zero]
    exact tables
  · exact fun _ lt => absurd lt (Nat.not_lt_zero _)
  · exact fun _ lt => absurd lt (Nat.not_lt_zero _)
  · exact fun _ lt => absurd lt (Nat.not_lt_zero _)
  · exact mapFresh_round few lt small free met done

/-- What a loop that maps or unmaps pages of others did. -/
structure Shared (rs : RegionTable) (s s' : Vmm) (own : Nat → Path → Prop) (mm start n : Nat)
    (val : Nat → Nat) : Prop extends Repaged s s' own mm start n val where
  tables : Tables rs s' own none none

/-- Before the first round the range is as it was. -/
theorem Shared.refl (tables : Tables rs s own none none) : Shared rs s s own mm start 0 val :=
  ⟨.refl s, tables⟩

/-- The loop of `vmm_map_range`. -/
theorem mapRange_loop {phys : Nat} (tables : Tables rs s own none none) (met : ¬ s.ranOut = true)
    (range : Range start n) (frames : Range phys n) (small : flags < pageSize) (present : flags ≠ 0)
    (free : ∀ j < n, ¬ own mm (pageAt start j)) :
    Runs (meter rs) (forTo n fun pg => do
      let off ← intOffset pg
      vmmMapPage rs mm (add64 start off) (add64 phys off) flags) (n * 4) s fun _ s' =>
      Shared rs s s' own mm start n fun k => (phys + k * pageSize) ||| flags := by
  have bound := range.small
  refine .forTo (fun k t => Shared rs s t own mm start k fun k => (phys + k * pageSize) ||| flags) met
    (.refl tables) (fun k lt t met done => ?_) fun _ => .bind sticky_intOffset fun _ =>
    sticky_vmmMapPage
  refine .step (intOffset_eq (by omega)) (Nat.le_refl _) ?_
  have sum := frames.add64_eq lt
  have aligned : (phys + k * pageSize) % pageSize = 0 := by
    have := frames.aligned
    simp only [pageSize] at *
    omega
  have fits : (phys + k * pageSize) ||| flags < 2 ^ 64 := by
    have := frames.fits
    rw [or_eq_add aligned small]
    simp only [pageSize] at *
    omega
  have nonzero : (phys + k * pageSize) ||| flags ≠ 0 := fun zero =>
    present (Nat.or_eq_zero_iff.mp zero).2
  rw [sum]
  refine (vmmMapPage_shared done.tables met small fits nonzero (free k lt)).imp ?_
  rintro _ t' ⟨remapped, _, tables'⟩
  exact ⟨done.toRepaged.round range.small lt free remapped fun _ page => page, tables'⟩

/-- An entry that has the flags already. -/
theorem or_flags (small : flags < pageSize) (has : e % pageSize = flags) : e ||| flags = e := by
  have aligned : (e - flags) % pageSize = 0 := by
    simp only [pageSize] at *
    omega
  have parts : e = (e - flags) ||| flags := by
    rw [or_eq_add aligned small]
    simp only [pageSize] at *
    omega
  rw [parts, Nat.or_assoc, Nat.or_self]

/-- The loop of `mm_share_vma`. -/
theorem share_loop (tables : Tables rs s own none none) (met : ¬ s.ranOut = true) (ne : src ≠ dst)
    (range : Range start n) (small : flags < pageSize)
    (present : ∀ k < n, s.slot src (pageAt start k) ≠ 0)
    (flagged : ∀ k < n, s.slot src (pageAt start k) % pageSize = flags)
    (free : ∀ j < n, ¬ own dst (pageAt start j)) :
    Runs (meter rs) (forTo n fun pg => do
      let off ← intOffset pg
      let phys := (← get).leafEntry src (add64 start off)
      vmmMapPage rs dst (add64 start off) phys flags) (n * 4) s fun _ s' =>
      (Shared rs s s' own dst start n fun k => s.slot src (pageAt start k)) ∧
        s.frames.taken ⊆ s'.frames.taken := by
  have bound := range.small
  refine .forTo (fun k t => (Shared rs s t own dst start k fun k => s.slot src (pageAt start k)) ∧
      s.frames.taken ⊆ t.frames.taken) met
    ⟨.refl tables, fun _ mem => mem⟩ (fun k lt t met ⟨done, more⟩ => ?_) fun _ =>
    .bind sticky_intOffset fun _ => .bind .get fun _ => sticky_vmmMapPage
  refine .step (intOffset_eq (by omega)) (Nat.le_refl _) (.of_get ?_)
  have source : t.slot src (pageAt start k) = s.slot src (pageAt start k) :=
    done.others src _ (pageAt_length start k) fun same => ne same.1
  have entry : t.leafEntry src (add64 start (k * pageSize)) = s.slot src (pageAt start k) := by
    rw [← source]
    apply leafEntry_eq done.tables.layout
    rw [show pathOf (add64 start (k * pageSize)) = pageAt start k from rfl, source]
    exact present k lt
  have same := or_flags small (flagged k lt)
  dsimp only
  rw [entry]
  have fits : s.slot src (pageAt start k) ||| flags < 2 ^ 64 := by
    rw [same]
    exact slot_lt s src _ _
  have nonzero : s.slot src (pageAt start k) ||| flags ≠ 0 := by
    rw [same]
    exact present k lt
  refine (vmmMapPage_shared done.tables met small fits nonzero (free k lt)).imp ?_
  intro _ t' ⟨remapped, grows, tables'⟩
  rw [same] at remapped
  exact ⟨⟨done.toRepaged.round range.small lt free remapped fun _ page => page, tables'⟩,
    fun _ mem => grows (more mem)⟩

/-- The loop of `mm_unshare_vma`. -/
theorem unshare_loop (tables : Tables rs s own none none) (met : ¬ s.ranOut = true)
    (range : Range start n) (present : ∀ k < n, s.slot mm (pageAt start k) ≠ 0)
    (free : ∀ j < n, ¬ own mm (pageAt start j)) :
    Runs (meter rs) (forTo n fun pg => do
      let off ← intOffset pg
      vmmUnmapPage rs mm (add64 start off)) (n * 0) s fun _ s' =>
      Shared rs s s' own mm start n fun _ => 0 := by
  have bound := range.small
  refine .forTo (fun k t => Shared rs s t own mm start k fun _ => 0) met (.refl tables)
    (fun k lt t met done => ?_) fun _ => .bind sticky_intOffset fun _ => sticky_vmmUnmapPage
  refine .step (intOffset_eq (by omega)) (Nat.le_refl _) ?_
  have there : t.slot mm (pageAt start k) ≠ 0 := by
    rw [done.others mm _ (pageAt_length start k)]
    · exact present k lt
    · rintro ⟨_, j, less, same⟩
      have := pageAt_inj range.small lt (by omega) same
      omega
  refine (vmmUnmapPage_shared done.tables met there (free k lt)).imp ?_
  intro _ t' ⟨remapped, tables'⟩
  exact ⟨done.toRepaged.round range.small lt free remapped fun _ page => page, tables'⟩

/-- What the loop of `mm_free_reg_vma` did: the pages are unmapped and their frames freed. -/
structure Reclaimed (rs : RegionTable) (s s' : Vmm) (own : Nat → Path → Prop) (mm start n k : Nat) :
    Prop extends Repaged s s' (withoutPages own mm start n) mm start k (fun _ => 0) where
  tables : Tables rs s' (withoutPages own mm start k) none none

/-- The loop of `mm_free_reg_vma`. -/
theorem reclaim_loop (tables : Tables rs s own none none) (met : ¬ s.ranOut = true)
    (range : Range start n) (present : ∀ k < n, s.slot mm (pageAt start k) ≠ 0)
    (owned : ∀ j < n, own mm (pageAt start j)) :
    Runs (meter rs) (forTo n fun pg => do
      let off ← intOffset pg
      let phys := (← get).vmmGetPhys mm (add64 start off)
      vmmUnmapPage rs mm (add64 start off)
      freeFrame rs phys) (n * 0) s fun _ s' => Reclaimed rs s s' own mm start n n := by
  have bound := range.small
  have apart : ∀ j < n, ¬ withoutPages own mm start n mm (pageAt start j) := fun j lt owns =>
    owns.2 ⟨rfl, j, lt, rfl⟩
  refine .forTo (fun k t => Reclaimed rs s t own mm start n k) met ⟨.refl s, ?_⟩
    (fun k lt t met done => ?_) fun _ => .bind sticky_intOffset fun _ => .bind .get fun _ =>
    .bind sticky_vmmUnmapPage fun _ => ofFrames_meter.free _
  · rw [withoutPages_zero]
    exact tables
  refine .step (intOffset_eq (by omega)) (Nat.le_refl _) (.of_get ?_)
  have later : ¬ ∃ j < k, pageAt start k = pageAt start j := by
    rintro ⟨j, less, same⟩
    have := pageAt_inj range.small lt (by omega) same
    omega
  have there : t.slot mm (pageAt start k) ≠ 0 := by
    rw [done.others mm _ (pageAt_length start k) fun same => later same.2]
    exact present k lt
  have still : withoutPages own mm start k mm (pageAt start k) :=
    ⟨owned k lt, fun same => later same.2⟩
  have phys : t.vmmGetPhys mm (add64 start (k * pageSize)) = pageOf (t.slot mm (pageAt start k)) := by
    rw [Vmm.vmmGetPhys, leafEntry_eq done.tables.layout _ there]
    rfl
  dsimp only
  rw [phys]
  refine .bind (n := 0) (k := 0) ((vmmUnmapPage_owned done.tables met there still).imp ?_)
    fun _ => ofFrames_meter.free _
  intro _ t₁ ⟨remapped, tables₁⟩ met₁
  obtain ⟨t₂, ran, freed, kept⟩ := freeFrame_spec tables₁.frames
    (tables₁.exclusive.handed none _ rfl)
  obtain ⟨quiet, tables₂⟩ := tables₁.release freed
  have met₂ : ¬ (meter rs).out t₂ := by
    rw [freed.state]
    exact met₁
  have sub : ∀ j v, withoutPages own mm start n j v →
      withoutPage (withoutPages own mm start k) mm (pageAt start k) j v := by
    intro j v ⟨owns, out⟩
    refine ⟨⟨owns, fun ⟨same, i, less, eq⟩ => out ⟨same, i, by omega, eq⟩⟩, fun ⟨same, eq⟩ => ?_⟩
    exact out ⟨same, k, lt, eq⟩
  have moved : Remapped t t₂ (withoutPages own mm start n) none mm (pageAt start k) 0 := by
    refine (remapped.mono fun j v owns => (sub j v owns).1).before quiet (fun g page => ?_)
      (pageAt_length start k)
    rcases page with free | ⟨j, v, long, owns, here, frame⟩
    · cases free
    · refine .inr ⟨j, v, long, sub j v owns, ?_⟩
      rw [remapped.others j v long (sub j v owns).2]
      exact ⟨here, frame⟩
  refine .done ran met₂ kept ⟨done.toRepaged.round range.small lt apart moved fun _ page => page, ?_⟩
  rw [← withoutPages_succ]
  exact tables₂

/-! ## Copying -/

/-- A copy between ranges that do not overlap changes the destination only. -/
theorem memcpy_apply {m : Bytes} {dest source n : Nat}
    (apart : dest + n ≤ source ∨ source + n ≤ dest) (a : Nat) :
    memcpy m dest source n a =
      if dest ≤ a ∧ a < dest + n then m (source + (a - dest)) else m a := by
  induction n with
  | zero => rw [memcpy, if_neg (by omega)]
  | succ n ih =>
    have read : memcpy m dest source n (source + n) = m (source + n) := by
      -- the byte read is not one of those written
      have out : ∀ k ≤ n, memcpy m dest source k (source + n) = m (source + n) := by
        intro k le
        induction k with
        | zero => rfl
        | succ k ih => rw [memcpy, Function.update_of_ne (by omega), ih (by omega)]
      exact out n (Nat.le_refl n)
    rw [memcpy, Function.update_apply, read, ih (by omega)]
    split
    · rename_i here
      rw [if_pos (by omega), here, Nat.add_sub_cancel_left]
    · split
      · rw [if_pos (by omega)]
      · rw [if_neg (by omega)]

/-- Writing a page leaves the tables alone. -/
theorem Tables.writePage {m' : Bytes} {hole : Role} (tables : Tables rs s own spare hole)
    (page : PageFrame s own spare g)
    (out : ∀ a, a < g ∨ g + pageSize ≤ a → m' a = s.frames.mem a) :
    Tables rs (s.setMem m') own spare hole ∧
      ∀ k p, p.length ≤ 4 → (s.setMem m').slot k p = s.slot k p := by
  have same : ∀ k p, p.length ≤ 4 → (s.setMem m').slot k p = s.slot k p := by
    intro k p short
    refine slot_congr (fun _ => rfl) (fun j q depth here a low high => out a ?_) short
    have apart := (tables.layout.frame j q depth here).apart (page.frame tables)
      (page.ne_table tables depth here).symm
    omega
  refine ⟨⟨tables.frames.outside (page.frame tables) out, tables.exclusive.congr fun r => ?_,
    tables.root, tables.tight.congr same⟩, same⟩
  cases r with
  | none => rfl
  | some path => exact held_congr same (fun absurd => (by cases absurd))

/-- What `mm_copy_from_mm` did: the pages of `dst` have the bytes of those of `src`, and no other
page has changed. -/
structure Copied (rs : RegionTable) (s s' : Vmm) (own : Nat → Path → Prop) (dst src start n : Nat) :
    Prop where
  tables : Tables rs s' own none none
  slots : ∀ j p, p.length ≤ 4 → s'.slot j p = s.slot j p
  copied : ∀ k < n, ∀ o < pageSize,
    s'.frames.mem (pageOf (s.slot dst (pageAt start k)) + o) =
      s.frames.mem (pageOf (s.slot src (pageAt start k)) + o)
  kept : ∀ g, PageFrame s own none g → (∀ k < n, g ≠ pageOf (s.slot dst (pageAt start k))) →
    SameFrame s.frames.mem s'.frames.mem g
  state : s' = s.setMem s'.frames.mem

/-- The frames of different pages are different. -/
theorem Tables.page_ne {hole : Role} (tables : Tables rs s own spare hole) (longV : v.length = 4)
    (longW : w.length = 4) (ownV : own mm v) (ownW : own k w) (thereV : s.slot mm v ≠ 0)
    (thereW : s.slot k w ≠ 0) (ne : ¬ (mm = k ∧ v = w)) :
    pageOf (s.slot mm v) ≠ pageOf (s.slot k w) := by
  intro same
  have roles := tables.exclusive.unique (some (mm, v)) (some (k, w)) _
    (held_eq_some.mpr ⟨.inr ⟨longV, ownV⟩, thereV, same⟩)
    (held_eq_some.mpr ⟨.inr ⟨longW, ownW⟩, thereW, rfl⟩)
  simp only [Option.some.injEq, Prod.mk.injEq] at roles
  exact ne roles

/-- One round of `mm_copy_from_mm`. -/
theorem Copied.round (range : Range start n) (lt : k < n) (ne : src ≠ dst)
    (tables : Tables rs s own none none)
    (ownSrc : ∀ j < n, own src (pageAt start j)) (ownDst : ∀ j < n, own dst (pageAt start j))
    (thereSrc : ∀ j < n, s.slot src (pageAt start j) ≠ 0)
    (thereDst : ∀ j < n, s.slot dst (pageAt start j) ≠ 0)
    (done : Copied rs s t own dst src start k) :
    Copied rs s (t.setMem (memcpy t.frames.mem (t.vmmGetPhys dst (add64 start (pageSize * k)))
      (t.vmmGetPhys src (add64 start (pageSize * k))) pageSize)) own dst src start (k + 1) := by
  have phys : ∀ mm, s.slot mm (pageAt start k) ≠ 0 →
      t.vmmGetPhys mm (add64 start (pageSize * k)) = pageOf (s.slot mm (pageAt start k)) := by
    intro mm there
    have same := done.slots mm (pageAt start k) (Nat.le_refl 4)
    rw [Nat.mul_comm, Vmm.vmmGetPhys, leafEntry_eq done.tables.layout]
    · rw [show pathOf (add64 start (k * pageSize)) = pageAt start k from rfl, same]
    · rw [show pathOf (add64 start (k * pageSize)) = pageAt start k from rfl, same]
      exact there
  rw [phys dst (thereDst k lt), phys src (thereSrc k lt)]
  have pageSrc : PageFrame s own none (pageOf (s.slot src (pageAt start k))) :=
    .inr ⟨src, _, pageAt_length start k, ownSrc k lt, thereSrc k lt, rfl⟩
  have pageDst : PageFrame s own none (pageOf (s.slot dst (pageAt start k))) :=
    .inr ⟨dst, _, pageAt_length start k, ownDst k lt, thereDst k lt, rfl⟩
  have pageDst' : PageFrame t own none (pageOf (s.slot dst (pageAt start k))) :=
    pageDst.congr fun j v long => done.slots j v (Nat.le_of_eq long)
  have differ : ∀ j < n, pageOf (s.slot src (pageAt start k)) ≠
      pageOf (s.slot dst (pageAt start j)) := fun j lt' =>
    tables.page_ne (pageAt_length start k) (pageAt_length start j) (ownSrc k lt) (ownDst j lt')
      (thereSrc k lt) (thereDst j lt') fun same => ne same.1
  have apart := (pageDst.frame tables).apart (pageSrc.frame tables) (differ k lt).symm
  have bytes := memcpy_apply (m := t.frames.mem) apart
  -- what the copy does to a byte is all that matters from here on
  generalize memcpy t.frames.mem (pageOf (s.slot dst (pageAt start k)))
    (pageOf (s.slot src (pageAt start k))) pageSize = m' at bytes ⊢
  obtain ⟨tables', same⟩ := done.tables.writePage pageDst'
    fun a out => (bytes a).trans (if_neg (by omega))
  have other : ∀ g, PageFrame s own none g → g ≠ pageOf (s.slot dst (pageAt start k)) →
      SameFrame t.frames.mem m' g := by
    intro g page differs a low high
    have := (page.frame tables).apart (pageDst.frame tables) differs
    exact (bytes a).trans (if_neg (by omega))
  refine ⟨tables', fun j p short => (same j p short).trans (done.slots j p short), ?_, ?_,
    (congrArg (fun u : Vmm => u.setMem m') done.state).trans rfl⟩
  · intro j le o small
    by_cases last : j = k
    · subst last
      refine (bytes _).trans ?_
      rw [if_pos (by omega), Nat.add_sub_cancel_left]
      exact done.kept _ pageSrc (fun i less => differ i (by omega)) _ (by omega) (by omega)
    · have page : PageFrame s own none (pageOf (s.slot dst (pageAt start j))) :=
        .inr ⟨dst, _, pageAt_length start j, ownDst j (by omega), thereDst j (by omega), rfl⟩
      have differs := tables.page_ne (pageAt_length start j) (pageAt_length start k)
        (ownDst j (by omega)) (ownDst k lt) (thereDst j (by omega)) (thereDst k lt)
        fun eq => last (pageAt_inj range.small (by omega) lt eq.2)
      refine (other _ page differs _ (by omega) (by omega)).trans ?_
      exact done.copied j (by omega) o small
  · intro g page differs a low high
    refine (other g page (differs k (Nat.lt_succ_self k)) a low high).trans ?_
    exact done.kept g page (fun j less => differs j (by omega)) a low high

theorem sticky_mmCopyFromMm {M : Meter Vmm} (frames : OfFrames rs M) :
    Sticky M (mmCopyFromMm dst src start n) :=
  .bind sticky_panicIf fun _ => .forTo fun _ => .modify fun _ => frames.rest rfl rfl

/-- `mm_copy_from_mm`. -/
theorem mmCopyFromMm_runs (tables : Tables rs s own none none) (met : ¬ s.ranOut = true)
    (ne : src ≠ dst) (range : Range start n)
    (ownSrc : ∀ j < n, own src (pageAt start j)) (ownDst : ∀ j < n, own dst (pageAt start j))
    (thereSrc : ∀ j < n, s.slot src (pageAt start j) ≠ 0)
    (thereDst : ∀ j < n, s.slot dst (pageAt start j) ≠ 0) :
    Runs (meter rs) (mmCopyFromMm dst src start n) 0 s fun _ s' =>
      Copied rs s s' own dst src start n := by
  unfold mmCopyFromMm
  refine .step (panicIf_eq (not_not.mpr range.aligned)) (Nat.le_refl _) ?_
  refine Runs.mono (n := n * 0) (.forTo (fun k t => Copied rs s t own dst src start k) met
    ⟨tables, fun _ _ _ => rfl, fun _ lt => absurd lt (Nat.not_lt_zero _), fun _ _ _ _ _ _ => rfl,
      rfl⟩ (fun k lt t met done => ?_) fun _ => .modify fun _ out => out) (by omega) fun _ _ h => h
  exact .done rfl met (Nat.le_refl _)
    (done.round range lt ne tables ownSrc ownDst thereSrc thereDst)

/-! ## Copying from a buffer -/

/-- A copy from a buffer changes the destination only. -/
theorem memcpyFrom_apply (m buf : Bytes) (dest n a : Nat) : memcpyFrom m dest buf n a =
    if dest ≤ a ∧ a < dest + n then buf (a - dest) else m a := by
  induction n with
  | zero => rw [memcpyFrom, if_neg (by omega)]
  | succ n ih =>
    rw [memcpyFrom, Function.update_apply, ih]
    split
    · rename_i last
      rw [if_pos (by omega), last, Nat.add_sub_cancel_left]
    · split
      · rw [if_pos (by omega)]
      · rw [if_neg (by omega)]

/-- Outside the destination every byte is kept. -/
theorem memcpyFrom_outside {m buf : Bytes} {a dest : Nat} (out : a < dest ∨ dest + n ≤ a) :
    memcpyFrom m dest buf n a = m a := by
  rw [memcpyFrom_apply, if_neg (by omega)]

theorem sticky_mmCopyFromBuf {M : Meter Vmm} {buf : Bytes} {len : Nat} (frames : OfFrames rs M) :
    Sticky M (mmCopyFromBuf mm buf start len) :=
  .bind sticky_panicIf fun _ => .forTo fun _ => .modify fun _ => frames.rest rfl rfl

/-- What `mm_copy_from_buf` did to pages that are owned: their bytes are not said, no entry changed. -/
structure Filled (rs : RegionTable) (s s' : Vmm) (own : Nat → Path → Prop) : Prop where
  tables : Tables rs s' own none none
  slots : ∀ j p, p.length ≤ 4 → s'.slot j p = s.slot j p
  state : s' = s.setMem s'.frames.mem

/-- One round of `mm_copy_from_buf`. -/
theorem Filled.round {buf : Bytes} {size : Nat} (small : size ≤ pageSize) (done : Filled rs s t own)
    (owned : own mm (pageAt start k)) (there : s.slot mm (pageAt start k) ≠ 0) :
    Filled rs s (t.setMem (memcpyFrom t.frames.mem (t.vmmGetPhys mm (add64 start (pageSize * k))) buf
      size)) own := by
  have same := done.slots mm (pageAt start k) (pageAt_length start k).le
  have here : t.slot mm (pageAt start k) ≠ 0 := by rwa [same]
  have phys : t.vmmGetPhys mm (add64 start (pageSize * k)) = pageOf (t.slot mm (pageAt start k)) := by
    rw [Nat.mul_comm, Vmm.vmmGetPhys, leafEntry_eq done.tables.layout _ here]
    rfl
  rw [phys]
  have page : PageFrame t own none (pageOf (t.slot mm (pageAt start k))) :=
    .inr ⟨mm, _, pageAt_length start k, owned, here, rfl⟩
  have outside : ∀ a, a < pageOf (t.slot mm (pageAt start k)) ∨
      pageOf (t.slot mm (pageAt start k)) + pageSize ≤ a →
      memcpyFrom t.frames.mem (pageOf (t.slot mm (pageAt start k))) buf size a = t.frames.mem a :=
    fun a out => memcpyFrom_outside (by omega)
  generalize memcpyFrom t.frames.mem (pageOf (t.slot mm (pageAt start k))) buf size = m' at outside ⊢
  obtain ⟨tables, slots⟩ := done.tables.writePage page outside
  exact ⟨tables, fun j p short => (slots j p short).trans (done.slots j p short),
    (congrArg (fun u : Vmm => u.setMem m') done.state).trans rfl⟩

/-- `mm_copy_from_buf` to pages that are owned. -/
theorem mmCopyFromBuf_runs {buf : Bytes} {len : Nat} (tables : Tables rs s own none none)
    (met : ¬ s.ranOut = true) (aligned : start % pageSize = 0)
    (fits : (len + pageSize - 1) / pageSize ≤ n) (owned : ∀ k < n, own mm (pageAt start k))
    (there : ∀ k < n, s.slot mm (pageAt start k) ≠ 0) :
    Runs (meter rs) (mmCopyFromBuf mm buf start len) 0 s fun _ s' => Filled rs s s' own := by
  unfold mmCopyFromBuf
  refine .step (panicIf_eq (not_not.mpr aligned)) (Nat.le_refl _) ?_
  refine Runs.mono (n := (len + pageSize - 1) / pageSize * 0) (.forTo (fun _ t => Filled rs s t own)
    met ⟨tables, fun _ _ _ => rfl, rfl⟩ (fun k lt t met done => ?_)
    fun _ => .modify fun _ out => out) (by omega) fun _ _ h => h
  exact .done rfl met (Nat.le_refl _) (done.round (Nat.min_le_right _ _) (owned k (by omega))
    (there k (by omega)))

/-- What `k` rounds of `mm_copy_from_buf` did to `n` pages that are owned: the first bytes are those
of the buffer, the others and those of the other pages stay. -/
structure Poured (rs : RegionTable) (s s' : Vmm) (own : Nat → Path → Prop) (mm start n : Nat)
    (buf : Bytes) (len k : Nat) : Prop extends Filled rs s s' own where
  bytes : ∀ j < n, ∀ o < pageSize, s'.frames.mem (pageOf (s.slot mm (pageAt start j)) + o) =
    if j * pageSize + o < min len (k * pageSize) then buf (j * pageSize + o)
    else s.frames.mem (pageOf (s.slot mm (pageAt start j)) + o)
  kept : ∀ g, PageFrame s own none g → (∀ j < n, g ≠ pageOf (s.slot mm (pageAt start j))) →
    SameFrame s.frames.mem s'.frames.mem g

/-- One round of `mm_copy_from_buf` pours the buffer's next page into the page's frame. -/
theorem Poured.round {buf : Bytes} {len : Nat} (few : n ≤ 2 ^ 19) (lt : k < n)
    (tables : Tables rs s own none none) (owned : ∀ j < n, own mm (pageAt start j))
    (there : ∀ j < n, s.slot mm (pageAt start j) ≠ 0)
    (done : Poured rs s t own mm start n buf len k) :
    Poured rs s (t.setMem (memcpyFrom t.frames.mem (t.vmmGetPhys mm (add64 start (pageSize * k)))
      (fun i => buf (pageSize * k + i)) (min (len - pageSize * k) pageSize))) own mm start n buf len
      (k + 1) := by
  have filled : Filled rs s (t.setMem (memcpyFrom t.frames.mem
      (t.vmmGetPhys mm (add64 start (pageSize * k))) (fun i => buf (pageSize * k + i))
      (min (len - pageSize * k) pageSize))) own :=
    done.toFilled.round (Nat.min_le_right _ _) (owned k lt) (there k lt)
  have same := done.slots mm (pageAt start k) (pageAt_length start k).le
  have here : t.slot mm (pageAt start k) ≠ 0 := by
    rw [same]
    exact there k lt
  have phys : t.vmmGetPhys mm (add64 start (pageSize * k)) = pageOf (s.slot mm (pageAt start k)) := by
    rw [Nat.mul_comm, Vmm.vmmGetPhys, leafEntry_eq done.tables.layout _ here, ← same]
    rfl
  have page : ∀ j < n, PageFrame s own none (pageOf (s.slot mm (pageAt start j))) := fun j lt =>
    .inr ⟨mm, _, pageAt_length start j, owned j lt, there j lt, rfl⟩
  have differ : ∀ j < n, j ≠ k →
      pageOf (s.slot mm (pageAt start j)) ≠ pageOf (s.slot mm (pageAt start k)) := fun j less ne =>
    tables.page_ne (pageAt_length start j) (pageAt_length start k) (owned j less) (owned k lt)
      (there j less) (there k lt) fun eq => ne (pageAt_inj few less lt eq.2)
  rw [phys] at filled ⊢
  have bytes := memcpyFrom_apply t.frames.mem (fun i => buf (pageSize * k + i))
    (pageOf (s.slot mm (pageAt start k))) (min (len - pageSize * k) pageSize)
  generalize memcpyFrom t.frames.mem (pageOf (s.slot mm (pageAt start k)))
    (fun i => buf (pageSize * k + i)) (min (len - pageSize * k) pageSize) = m' at filled bytes ⊢
  have other : ∀ g, PageFrame s own none g → g ≠ pageOf (s.slot mm (pageAt start k)) →
      SameFrame t.frames.mem m' g := by
    intro g frame ne a low high
    have := (frame.frame tables).apart ((page k lt).frame tables) ne
    exact (bytes a).trans (if_neg (by omega))
  have next : (k + 1) * pageSize = k * pageSize + pageSize := Nat.succ_mul k pageSize
  refine ⟨filled, fun j less o small => ?_, fun g frame ne a low high => ?_⟩
  · have before := done.bytes j less o small
    by_cases now : j = k
    · rw [now] at before ⊢
      refine (bytes _).trans ?_
      rw [Nat.add_sub_cancel_left, before, Nat.mul_comm pageSize k]
      by_cases inside : k * pageSize + o < len
      · rw [if_pos (by omega), if_pos (by omega)]
      · rw [if_neg (by omega), if_neg (by omega), if_neg (by omega)]
    · refine (other _ (page j less) (differ j less now) _ (by omega) (by omega)).trans ?_
      rw [before]
      have apart : j * pageSize + pageSize ≤ k * pageSize ∨ (k + 1) * pageSize ≤ j * pageSize := by
        rcases Nat.lt_or_gt_of_ne now with earlier | later
        · left
          rw [← Nat.succ_mul]
          exact Nat.mul_le_mul_right pageSize earlier
        · exact .inr (Nat.mul_le_mul_right pageSize later)
      by_cases inside : j * pageSize + o < min len (k * pageSize)
      · rw [if_pos inside, if_pos (by omega)]
      · rw [if_neg inside, if_neg (by omega)]
  · refine (other g frame (ne k lt) a low high).trans ?_
    exact done.kept g frame ne a low high

/-- `mm_copy_from_buf` of as many bytes as there is room for. -/
theorem mmCopyFromBuf_pours {buf : Bytes} {len : Nat} (tables : Tables rs s own none none)
    (met : ¬ s.ranOut = true) (aligned : start % pageSize = 0) (few : n ≤ 2 ^ 19)
    (fits : len ≤ n * pageSize) (owned : ∀ k < n, own mm (pageAt start k))
    (there : ∀ k < n, s.slot mm (pageAt start k) ≠ 0) :
    Runs (meter rs) (mmCopyFromBuf mm buf start len) 0 s fun _ s' =>
      Poured rs s s' own mm start n buf len ((len + pageSize - 1) / pageSize) := by
  have rounds : (len + pageSize - 1) / pageSize ≤ n := by
    simp only [pageSize] at *
    omega
  unfold mmCopyFromBuf
  refine .step (panicIf_eq (not_not.mpr aligned)) (Nat.le_refl _) ?_
  refine Runs.mono (n := (len + pageSize - 1) / pageSize * 0)
    (.forTo (fun k t => Poured rs s t own mm start n buf len k) met
      ⟨⟨tables, fun _ _ _ => rfl, rfl⟩, fun j _ o _ => ?_, fun _ _ _ _ _ _ => rfl⟩
      (fun k lt t met done => ?_) fun _ => .modify fun _ out => out) (by omega) fun _ _ h => h
  · rw [if_neg (by omega)]
  · exact .done rfl met (Nat.le_refl _) (done.round few (by omega) tables owned there)

end Blackcomb.Mm
