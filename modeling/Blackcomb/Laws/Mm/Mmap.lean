import Blackcomb.Laws.Mm.Spaces

/-!
# Anonymous mappings

`anon_mmap` on a live space and a canonical range that meets none of its areas: the range
becomes an area in front of the space's list, each page of it on a frame of its own that was free,
zeroed. Nothing else changes: not the other spaces, not a byte of a page.

**What it does not establish.** `anon_mmap` does not compare its range with the areas. What it does
to pages that are mapped already is in `Drawing`.
-/

namespace Blackcomb.Mm

open Memory Run Budget Ownership Chain

variable {rs : RegionTable} {s s' t : Vmm} {own : Nat → Path → Prop} {mm k n : Nat}
  {lis : List Nat}

/-- What an operation on the space `mm` leaves alone. Its list had the nodes `nodes`. -/
structure Beside (s s' : Vmm) (own : Nat → Path → Prop) (mm : Nat) (lis : List Nat) : Prop where
  slots : ∀ k p, p.length ≤ 4 → k ≠ mm → s'.slot k p = s.slot k p
  pages : ∀ g, PageFrame s own none g → SameFrame s.frames.mem s'.frames.mem g
  grows : s.frames.taken ⊆ s'.frames.taken
  heads : ∀ k, k ≠ mm → (s'.mms k).vmAreas = (s.mms k).vmAreas
  nodes : ∀ l < s.nlis, l ∉ lis → s'.lis l = s.lis l
  areas : ∀ r < s.nvmas, s'.vmas r = s.vmas r
  live : s'.nmms = s.nmms ∧ s'.freedMms = s.freedMms
  heap : s'.freedVmas = s.freedVmas ∧ s'.freedLis = s.freedLis
  more : s.nlis ≤ s'.nlis ∧ s.nvmas ≤ s'.nvmas

/-- An area added to one space leaves the live ones alive. -/
theorem Beside.live_iff (beside : Beside s s' own mm lis) : s'.Live k ↔ s.Live k := by
  rw [Vmm.Live, Vmm.Live, beside.live.1, beside.live.2]

/-- It adds none. -/
theorem Beside.lives (beside : Beside s s' own mm lis) : s'.lives = s.lives := by
  rw [Vmm.lives, Vmm.lives, beside.live.1, beside.live.2]

/-- What `anon_mmap` did: an area in front of the list, each page of it on a frame of its own that
was free, zeroed. -/
structure Mmapped (rs : RegionTable) (s s' : Vmm) (lis regs : Nat → List Nat)
    (mm start n prot : Nat) (user : Bool) (frame : Nat → Nat) : Prop extends
    Beside s s' (owns s regs) mm (lis mm) where
  spaces : Spaces rs s' (Function.update lis mm (s.nlis :: lis mm))
    (Function.update regs mm (s.nvmas :: regs mm))
  owned : owns s' (Function.update regs mm (s.nvmas :: regs mm)) = withPages (owns s regs) mm start n
  area : s'.vmas s.nvmas =
    { refcnt := 1, type := .reg, start, pages := n, user, prot := prot % 2 ^ 8 }
  named : s'.nlis = s.nlis + 1 ∧ s'.nvmas = s.nvmas + 1
  here : ∀ k < n, s'.slot mm (pageAt start k) = frame k ||| pageFlags prot user
  others : ∀ v, v.length = 4 → (∀ k < n, v ≠ pageAt start k) → s'.slot mm v = s.slot mm v
  isFrame : ∀ k < n, IsFrame rs (frame k)
  fresh : ∀ k < n, frame k ∉ s.frames.taken
  zeroed : ∀ k < n, ∀ a, frame k ≤ a → a < frame k + pageSize → s'.frames.mem a = 0

/-- The end of `anon_mmap`: the new area's record, in front of the list. -/
def Vmm.addArea (s : Vmm) (mm : Nat) (area : VmArea) : Vmm :=
  ({ s with vmas := Function.update s.vmas s.nvmas area, nvmas := s.nvmas + 1 } : Vmm).insertVma mm
    s.nvmas

theorem addArea_frames (area : VmArea) : (s.addArea mm area).frames = s.frames :=
  insertVma_frames

/-- An area's record is not in the tables. -/
theorem addArea_slot (s : Vmm) (mm : Nat) (area : VmArea) (k : Nat) (p : Path) :
    (s.addArea mm area).slot k p = s.slot k p :=
  slot_records (addArea_frames area) (fun _ => insertVma_p4) k p

/-- The new record is counted once, for its list. -/
theorem addArea_vmas (s : Vmm) (mm : Nat) (area : VmArea) : (s.addArea mm area).vmas =
    Function.update s.vmas s.nvmas { area with refcnt := area.refcnt + 1 } := by
  rw [Vmm.addArea, insertVma_vmas]
  simp

theorem addArea_rest (s : Vmm) (mm : Nat) (area : VmArea) : (s.addArea mm area).nmms = s.nmms ∧
    (s.addArea mm area).freedMms = s.freedMms ∧ (s.addArea mm area).nvmas = s.nvmas + 1 ∧
    (s.addArea mm area).nlis = s.nlis + 1 ∧ (s.addArea mm area).freedVmas = s.freedVmas ∧
    (s.addArea mm area).freedLis = s.freedLis := by
  obtain ⟨nmms, nvmas, _, freed, freedVmas, freedLis⟩ := insertVma_rest
    { s with vmas := Function.update s.vmas s.nvmas area, nvmas := s.nvmas + 1 } mm s.nvmas
  exact ⟨nmms, freed, nvmas, insertVma_nlis, freedVmas, freedLis⟩

variable {lists areas : Nat → List Nat} {start prot : Nat} {user : Bool} {frame : Nat → Nat}

/-- The pages of `anon_mmap` are owned with those that were. -/
theorem owns_addArea {a : VmArea} (live : s.Live mm)
    (fresh : ∀ k, s.Live k → ∀ r ∈ areas k, r < s.nvmas)
    (vmas : s'.vmas = Function.update s.vmas s.nvmas a) (same : ∀ k, s'.Live k ↔ s.Live k) :
    owns s' (Function.update areas mm (s.nvmas :: areas mm)) =
      withPages (owns s areas) mm a.start a.pages := by
  have old : ∀ k, s.Live k → ∀ r ∈ areas k, s'.vmas r = s.vmas r := by
    intro k live r mem
    rw [vmas, Function.update_of_ne (Nat.ne_of_lt (fresh k live r mem))]
  have new : ∀ w, InArea (s'.vmas s.nvmas) w ↔ ∃ j < a.pages, w = pageAt a.start j := by
    intro w
    rw [vmas, Function.update_self]
    rfl
  funext k w
  apply propext
  rw [owns, withPages, owns, same, or_assoc]
  apply or_congr_right
  by_cases here : k = mm
  · subst here
    rw [Function.update_self]
    simp only [List.mem_cons, exists_eq_or_imp, new, live, true_and]
    rw [or_comm]
    apply or_congr_left
    exact exists_inArea_congr (old k live)
  · rw [Function.update_of_ne here]
    simp only [here, false_and, or_false]
    apply and_congr_right
    exact fun live => exists_inArea_congr (old k live)

/-- The area that `anon_mmap` makes, before it is on a list. -/
def anonArea (start n prot : Nat) (user : Bool) : VmArea :=
  { prot := prot % 2 ^ 8, user, type := .reg, start, pages := n }

theorem insertVma_ranOut {vma : Nat} : (s.insertVma mm vma).ranOut = s.ranOut :=
  (insertVma_rest s mm vma).2.2.1

theorem sticky_mmInsertVma {M : Meter Vmm} {vma : Nat} (frames : OfFrames rs M) :
    Sticky M (mmInsertVma mm vma) := by
  apply Sticky.modify
  intro s
  exact frames.rest (by rw [insertVma_frames]) insertVma_ranOut

section Mmap

variable (spaces : Spaces rs s lists areas) (live : s.Live mm)
  (done : Fresh rs s t (owns s areas) mm start n (pageFlags prot user) frame)

include spaces live done

/-- With the new node in front the list is still the list of the space. -/
theorem Fresh.listed : Listed { t with
    vmas := Function.update t.vmas t.nvmas (anonArea start n prot user), nvmas := t.nvmas + 1 } mm
    (lists mm) := by
  obtain ⟨_, _, _, lis, nlis, _⟩ := done.records.fields
  exact (spaces.space mm live).listed.congr (done.records.areas mm) (fun l _ => congrFun lis l)
    (Nat.le_of_eq nlis.symm)

/-- The other spaces are as they were. -/
theorem Fresh.beside :
    Beside s (t.addArea mm (anonArea start n prot user)) (owns s areas) mm (lists mm) := by
  obtain ⟨nmms, vmas, nvmas, lis, nlis, freed, freedVmas, freedLis⟩ := done.records.fields
  obtain ⟨nmms', freed', nvmas', nlis', freedVmas', freedLis'⟩ :=
    addArea_rest t mm (anonArea start n prot user)
  have listed := done.listed spaces live
  refine ⟨fun k p short ne => ?_, fun g page => ?_, ?_, fun k ne => ?_, fun l lt out => ?_,
    fun r lt => ?_, ⟨nmms'.trans nmms, freed'.trans freed⟩,
    ⟨freedVmas'.trans freedVmas, freedLis'.trans freedLis⟩, by omega⟩
  · rw [addArea_slot]
    exact done.trees k p ne short
  · rw [addArea_frames]
    exact done.pages g page
  · rw [addArea_frames]
    exact done.grows
  · rw [Vmm.addArea, insertVma_mms, Function.update_of_ne ne]
    exact done.records.areas k
  · have old : l ≠ t.nlis := by omega
    exact (listed.insert_other old out).trans (congrFun lis l)
  · rw [addArea_vmas, Function.update_of_ne (by omega), vmas]

omit spaces live in
theorem Fresh.area_new : (t.addArea mm (anonArea start n prot user)).vmas s.nvmas =
    { anonArea start n prot user with refcnt := 1 } := by
  obtain ⟨_, _, nvmas, _⟩ := done.records.fields
  rw [addArea_vmas, ← nvmas, Function.update_self]
  rfl

omit spaces live in
/-- The pages of the new area. -/
theorem Fresh.inArea_new (w : Path) :
    InArea ((t.addArea mm (anonArea start n prot user)).vmas s.nvmas) w ↔
      ∃ j < n, w = pageAt start j := by
  rw [done.area_new]
  rfl

omit spaces live in
/-- The other pages of the space. -/
theorem Fresh.slot_other {v : Path} (long : v.length = 4) (out : ¬ ∃ j < n, v = pageAt start j) :
    (t.addArea mm (anonArea start n prot user)).slot mm v = s.slot mm v := by
  rw [addArea_slot]
  exact done.others mm v long fun same => out same.2

/-- The space has one area more, if it overlaps none of those before. -/
theorem Fresh.space (regularNew : Regular (anonArea start n prot user))
    (apart : ∀ r ∈ areas mm, ∀ k < n, ¬ InArea (s.vmas r) (pageAt start k)) :
    Space (t.addArea mm (anonArea start n prot user)) mm (s.nlis :: lists mm)
      (s.nvmas :: areas mm) := by
  have beside := done.beside spaces live
  have space := spaces.space mm live
  have nonzero : mm ≠ 0 := Nat.ne_of_gt live.1
  obtain ⟨nmms, vmas, nvmas, lis, nlis, freed, _⟩ := done.records.fields
  obtain ⟨_, _, nvmas', _⟩ := addArea_rest t mm (anonArea start n prot user)
  have listed := done.listed spaces live
  have static : 3 ≤ t.nlis := by
    have := spaces.kernel.named
    omega
  have old : ∀ r ∈ areas mm, (t.addArea mm (anonArea start n prot user)).vmas r = s.vmas r :=
    fun r mem => beside.areas r (space.named r mem).2
  have new := done.area_new
  have inNew := done.inArea_new
  have regular : Regular ((t.addArea mm (anonArea start n prot user)).vmas s.nvmas) := by
    rw [new]
    exact regularNew.congr rfl
  -- a page of an old area is none of the new one
  have oldPage : ∀ r ∈ areas mm, ∀ v, InArea (s.vmas r) v → ¬ ∃ j < n, v = pageAt start j := by
    rintro r mem v inside ⟨j, lt, rfl⟩
    exact apart r mem j lt inside
  refine ⟨?_, ?_, ?_, ?_, ?_, ?_, ?_, ?_, ?_, ?_⟩
  · rw [← nlis]
    exact listed.insert static
  · have areas := listed.vmasOf_insert t.nvmas
    rw [← nlis, ← nvmas]
    refine areas.trans (congrArg (t.nvmas :: ·) (Eq.trans ?_ space.areas))
    apply List.map_congr_left
    intro l _
    exact congrArg VmAreaLi.vma (congrFun lis l)
  · refine List.nodup_cons.mpr ⟨fun mem => ?_, space.distinct⟩
    exact Nat.lt_irrefl _ (space.named _ mem).2
  · intro r mem
    rcases List.mem_cons.mp mem with rfl | mem
    · have := spaces.kernel.named
      omega
    · have := space.named r mem
      omega
  · intro r mem
    rcases List.mem_cons.mp mem with rfl | mem
    · exact regular
    · rw [old r mem]
      exact space.regular r mem
  · intro r mem
    rcases List.mem_cons.mp mem with rfl | mem
    · rw [new]
    · rw [old r mem]
      exact space.single r mem
  · intro a ha b hb v inA inB
    rcases List.mem_cons.mp ha with rfl | ha
    · rcases List.mem_cons.mp hb with rfl | hb
      · rfl
      · rw [old b hb] at inB
        exact absurd ((inNew v).mp inA) (oldPage b hb v inB)
    · rw [old a ha] at inA
      rcases List.mem_cons.mp hb with rfl | hb
      · exact absurd ((inNew v).mp inB) (oldPage a ha v inA)
      · rw [old b hb] at inB
        exact space.apart a ha b hb v inA inB
  · intro r mem v inside
    rcases List.mem_cons.mp mem with rfl | mem
    · obtain ⟨j, lt, rfl⟩ := (inNew v).mp inside
      have aligned := (done.isFrame j lt).aligned
      have flags := or_mod aligned (pageFlags_lt prot user)
      rw [addArea_slot, done.here j lt, new]
      refine ⟨or_ne_zero (Nat.ne_of_gt (done.isFrame j lt).pos), flags.trans ?_⟩
      exact (pageFlags_mod prot user).symm
    · rw [old r mem] at inside ⊢
      rw [done.slot_other inside.length (oldPage r mem v inside)]
      exact space.mapped r mem v inside
  · intro a ha v inside
    rw [done.slot_other inside.length fun new => regular.off a ha v ((inNew v).mpr new) inside,
      beside.slots 0 v inside.length.le nonzero.symm]
    exact space.kernel a ha v inside
  · intro v long out kernel
    have notNew := fun new => out _ List.mem_cons_self ((inNew v).mpr new)
    rw [done.slot_other long notNew]
    refine space.unmapped v long (fun r mem inside => ?_) kernel
    refine out r (List.mem_cons_of_mem _ mem) ?_
    rw [old r mem]
    exact inside

end Mmap

/-- Lists with no name in common, one of which is replaced by names that no other has. -/
theorem apart_update {P Q : Nat → Prop} {f : Nat → List Nat} {xs : List Nat} {i j l : Nat}
    (apart : ∀ j k l, P j → P k → l ∈ f j → l ∈ f k → j = k)
    (mine : ∀ l ∈ xs, ∀ k, P k → k ≠ mm → l ∉ f k) (others : ∀ k, k ≠ mm → Q k → P k) (hi : Q i)
    (hj : Q j) (memI : l ∈ Function.update f mm xs i) (memJ : l ∈ Function.update f mm xs j) :
    i = j := by
  by_cases left : i = mm
  · by_cases right : j = mm
    · rw [left, right]
    · rw [left, Function.update_self] at memI
      rw [Function.update_of_ne right] at memJ
      exact absurd memJ (mine l memI j (others j right hj) right)
  · rw [Function.update_of_ne left] at memI
    by_cases right : j = mm
    · rw [right, Function.update_self] at memJ
      exact absurd memI (mine l memJ i (others i left hi) left)
    · rw [Function.update_of_ne right] at memJ
      exact apart i j l (others i left hi) (others j right hj) memI memJ

/-- In front of one of them, a name that is on none. -/
theorem apart_cons {P : Nat → Prop} {f : Nat → List Nat} {x i j l : Nat} (live : P mm)
    (apart : ∀ j k l, P j → P k → l ∈ f j → l ∈ f k → j = k) (fresh : ∀ k, P k → x ∉ f k)
    (hi : P i) (hj : P j) (memI : l ∈ Function.update f mm (x :: f mm) i)
    (memJ : l ∈ Function.update f mm (x :: f mm) j) : i = j := by
  refine apart_update apart (fun l mem k hk ne here => ?_) (fun _ _ hk => hk) hi hj memI memJ
  rcases List.mem_cons.mp mem with rfl | old
  · exact fresh k hk here
  · exact ne (apart k mm l hk live here old)

/-- Owning the new area is owning its pages besides. -/
theorem Fresh.owned (spaces : Spaces rs s lists areas) (live : s.Live mm)
    (done : Fresh rs s t (owns s areas) mm start n (pageFlags prot user) frame) :
    owns (t.addArea mm (anonArea start n prot user))
      (Function.update areas mm (s.nvmas :: areas mm)) = withPages (owns s areas) mm start n := by
  obtain ⟨_, vmas, nvmas, _⟩ := done.records.fields
  have record := addArea_vmas t mm (anonArea start n prot user)
  rw [vmas, nvmas] at record
  exact owns_addArea live (fun k live r mem => ((spaces.space k live).named r mem).2) record
    fun k => (done.beside spaces live).live_iff

/-- All spaces stay as the invariant has them. -/
theorem Fresh.spaces (spaces : Spaces rs s lists areas) (live : s.Live mm)
    (done : Fresh rs s t (owns s areas) mm start n (pageFlags prot user) frame)
    (regular : Regular (anonArea start n prot user))
    (apart : ∀ r ∈ areas mm, ∀ k < n, ¬ InArea (s.vmas r) (pageAt start k)) :
    Spaces rs (t.addArea mm (anonArea start n prot user))
      (Function.update lists mm (s.nlis :: lists mm))
      (Function.update areas mm (s.nvmas :: areas mm)) := by
  have beside := done.beside spaces live
  have space := done.space spaces live regular apart
  have nonzero : mm ≠ 0 := Nat.ne_of_gt live.1
  have named := spaces.kernel.named
  refine ⟨?_, ?_, fun k lk => ?_, fun k ne dead v long => ?_, fun j k l lj lk hj hk => ?_,
    fun j k r lj lk hj hk => ?_, fun a ha => ?_, fun k mem => ?_⟩
  · rw [done.owned spaces live]
    exact done.tables.records (addArea_frames _) fun _ => insertVma_p4
  · refine spaces.kernel.congr (beside.heads 0 nonzero.symm) (fun l lt => ?_) (fun a ha => ?_)
      (fun v long => beside.slots 0 v long.le nonzero.symm) ?_
    · refine beside.nodes l (by omega) fun mem => ?_
      have := ((spaces.space mm live).listed.bound l mem).1
      omega
    · rw [beside.areas a (by omega)]
    · have := beside.live
      have := beside.more
      omega
  · by_cases here : k = mm
    · subst here
      rw [Function.update_self, Function.update_self]
      exact space
    · have lk := beside.live_iff.mp lk
      have other := spaces.space k lk
      rw [Function.update_of_ne here, Function.update_of_ne here]
      refine other.congr (beside.heads k here) (fun l mem => ?_) (fun r mem => ?_) beside.more.1
        beside.more.2 (fun v long => beside.slots k v long.le here)
        fun v long => beside.slots 0 v long.le nonzero.symm
      · refine beside.nodes l (other.listed.bound l mem).2 fun mine => ?_
        exact here (spaces.lisApart k mm l lk live mem mine)
      · exact beside.areas r (other.named r mem).2
  · have other : k ≠ mm := by
      rintro rfl
      exact dead (beside.live_iff.mpr live)
    rw [beside.slots k v long.le other]
    exact spaces.dead k ne (fun live => dead (beside.live_iff.mpr live)) v long
  · refine apart_cons live spaces.lisApart (fun k lk mem => ?_) (beside.live_iff.mp lj)
      (beside.live_iff.mp lk) hj hk
    exact Nat.lt_irrefl _ ((spaces.space k lk).listed.bound _ mem).2
  · refine apart_cons live spaces.regsApart (fun k lk mem => ?_) (beside.live_iff.mp lj)
      (beside.live_iff.mp lk) hj hk
    exact Nat.lt_irrefl _ ((spaces.space k lk).named _ mem).2
  · rw [beside.areas a (by omega), beside.lives]
    exact spaces.refcnt a ha
  · rw [beside.live.2] at mem
    rw [beside.live.1]
    exact spaces.freed k mem

theorem sticky_anonMmap {M : Meter Vmm} [frames : OfFrames rs M] :
    Sticky M (anonMmap rs mm start n prot user) :=
  .bind sticky_panicIf fun _ => .bind (.forTo fun _ => sticky_mapFresh) fun _ => .bind .get fun _ =>
    .bind (.modify fun _ => frames.rest rfl rfl) fun _ => sticky_mmInsertVma frames

/-- `anon_mmap`, as far as the tables go: fresh pages, then the record of the area. -/
theorem anonMmap_fresh {own : Nat → Path → Prop} (tables : Tables rs s own none none)
    (met : ¬ s.ranOut = true) (aligned : start % pageSize = 0) (few : n ≤ 2 ^ 19)
    (free : ∀ j < n, ¬ own mm (pageAt start j)) :
    Runs (meter rs) (anonMmap rs mm start n prot user) (n * 5) s fun _ s' =>
      ∃ t frame, Fresh rs s t own mm start n (pageFlags prot user) frame ∧
        s' = t.addArea mm (anonArea start n prot user) := by
  unfold anonMmap
  refine .step (panicIf_eq (not_not.mpr aligned)) (Nat.le_refl _) ?_
  refine .bind (k := 0) ((mapFresh_loop tables met few (pageFlags_lt prot user) free).imp ?_)
    fun _ => .bind .get fun _ => .bind (.modify fun _ out => out) fun _ =>
      sticky_mmInsertVma ofFrames_meter
  intro _ t ⟨frame, done⟩ met₁
  refine .of_get (.of_modify (Nat.le_refl _) ?_)
  have added : mmInsertVma mm t.nvmas { t with
      vmas := Function.update t.vmas t.nvmas (anonArea start n prot user), nvmas := t.nvmas + 1 } =
      .ok ((), t.addArea mm (anonArea start n prot user)) := rfl
  refine .done added ?_ ?_ ⟨t, frame, done, rfl⟩
  · simp only [meter, Vmm.addArea, insertVma_ranOut] at met₁ ⊢
    exact met₁
  · simp only [meter, addArea_frames]
    exact Nat.le_refl _

/-- `anon_mmap`. -/
theorem anonMmap_runs (spaces : Spaces rs s lists areas) (met : ¬ s.ranOut = true)
    (live : s.Live mm) (regular : Regular (anonArea start n prot user))
    (apart : ∀ r ∈ areas mm, ∀ k < n, ¬ InArea (s.vmas r) (pageAt start k)) :
    Runs (meter rs) (anonMmap rs mm start n prot user) (n * 5) s fun _ s' =>
      ∃ frame, Mmapped rs s s' lists areas mm start n prot user frame := by
  have nonzero : mm ≠ 0 := Nat.ne_of_gt live.1
  have range : Range start n := regular.range
  have free : ∀ j < n, ¬ owns s areas mm (pageAt start j) := by
    rintro j lt (⟨zero, _⟩ | ⟨_, r, mem, inside⟩)
    · exact nonzero zero
    · exact apart r mem j lt inside
  refine (anonMmap_fresh spaces.tables met range.aligned range.small free).imp ?_
  rintro _ s' ⟨t, frame, done, rfl⟩
  have beside := done.beside spaces live
  obtain ⟨_, _, nvmas, _, nlis, _⟩ := done.records.fields
  obtain ⟨_, _, nvmas', nlis', _⟩ := addArea_rest t mm (anonArea start n prot user)
  refine ⟨frame, beside, done.spaces spaces live regular apart, done.owned spaces live, done.area_new,
    by omega, fun k lt => ?_, fun v long out => ?_, done.isFrame, done.fresh, fun k lt a low high => ?_⟩
  · rw [addArea_slot]
    exact done.here k lt
  · apply done.slot_other long
    rintro ⟨k, lt, rfl⟩
    exact out k lt rfl
  · rw [addArea_frames]
    exact done.zeroed k lt a low high

/-- An `anon_mmap` that returned had an aligned range that its `int` offsets can reach. -/
theorem anonMmap_returned (ran : anonMmap rs mm start n prot user s = .ok ((), s')) :
    start % pageSize = 0 ∧ n ≤ 2 ^ 19 := by
  obtain ⟨_, s₁, first, rest⟩ := Budget.bind_eq_ok.mp ran
  obtain ⟨_, s₂, loop, _⟩ := Budget.bind_eq_ok.mp rest
  refine ⟨?_, ?_⟩
  · by_contra unaligned
    unfold panicIf at first
    rw [if_pos unaligned] at first
    cases first
  · by_contra large
    obtain ⟨k, rfl⟩ : ∃ k, n = k + 1 := ⟨n - 1, by omega⟩
    obtain ⟨_, s₃, _, last⟩ := Budget.bind_eq_ok.mp loop
    obtain ⟨_, s₄, offset, _⟩ := Budget.bind_eq_ok.mp last
    unfold intOffset at offset
    rw [if_neg (by simp only [pageSize]; omega)] at offset
    cases offset

end Blackcomb.Mm
