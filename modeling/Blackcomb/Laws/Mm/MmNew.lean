import Blackcomb.Laws.Mm.Mmap

/-!
# New spaces

`mm_new` shares the three areas of `kernel_mm`, one after the other: the pages of each get the
entries that `kernel_mm` has, in tables of the new space's own, and a node in front of its list.

The walk over the areas keeps `Building`: the first `n` are shared, the others are still to come,
and nothing of the other spaces has changed. After three of them the space is `Born`, and the
invariant of address spaces holds with it.

**What it does not establish.** The kernel's entries are copied once. A page that `kernel_mm` got
later would be missing in the spaces made before; the calls of the runs here give it none.
-/

namespace Blackcomb.Mm

open Memory Run Budget Ownership Chain

variable {rs : RegionTable} {s s' t t' : Vmm} {own : Nat → Path → Prop} {mm k n a : Nat}
  {lists areas : Nat → List Nat}

/-- What `mm_new` and `mm_dupe` leave alone: all there was, but for the counts of the kernel's
areas. -/
structure Around (s s' : Vmm) (own : Nat → Path → Prop) (mm : Nat) : Prop where
  slots : ∀ k p, p.length ≤ 4 → k ≠ mm → s'.slot k p = s.slot k p
  pages : ∀ g, PageFrame s own none g → SameFrame s.frames.mem s'.frames.mem g
  grows : s.frames.taken ⊆ s'.frames.taken
  heads : ∀ k, k ≠ mm → (s'.mms k).vmAreas = (s.mms k).vmAreas
  nodes : ∀ l < s.nlis, s'.lis l = s.lis l
  shapes : ∀ r < s.nvmas, (s'.vmas r).shape = (s.vmas r).shape
  areas : ∀ r < s.nvmas, 3 ≤ r → s'.vmas r = s.vmas r
  freed : s'.freedMms = s.freedMms
  heap : s'.freedVmas = s.freedVmas ∧ s'.freedLis = s.freedLis
  more : s.nlis ≤ s'.nlis ∧ s.nvmas ≤ s'.nvmas

/-- A space under construction: the first `a` of the kernel's areas are shared. -/
structure Building (rs : RegionTable) (s t : Vmm) (own : Nat → Path → Prop) (mm a : Nat) : Prop
    extends Around s t own mm where
  tables : Tables rs t own none none
  shared : ∀ b < a, ∀ v, InArea (kernelShape b) v → t.slot mm v = s.slot 0 v
  rest : ∀ v, v.length = 4 → (∀ b < a, ¬ InArea (kernelShape b) v) → t.slot mm v = 0
  nmms : t.nmms = s.nmms
  nvmas : t.nvmas = s.nvmas
  refcnt : ∀ b < 3, (t.vmas b).refcnt = (s.vmas b).refcnt + if b < a then 1 else 0
  nlis : t.nlis = s.nlis + a
  listed : Listed t mm ((List.range a).reverse.map (s.nlis + ·))
  vmas : t.vmasOf ((List.range a).reverse.map (s.nlis + ·)) = (List.range a).reverse

theorem pageFlags_kernel : pageFlags 3 false = 3 := by decide

theorem sticky_mmShareVma {M : Meter Vmm} [frames : OfFrames rs M] {dst src vma : Nat} :
    Sticky M (mmShareVma rs dst src vma) :=
  .bind .get fun _ => .bind (.forTo fun _ => .bind sticky_intOffset fun _ => .bind .get fun _ =>
    sticky_vmmMapPage) fun _ => sticky_mmInsertVma frames

section Share

variable (kernel : KernelSpace s) (new : mm ≠ 0) (unowned : ∀ v, ¬ own mm v)

include kernel new unowned

omit new in
/-- All but the new space is as it was, when the pages of one more area are shared and the area gets
its node. -/
theorem Building.around_insert (ha : a < 3) (done : Building rs s t own mm a)
    (shared : Shared rs t t' own mm (kernelShape a).start (kernelShape a).pages
      fun k => t.slot 0 (pageAt (kernelShape a).start k)) (grows : t.frames.taken ⊆ t'.frames.taken)
    (listed : Listed t' mm ((List.range a).reverse.map (s.nlis + ·))) :
    Around s (t'.insertVma mm a) own mm := by
  have named := kernel.named
  obtain ⟨_, vmas, nvmas, lis, nlis, freed, freedVmas, freedLis⟩ := shared.records.fields
  obtain ⟨_, nvmas', _, freed', freedVmas', freedLis'⟩ := insertVma_rest t' mm a
  refine ⟨fun k v long ne => ?_, fun g page x low high => ?_, fun f mem => ?_, fun k ne => ?_,
    fun l lt => ?_, fun r lt => ?_, fun r lt three => ?_, ?_, ?_, ?_⟩
  · rw [slot_records insertVma_frames fun _ => insertVma_p4, shared.trees k v ne long]
    exact done.slots k v long ne
  · have kept : PageFrame t own none g := by
      rcases page with free | ⟨j, v, long, owned, there, frame⟩
      · cases free
      · have differs : j ≠ mm := by
          rintro rfl
          exact unowned v owned
        refine .inr ⟨j, v, long, owned, ?_⟩
        rw [done.slots j v long.le differs]
        exact ⟨there, frame⟩
    rw [insertVma_frames, shared.pages g kept x low high]
    exact done.pages g page x low high
  · rw [insertVma_frames]
    exact grows (done.grows mem)
  · rw [insertVma_mms, Function.update_of_ne ne, shared.records.areas k]
    exact done.heads k ne
  · have old : l ≠ t'.nlis := by
      have := done.nlis
      omega
    have out : l ∉ (List.range a).reverse.map (s.nlis + ·) := by
      intro mem
      obtain ⟨i, _, rfl⟩ := List.mem_map.mp mem
      omega
    rw [listed.insert_other old out, lis]
    exact done.nodes l lt
  · rw [insertVma_vmas, Function.update_apply, vmas]
    split
    · rename_i eq
      rw [eq]
      exact done.shapes a (by omega)
    · exact done.shapes r lt
  · rw [insertVma_vmas, Function.update_of_ne (by omega), vmas]
    exact done.areas r lt three
  · exact (freed'.trans freed).trans done.freed
  · exact ⟨(freedVmas'.trans freedVmas).trans done.heap.1,
      (freedLis'.trans freedLis).trans done.heap.2⟩
  · have := done.more
    rw [insertVma_nlis, nvmas']
    omega

/-- One more area is shared. -/
theorem Building.insert (ha : a < 3) (done : Building rs s t own mm a)
    (shared : Shared rs t t' own mm (kernelShape a).start (kernelShape a).pages
      fun k => t.slot 0 (pageAt (kernelShape a).start k)) (grows : t.frames.taken ⊆ t'.frames.taken) :
    Building rs s (t'.insertVma mm a) own mm (a + 1) := by
  have named := kernel.named
  obtain ⟨nmms, vmas, nvmas, lis, nlis, _⟩ := shared.records.fields
  obtain ⟨nmms', nvmas', _⟩ := insertVma_rest t' mm a
  have slots : ∀ k p, (t'.insertVma mm a).slot k p = t'.slot k p :=
    slot_records insertVma_frames fun _ => insertVma_p4
  have listed : Listed t' mm ((List.range a).reverse.map (s.nlis + ·)) :=
    done.listed.congr (shared.records.areas mm) (fun l _ => congrFun lis l) (Nat.le_of_eq nlis.symm)
  have reversed : (List.range (a + 1)).reverse.map (s.nlis + ·) =
      t'.nlis :: (List.range a).reverse.map (s.nlis + ·) := by
    rw [List.range_succ, List.reverse_append, nlis, done.nlis]
    rfl
  have static : 3 ≤ t'.nlis := by
    have := done.nlis
    omega
  -- the pages of the other kernel areas are none of this one's
  have other : ∀ v, v.length = 4 → ¬ InArea (kernelShape a) v → t'.slot mm v = t.slot mm v :=
    fun v long out => shared.others mm v long fun same => out same.2
  refine ⟨done.around_insert kernel unowned ha shared grows listed, ?_, fun b hb v inside => ?_,
    fun v long out => ?_, ?_, ?_, fun b hb => ?_, ?_, ?_, ?_⟩
  · exact shared.tables.records insertVma_frames fun _ => insertVma_p4
  · rw [slots]
    by_cases last : b = a
    · subst last
      obtain ⟨i, lt, rfl⟩ := inside
      rw [shared.here i lt]
      exact done.slots 0 _ (pageAt_length _ i).le new.symm
    · rw [other v inside.length fun here => last (kernelShape_apart (by omega) ha inside here)]
      exact done.shared b (by omega) v inside
  · rw [slots, other v long (out a (Nat.lt_succ_self a))]
    exact done.rest v long fun b hb => out b (by omega)
  · exact (nmms'.trans nmms).trans done.nmms
  · exact (nvmas'.trans nvmas).trans done.nvmas
  · rw [insertVma_vmas, Function.update_apply, vmas]
    split
    · rename_i eq
      subst eq
      have before := done.refcnt b hb
      rw [if_neg (Nat.lt_irrefl b)] at before
      rw [if_pos (Nat.lt_succ_self b)]
      dsimp only
      omega
    · rename_i ne
      rw [done.refcnt b hb]
      have : b < a ↔ b < a + 1 := by omega
      simp only [this]
  · rw [insertVma_nlis, nlis, done.nlis]
    rfl
  · rw [reversed]
    exact listed.insert static
  · rw [reversed, listed.vmasOf_insert, List.range_succ, List.reverse_append]
    have old := done.vmas
    simp only [Vmm.vmasOf, lis] at old ⊢
    rw [old]
    rfl

/-- `mm_share_vma` of one of the kernel's areas. -/
theorem mmShareVma_runs (ha : a < 3) (met : ¬ t.ranOut = true) (done : Building rs s t own mm a) :
    Runs (meter rs) (mmShareVma rs mm 0 a) ((kernelShape a).pages * 4) t fun _ t' =>
      Building rs s t' own mm (a + 1) := by
  have named := kernel.named
  have shape : (t.vmas a).shape = (kernelShape a).shape := by
    rw [done.shapes a (by omega), kernel.shape a ha]
    unfold kernelShape
    split <;> rfl
  obtain ⟨_, start, pages, user, prot⟩ := VmArea.shape_inj shape
  have kuser : (kernelShape a).user = false := by
    unfold kernelShape
    split <;> rfl
  have kprot : (kernelShape a).prot = 3 := by
    unfold kernelShape
    split <;> rfl
  have mapped : ∀ k < (kernelShape a).pages, t.slot 0 (pageAt (kernelShape a).start k) ≠ 0 ∧
      t.slot 0 (pageAt (kernelShape a).start k) % pageSize = 3 := by
    intro k lt
    rw [done.slots 0 _ (pageAt_length _ k).le new.symm]
    exact kernel.mapped a ha _ ⟨k, lt, rfl⟩
  unfold mmShareVma
  refine .of_get ?_
  dsimp only
  rw [start, pages, user, prot, kuser, kprot, pageFlags_kernel]
  refine .bind (k := 0) ((share_loop done.tables met new.symm (kernelShape_range a) (by decide)
    (fun k lt => (mapped k lt).1) (fun k lt => (mapped k lt).2) fun _ _ => unowned _).imp ?_)
    fun _ => sticky_mmInsertVma ofFrames_meter
  intro _ t' ⟨shared, grows⟩ met'
  have added : mmInsertVma mm a t' = .ok ((), t'.insertVma mm a) := rfl
  refine .done added ?_ ?_ (done.insert kernel new unowned ha shared grows)
  · simp only [meter, insertVma_ranOut] at met' ⊢
    exact met'
  · simp only [meter, insertVma_frames]
    exact Nat.le_refl _

/-- `mm_init`. -/
theorem mmInit_runs (met : ¬ s.ranOut = true) (start : Building rs s s own mm 0) :
    Runs (meter rs) (mmInit rs mm) 6656 s fun _ s' => Building rs s s' own mm 3 := by
  have named := kernel.named
  have node : ∀ a < 3, (s.lis a).vma = a ∧ (s.lis a).next = ([0, 1, 2].drop (a + 1)).head? := by
    obtain ⟨zero, one, two⟩ := kernel.lis
    intro a ha
    obtain rfl | rfl | rfl : a = 0 ∨ a = 1 ∨ a = 2 := by omega
    · rw [zero]
      exact ⟨rfl, rfl⟩
    · rw [one]
      exact ⟨rfl, rfl⟩
    · rw [two]
      exact ⟨rfl, rfl⟩
  unfold mmInit forAreas
  refine .of_get ?_
  rw [show (s.mms 0).vmAreas = [0, 1, 2].head? from kernel.head]
  have enough : [0, 1, 2].length ≤ s.nlis := named.2.2
  refine (walkAreas_runs (fun ls t => ∃ a ≤ 3, ls = [0, 1, 2].drop a ∧ Building rs s t own mm a)
    (fun l => (kernelShape l).pages * 4) (fun _ => sticky_mmShareVma) (fun _ => .pure ()) ?_ enough met
    ⟨0, by decide, rfl, start⟩).imp ?_
  · intro l ls t met ⟨a, le, nodes, done⟩
    have lt : a < 3 := by
      rcases Nat.lt_or_eq_of_le le with lt | rfl
      · exact lt
      · cases nodes
    obtain ⟨rfl, rfl⟩ : l = a ∧ ls = [0, 1, 2].drop (a + 1) := by
      obtain rfl | rfl | rfl : a = 0 ∨ a = 1 ∨ a = 2 := by omega
      all_goals exact List.cons.inj nodes
    obtain ⟨vma, next⟩ := node l lt
    rw [done.nodes l (by omega), vma]
    refine (mmShareVma_runs kernel new unowned lt met done).imp ?_
    intro _ t' done'
    rw [done'.nodes l (by omega)]
    exact ⟨next, fun met' => .pure met' ⟨l + 1, lt, rfl, done'⟩⟩
  · intro _ s' ⟨a, le, nodes, done⟩
    obtain rfl : a = 3 := by
      have := congrArg List.length nodes
      simp only [List.length_nil, List.length_drop, List.length_cons] at this
      omega
    exact done

end Share

/-! ## mm_new -/

/-- What `mm_new` did. -/
structure Born (rs : RegionTable) (s s' : Vmm) (lists regs : Nat → List Nat) : Prop
    extends Around s s' (owns s regs) s.nmms where
  spaces : Spaces rs s' (Function.update lists s.nmms [s.nlis + 2, s.nlis + 1, s.nlis])
    (Function.update regs s.nmms [])
  nmms : s'.nmms = s.nmms + 1
  nlis : s'.nlis = s.nlis + 3
  nvmas : s'.nvmas = s.nvmas

/-- The state right after `kcalloc` of the new `struct mm`. -/
def Vmm.withMm (s : Vmm) : Vmm :=
  { s with mms := Function.update s.mms s.nmms {}, nmms := s.nmms + 1 }

/-- The next record is no live space. -/
theorem Vmm.not_live (s : Vmm) : ¬ s.Live s.nmms := fun live => Nat.lt_irrefl _ live.2.1

section New

variable (spaces : Spaces rs s lists areas)

include spaces

theorem Spaces.withMm_p4 (k : Nat) : (s.withMm.mms k).p4 = (s.mms k).p4 := by
  simp only [Vmm.withMm, Function.update_apply]
  split
  · rename_i here
    subst here
    have nonzero : s.nmms ≠ 0 := Nat.ne_of_gt spaces.kernel.named.1
    exact (spaces.tables.no_tables (spaces.dead _ nonzero s.not_live)).symm
  · rfl

theorem Spaces.withMm_slot (k : Nat) (p : Path) : s.withMm.slot k p = s.slot k p :=
  slot_records (s := s) (t := s.withMm) rfl spaces.withMm_p4 k p

/-- The next space owns nothing yet. -/
theorem Spaces.unowned (v : Path) : ¬ owns s areas s.nmms v := by
  rintro (⟨zero, _⟩ | ⟨live, _⟩)
  · exact Nat.ne_of_gt spaces.kernel.named.1 zero
  · exact s.not_live live

/-- Before the first area is shared. -/
theorem Spaces.building : Building rs s.withMm s.withMm (owns s areas) s.nmms 0 := by
  have nonzero : s.nmms ≠ 0 := Nat.ne_of_gt spaces.kernel.named.1
  refine ⟨⟨fun _ _ _ _ => rfl, fun _ _ _ _ _ => rfl, fun _ mem => mem, fun _ _ => rfl,
    fun _ _ => rfl, fun _ _ => rfl, fun _ _ _ => rfl, rfl, ⟨rfl, rfl⟩, Nat.le_refl _,
    Nat.le_refl _⟩,
    spaces.tables.records rfl spaces.withMm_p4, fun b hb => absurd hb (Nat.not_lt_zero b),
    fun v long _ => ?_, rfl, rfl, fun b _ => ?_, rfl, ?_, rfl⟩
  · rw [spaces.withMm_slot]
    exact spaces.dead _ nonzero s.not_live v long
  · rw [if_neg (Nat.not_lt_zero b), Int.add_zero]
  · refine ⟨?_, trivial, List.nodup_nil, fun l mem => absurd mem List.not_mem_nil⟩
    simp [Vmm.withMm]

/-- The other spaces are as they were. -/
theorem Spaces.around (done : Building rs s.withMm s' (owns s areas) s.nmms 3) :
    Around s s' (owns s areas) s.nmms := by
  refine ⟨fun k v long ne => ?_, fun g page => ?_, done.grows, fun k ne => ?_, done.nodes,
    done.shapes, done.areas, done.freed, done.heap, done.more⟩
  · rw [done.slots k v long ne, spaces.withMm_slot]
  · exact done.pages g (page.congr fun k v _ => spaces.withMm_slot k v)
  · rw [done.heads k ne]
    simp [Vmm.withMm, Function.update_of_ne ne]

/-- A space more is live. -/
theorem Spaces.live_succ (nmms : s'.nmms = s.nmms + 1) (freed : s'.freedMms = s.freedMms) :
    s'.Live k ↔ s.Live k ∨ k = s.nmms :=
  Vmm.live_succ spaces.kernel.named.1 spaces.freed nmms freed

/-- The new space has the kernel's three areas. -/
theorem Spaces.born_space (done : Building rs s.withMm s' (owns s areas) s.nmms 3) :
    Space s' s.nmms [s.nlis + 2, s.nlis + 1, s.nlis] [] := by
  have around := spaces.around done
  have nonzero : s.nmms ≠ 0 := Nat.ne_of_gt spaces.kernel.named.1
  refine ⟨done.listed, done.vmas, List.nodup_nil, ?_, ?_, ?_, ?_, ?_, ?_, ?_⟩
  · exact fun r mem => absurd mem List.not_mem_nil
  · exact fun r mem => absurd mem List.not_mem_nil
  · exact fun r mem => absurd mem List.not_mem_nil
  · exact fun r mem => absurd mem List.not_mem_nil
  · exact fun r mem => absurd mem List.not_mem_nil
  · intro a ha v inside
    rw [done.shared a ha v inside, spaces.withMm_slot, around.slots 0 v inside.length.le nonzero.symm]
  · intro v long _ out
    exact done.rest v long out

/-- After the third area the new space is complete. -/
theorem Spaces.born (done : Building rs s.withMm s' (owns s areas) s.nmms 3) :
    Born rs s s' lists areas := by
  have around := spaces.around done
  have named := spaces.kernel.named
  have nonzero : s.nmms ≠ 0 := Nat.ne_of_gt named.1
  have live : ∀ {k}, s'.Live k ↔ s.Live k ∨ k = s.nmms := spaces.live_succ done.nmms done.freed
  have old : ∀ {k}, s'.Live k → k ≠ s.nmms → s.Live k := fun lk ne =>
    (live.mp lk).resolve_right ne
  have nlis : s'.nlis = s.nlis + 3 := done.nlis
  have owned : owns s' (Function.update areas s.nmms []) = owns s areas := by
    funext k v
    apply propext
    rw [owns, owns]
    apply or_congr_right
    by_cases here : k = s.nmms
    · subst here
      simp [s.not_live]
    · rw [Function.update_of_ne here, live]
      simp only [here, or_false]
      apply and_congr_right
      intro lk
      exact exists_inArea_congr fun r mem =>
        around.areas r ((spaces.space k lk).named r mem).2 ((spaces.space k lk).named r mem).1
  refine ⟨around, ⟨?_, ?_, fun k lk => ?_, fun k ne dead v long => ?_, fun j k l lj lk hj hk => ?_,
    fun j k r lj lk hj hk => ?_, fun a ha => ?_, fun k mem => ?_⟩, done.nmms, nlis, done.nvmas⟩
  · rw [owned]
    exact done.tables
  · refine spaces.kernel.congr (around.heads 0 nonzero.symm) (fun l lt => ?_) (fun a ha => ?_)
      (fun v long => around.slots 0 v long.le nonzero.symm) ?_
    · exact around.nodes l (by omega)
    · exact around.shapes a (by omega)
    · have nmms : s'.nmms = s.nmms + 1 := done.nmms
      have := around.more
      omega
  · by_cases here : k = s.nmms
    · subst here
      rw [Function.update_self, Function.update_self]
      exact spaces.born_space done
    · have other := spaces.space k (old lk here)
      rw [Function.update_of_ne here, Function.update_of_ne here]
      refine other.congr (around.heads k here) (fun l mem => ?_) (fun r mem => ?_) around.more.1
        around.more.2 (fun v long => around.slots k v long.le here)
        fun v long => around.slots 0 v long.le nonzero.symm
      · exact around.nodes l (other.listed.bound l mem).2
      · exact around.areas r (other.named r mem).2 (other.named r mem).1
  · have here : k ≠ s.nmms := fun eq => dead (live.mpr (.inr eq))
    rw [around.slots k v long.le here]
    exact spaces.dead k ne (fun lk => dead (live.mpr (.inl lk))) v long
  · -- the nodes of the new list are new
    refine apart_update spaces.lisApart (fun l mine k lk _ mem => ?_) (fun _ ne lk => old lk ne) lj lk
      hj hk
    have bound := ((spaces.space k lk).listed.bound l mem).2
    simp only [List.mem_cons, List.not_mem_nil, or_false] at mine
    omega
  · exact apart_update spaces.regsApart (fun r mine => absurd mine List.not_mem_nil)
      (fun _ ne lk => old lk ne) lj lk hj hk
  · rw [done.refcnt a ha, if_pos ha, Vmm.card_lives_succ live,
      show (s.withMm.vmas a).refcnt = _ from spaces.refcnt a ha]
    rfl
  · have nmms : s'.nmms = s.nmms + 1 := done.nmms
    have freed : s'.freedMms = s.freedMms := done.freed
    rw [freed] at mem
    have := spaces.freed k mem
    omega

/-- One space more is live. -/
theorem Born.live_iff (born : Born rs s s' lists areas) : s'.Live k ↔ s.Live k ∨ k = s.nmms :=
  spaces.live_succ born.nmms born.freed

end New

theorem sticky_forAreas {M : Meter Vmm} {body after : Nat → Op Unit}
    (each : ∀ a, Sticky M (body a)) (then_ : ∀ l, Sticky M (after l)) :
    Sticky M (forAreas mm body after) :=
  .bind .get fun _ => sticky_walkAreas each then_

theorem sticky_mmNew {M : Meter Vmm} [frames : OfFrames rs M] : Sticky M (mmNew rs) :=
  .bind .get fun _ => .bind (.modify fun _ => frames.rest rfl rfl) fun _ =>
    .bind (sticky_forAreas (fun _ => sticky_mmShareVma) fun _ => .pure ()) fun _ => .pure _

/-- `mm_new`. -/
theorem mmNew_runs (spaces : Spaces rs s lists areas) (met : ¬ s.ranOut = true) :
    Runs (meter rs) (mmNew rs) 6656 s fun mm s' => mm = s.nmms ∧ Born rs s s' lists areas := by
  have nonzero : s.nmms ≠ 0 := Nat.ne_of_gt spaces.kernel.named.1
  have kernel : KernelSpace s.withMm := by
    refine spaces.kernel.congr ?_ (fun _ _ => rfl) (fun _ _ => rfl)
      (fun v _ => spaces.withMm_slot 0 v) ⟨Nat.le_succ _, Nat.le_refl _, Nat.le_refl _⟩
    simp [Vmm.withMm, Function.update_of_ne nonzero.symm]
  unfold mmNew
  refine .of_get (.of_modify (Nat.le_refl _) ?_)
  refine .bind (k := 0) ((mmInit_runs kernel nonzero spaces.unowned met spaces.building).imp ?_)
    fun _ => .pure _
  intro _ s' done met'
  exact .pure met' ⟨rfl, spaces.born done⟩

end Blackcomb.Mm
