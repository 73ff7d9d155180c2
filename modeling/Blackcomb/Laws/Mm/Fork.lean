import Blackcomb.Laws.Mm.MmNew

/-!
# Copying a space

`mm_dupe` makes a new space and walks the areas of the old one: a regular area is mapped anew in the
new space, on fresh frames, and its bytes are copied. The invariant of the walk says of the areas
already done that their pages have fresh frames with the bytes they had when `mm_dupe` was called,
and of everything else that it is as it was then.

**What it does not establish.** Frames suffice for the copy. What becomes of a copy that runs out is
in `Exhaustion`.
-/

namespace Blackcomb.Mm

open Memory Run Budget Ownership Chain

variable {rs : RegionTable} {s s' t t₁ t₂ : Vmm} {mm k n r : Nat} {v : Path}
  {lists areas lists' areas' : Nat → List Nat} {done : List Nat}

/-- Writing pages keeps the invariant. -/
theorem Spaces.setMem {m' : Bytes} (spaces : Spaces rs s lists areas)
    (tables : Tables rs (s.setMem m') (owns s areas) none none)
    (same : ∀ k p, p.length ≤ 4 → (s.setMem m').slot k p = s.slot k p) :
    Spaces rs (s.setMem m') lists areas := by
  have leaf : ∀ k v, v.length = 4 → (s.setMem m').slot k v = s.slot k v := fun k v long =>
    same k v (Nat.le_of_eq long)
  refine ⟨tables, ?_, fun k live => ?_, fun k ne dead v long => ?_, spaces.lisApart,
    spaces.regsApart, spaces.refcnt, spaces.freed⟩
  · exact spaces.kernel.congr rfl (fun _ _ => rfl) (fun _ _ => rfl) (fun v => leaf 0 v)
      ⟨Nat.le_refl _, Nat.le_refl _, Nat.le_refl _⟩
  · exact (spaces.space k live).congr rfl (fun _ _ => rfl) (fun _ _ => rfl) (Nat.le_refl _)
      (Nat.le_refl _) (fun v => leaf k v) fun v => leaf 0 v
  · rw [leaf k v long]
    exact spaces.dead k ne dead v long

/-- A page of the new space that was copied: same flags, a frame that was free, the same bytes. -/
structure PageCopied (s t : Vmm) (mm new : Nat) (v : Path) : Prop where
  there : t.slot new v ≠ 0
  flags : t.slot new v % pageSize = s.slot mm v % pageSize
  fresh : pageOf (t.slot new v) ∉ s.frames.taken
  bytes : ∀ o < pageSize,
    t.frames.mem (pageOf (t.slot new v) + o) = s.frames.mem (pageOf (s.slot mm v) + o)

/-- `mm_dupe` under way: the regular areas `done` of the space `mm` are copied, latest first. -/
structure Copying (rs : RegionTable) (s t : Vmm) (lists regs lists' regs' : Nat → List Nat)
    (mm : Nat) (done : List Nat) : Prop extends Around s t (owns s regs) s.nmms where
  spaces : Spaces rs t lists' regs'
  same : ∀ k, k ≠ s.nmms → lists' k = lists k ∧ regs' k = regs k
  nodesMade : ∀ l, l ∈ lists' s.nmms ↔ s.nlis ≤ l ∧ l < t.nlis
  areasMade : ∀ r, r ∈ regs' s.nmms ↔ s.nvmas ≤ r ∧ r < t.nvmas
  copies : (regs' s.nmms).map (fun r => (t.vmas r).shape) = done.map fun r => (s.vmas r).shape
  nmms : t.nmms = s.nmms + 1
  copied : ∀ r ∈ done, ∀ v, InArea (s.vmas r) v → PageCopied s t mm s.nmms v

namespace Copying

theorem live_iff (copying : Copying rs s t lists areas lists' areas' mm done)
    (spaces : Spaces rs s lists areas) : t.Live k ↔ s.Live k ∨ k = s.nmms :=
  spaces.live_succ copying.nmms copying.freed

/-- The pages of the other spaces are owned as they were. -/
theorem owns_iff (copying : Copying rs s t lists areas lists' areas' mm done)
    (spaces : Spaces rs s lists areas) (ne : k ≠ s.nmms) :
    owns t areas' k v ↔ owns s areas k v := by
  rw [owns, owns, (copying.same k ne).2, copying.live_iff spaces]
  simp only [ne, or_false]
  apply or_congr_right
  apply and_congr_right
  intro live
  exact exists_inArea_congr fun r mem =>
    copying.areas r ((spaces.space k live).named r mem).2 ((spaces.space k live).named r mem).1

/-- So the pages there were are still pages. -/
theorem pageFrame {g : Nat} (copying : Copying rs s t lists areas lists' areas' mm done)
    (spaces : Spaces rs s lists areas) (page : PageFrame s (owns s areas) none g) :
    ∃ k v, k ≠ s.nmms ∧ v.length = 4 ∧ owns t areas' k v ∧ t.slot k v ≠ 0 ∧
      pageOf (t.slot k v) = g := by
  rcases page with free | ⟨k, v, long, owned, there, frame⟩
  · cases free
  · have ne : k ≠ s.nmms := by
      rintro rfl
      exact spaces.unowned v owned
    have same := copying.slots k v long.le ne
    refine ⟨k, v, ne, long, (copying.owns_iff spaces ne).mpr owned, ?_⟩
    rw [same]
    exact ⟨there, frame⟩

end Copying

theorem Born.copying (born : Born rs s t lists areas) (mm : Nat) :
    Copying rs s t lists areas (Function.update lists s.nmms [s.nlis + 2, s.nlis + 1, s.nlis])
      (Function.update areas s.nmms []) mm [] := by
  refine ⟨born.toAround, born.spaces, fun k ne => ?_, fun l => ?_, fun r => ?_, ?_, born.nmms,
    fun r mem => absurd mem List.not_mem_nil⟩
  · rw [Function.update_of_ne ne, Function.update_of_ne ne]
    exact ⟨rfl, rfl⟩
  · rw [Function.update_self, born.nlis]
    simp only [List.mem_cons, List.not_mem_nil, or_false]
    omega
  · rw [Function.update_self, born.nvmas]
    simp only [List.not_mem_nil, false_iff, not_and]
    omega
  · rw [Function.update_self]
    rfl

/-- A page already copied is owned by the new space. -/
theorem Copying.done_owned {d : Nat} (copying : Copying rs s t lists areas lists' areas' mm done)
    (spaces : Spaces rs s lists areas) (memD : d ∈ done) (inside : InArea (s.vmas d) v) :
    owns t areas' s.nmms v := by
  have shape := List.mem_map_of_mem (f := fun r => (s.vmas r).shape) memD
  rw [← copying.copies] at shape
  obtain ⟨a, memA, same⟩ := List.mem_map.mp shape
  exact .inr ⟨(copying.live_iff spaces).mpr (.inr rfl), a, memA, (inArea_congr same).mpr inside⟩

/-- A page of an area already copied is none of the next one's. -/
theorem Copying.next_apart (copying : Copying rs s t lists areas lists' areas' mm done)
    (spaces : Spaces rs s lists areas) (live : s.Live mm) (mem : r ∈ areas mm) (out : r ∉ done)
    (sub : ∀ d ∈ done, d ∈ areas mm) (inside : ∃ a ∈ areas' s.nmms, InArea (t.vmas a) v) :
    ¬ InArea (s.vmas r) v := by
  intro inR
  obtain ⟨a, memA, inA⟩ := inside
  have shape := List.mem_map_of_mem (f := fun r => (t.vmas r).shape) memA
  rw [copying.copies] at shape
  obtain ⟨d, memD, same⟩ := List.mem_map.mp shape
  have inD : InArea (s.vmas d) v := (inArea_congr same).mpr inA
  exact out ((spaces.space mm live).apart r mem d (sub d memD) v inR inD ▸ memD)

section Area

variable {frame : Nat → Nat}
  (mapped : Mmapped rs t t₁ lists' areas' s.nmms (s.vmas r).start (s.vmas r).pages
    (s.vmas r).prot (s.vmas r).user frame)
  (copied : Copied rs t₁ t₂ (owns t₁ (Function.update areas' s.nmms (t.nvmas :: areas' s.nmms)))
    s.nmms mm (s.vmas r).start (s.vmas r).pages)

include mapped copied

/-- A page that is none of the next area's keeps its bytes. -/
theorem Copied.keeps {g : Nat} (long : v.length = 4) (owned : owns t areas' k v)
    (there : t.slot k v ≠ 0) (frame : pageOf (t.slot k v) = g)
    (other : k ≠ s.nmms ∨ ¬ InArea (s.vmas r) v) :
    t₁.slot k v = t.slot k v ∧ SameFrame t.frames.mem t₂.frames.mem g := by
  have slot : t₁.slot k v = t.slot k v := by
    by_cases new : k = s.nmms
    · subst new
      refine mapped.others v long fun j lt eq => ?_
      exact (other.resolve_left fun ne => ne rfl) ⟨j, lt, eq⟩
    · exact mapped.slots k v long.le new
  have owned₁ : owns t₁ (Function.update areas' s.nmms (t.nvmas :: areas' s.nmms)) k v := by
    rw [mapped.owned]
    exact .inl owned
  have there₁ : t₁.slot k v ≠ 0 := by rwa [slot]
  have frame₁ : pageOf (t₁.slot k v) = g := by rwa [slot]
  have differs : ∀ j < (s.vmas r).pages, g ≠ pageOf (t₁.slot s.nmms (pageAt (s.vmas r).start j)) := by
    intro j lt
    have ownedJ : owns t₁ (Function.update areas' s.nmms (t.nvmas :: areas' s.nmms)) s.nmms
        (pageAt (s.vmas r).start j) := by
      rw [mapped.owned]
      exact .inr ⟨rfl, j, lt, rfl⟩
    have thereJ : t₁.slot s.nmms (pageAt (s.vmas r).start j) ≠ 0 := by
      rw [mapped.here j lt]
      exact or_ne_zero (Nat.ne_of_gt (mapped.isFrame j lt).pos)
    have roles : ¬ (k = s.nmms ∧ v = pageAt (s.vmas r).start j) := by
      rintro ⟨new, path⟩
      rcases other with ne | outside
      · exact ne new
      · exact outside ⟨j, lt, path⟩
    rw [← frame₁]
    exact mapped.spaces.tables.page_ne long (pageAt_length _ j) owned₁ ownedJ there₁ thereJ roles
  refine ⟨slot, fun a low high => ?_⟩
  rw [copied.kept g (.inr ⟨k, v, long, owned₁, there₁, frame₁⟩) differs a low high]
  exact mapped.pages g (.inr ⟨k, v, long, owned, there, frame⟩) a low high

/-- All but the new space is as it was before. -/
theorem Copying.around_area (copying : Copying rs s t lists areas lists' areas' mm done)
    (spaces : Spaces rs s lists areas) : Around s t₂ (owns s areas) s.nmms := by
  have state := copied.state
  have vmas : t₂.vmas = t₁.vmas := by rw [state]; rfl
  have lis : t₂.lis = t₁.lis := by rw [state]; rfl
  have first := copying.more
  have second := mapped.more
  refine ⟨fun k v long ne => ?_, fun g page a low high => ?_, fun f held => ?_, fun k ne => ?_,
    fun l lt => ?_, fun a lt => ?_, fun a lt three => ?_, ?_, ?_, ?_⟩
  · rw [copied.slots k v long, mapped.slots k v long ne]
    exact copying.slots k v long ne
  · obtain ⟨k, v, ne, long, owned, there, frame⟩ := copying.pageFrame spaces page
    rw [(copied.keeps mapped long owned there frame (.inl ne)).2 a low high]
    exact copying.pages g page a low high
  · rw [state]
    exact mapped.grows (copying.grows held)
  · rw [state]
    exact (mapped.heads k ne).trans (copying.heads k ne)
  · have out : l ∉ lists' s.nmms := fun here =>
      Nat.not_lt.mpr ((copying.nodesMade l).mp here).1 lt
    rw [lis, mapped.nodes l (by omega) out]
    exact copying.nodes l lt
  · rw [vmas, mapped.areas a (by omega)]
    exact copying.shapes a lt
  · rw [vmas, mapped.areas a (by omega)]
    exact copying.areas a lt three
  · rw [state]
    exact mapped.live.2.trans copying.freed
  · rw [state]
    exact ⟨mapped.heap.1.trans copying.heap.1, mapped.heap.2.trans copying.heap.2⟩
  · rw [state]
    exact ⟨Nat.le_trans first.1 second.1, Nat.le_trans first.2 second.2⟩

/-- The pages of the area are copied. -/
theorem Copying.page_new (copying : Copying rs s t lists areas lists' areas' mm done)
    (spaces : Spaces rs s lists areas) (live : s.Live mm) (mem : r ∈ areas mm)
    (inside : InArea (s.vmas r) v) : PageCopied s t₂ mm s.nmms v := by
  have parent : mm ≠ s.nmms := Nat.ne_of_lt live.2.1
  obtain ⟨there, flags⟩ := (spaces.space mm live).mapped r mem v inside
  have page : PageFrame s (owns s areas) none (pageOf (s.slot mm v)) :=
    .inr ⟨mm, v, inside.length, .inr ⟨live, r, mem, inside⟩, there, rfl⟩
  obtain ⟨j, lt, rfl⟩ := inside
  have long := pageAt_length (s.vmas r).start j
  have aligned := (mapped.isFrame j lt).aligned
  have small := pageFlags_lt (s.vmas r).prot (s.vmas r).user
  have source : t₁.slot mm (pageAt (s.vmas r).start j) = s.slot mm (pageAt (s.vmas r).start j) :=
    (mapped.slots mm _ long.le parent).trans (copying.slots mm _ long.le parent)
  have target : t₂.slot s.nmms (pageAt (s.vmas r).start j) =
      t₁.slot s.nmms (pageAt (s.vmas r).start j) := copied.slots _ _ long.le
  refine ⟨?_, ?_, ?_, fun o small => ?_⟩
  · rw [target, mapped.here j lt]
    exact or_ne_zero (Nat.ne_of_gt (mapped.isFrame j lt).pos)
  · rw [target, mapped.here j lt, or_mod aligned small, flags]
  · rw [target, mapped.here j lt, pageOf_or aligned small]
    exact fun held => mapped.fresh j lt (copying.grows held)
  · obtain ⟨k, v, _, longV, owned, thereV, frame⟩ := copying.pageFrame spaces page
    have kept := mapped.pages _ (.inr ⟨k, v, longV, owned, thereV, frame⟩)
    rw [target, copied.copied j lt o small, source, kept _ (by omega) (by omega)]
    exact copying.pages _ page _ (by omega) (by omega)

/-- Those of the areas before stay so. -/
theorem Copying.page_old {d : Nat} (copying : Copying rs s t lists areas lists' areas' mm done)
    (spaces : Spaces rs s lists areas) (memD : d ∈ done) (inside : InArea (s.vmas d) v)
    (apart : ¬ InArea (s.vmas r) v) : PageCopied s t₂ mm s.nmms v := by
  have before := copying.copied d memD v inside
  obtain ⟨slot, kept⟩ := copied.keeps mapped inside.length (copying.done_owned spaces memD inside)
    before.there rfl (.inr apart)
  have same : t₂.slot s.nmms v = t.slot s.nmms v :=
    (copied.slots _ v inside.length.le).trans slot
  refine ⟨?_, ?_, ?_, fun o small => ?_⟩
  · rw [same]
    exact before.there
  · rw [same]
    exact before.flags
  · rw [same]
    exact before.fresh
  · rw [same, kept _ (by omega) (by omega)]
    exact before.bytes o small

/-- One more area is copied. -/
theorem Copying.area (copying : Copying rs s t lists areas lists' areas' mm done)
    (spaces : Spaces rs s lists areas) (live : s.Live mm) (mem : r ∈ areas mm) (out : r ∉ done)
    (sub : ∀ d ∈ done, d ∈ areas mm) :
    Copying rs s t₂ lists areas (Function.update lists' s.nmms (t.nlis :: lists' s.nmms))
      (Function.update areas' s.nmms (t.nvmas :: areas' s.nmms)) mm (r :: done) := by
  have space := spaces.space mm live
  have regular := space.regular r mem
  have state := copied.state
  have vmas : t₂.vmas = t₁.vmas := by rw [state]; rfl
  have new : t.Live s.nmms := (copying.live_iff spaces).mpr (.inr rfl)
  have old : ∀ a ∈ areas' s.nmms, t₁.vmas a = t.vmas a := fun a memA =>
    mapped.areas a ((copying.spaces.space _ new).named a memA).2
  refine ⟨copying.around_area mapped copied spaces, ?_, fun k ne => ?_, fun l => ?_, fun a => ?_, ?_,
    ?_, fun d memD v inside => ?_⟩
  · have tables := copied.tables
    have same := copied.slots
    rw [state] at tables same ⊢
    exact mapped.spaces.setMem tables same
  · rw [Function.update_of_ne ne, Function.update_of_ne ne]
    exact copying.same k ne
  · have nlis : t₂.nlis = t.nlis + 1 := by
      rw [state]
      exact mapped.named.1
    have more := copying.more.1
    rw [Function.update_self, List.mem_cons, copying.nodesMade, nlis]
    omega
  · have nvmas : t₂.nvmas = t.nvmas + 1 := by
      rw [state]
      exact mapped.named.2
    have more := copying.more.2
    rw [Function.update_self, List.mem_cons, copying.areasMade, nvmas]
    omega
  · rw [Function.update_self, List.map_cons, List.map_cons, vmas, mapped.area, ← copying.copies]
    refine congrArg₂ List.cons ?_ (List.map_congr_left fun a memA => ?_)
    · -- the truncation of `prot` to a byte does nothing to a byte
      have prot := Nat.mod_eq_of_lt regular.prot
      have type := regular.type
      simp only [VmArea.shape, prot, VmArea.mk.injEq, true_and, and_true]
      exact type.symm
    · rw [old a memA]
  · rw [state]
    exact mapped.live.1.trans copying.nmms
  · rcases List.mem_cons.mp memD with rfl | memD
    · exact copying.page_new mapped copied spaces live mem inside
    · refine copying.page_old mapped copied spaces memD inside fun inR => out ?_
      exact space.apart r mem d (sub d memD) v inR inside ▸ memD

end Area

theorem sticky_dupeArea {M : Meter Vmm} [frames : OfFrames rs M] {new vma : Nat} :
    Sticky M (dupeArea rs new mm vma) := by
  apply Sticky.bind .get
  intro t
  dsimp only
  split
  · exact .bind sticky_anonMmap fun _ => sticky_mmCopyFromMm frames
  · exact .pure ()
  · exact .pure ()
  · exact .pure ()

/-- `anon_mmap` makes an area of the same shape. -/
theorem Regular.anon {a : VmArea} (regular : Regular a) :
    Regular (anonArea a.start a.pages a.prot a.user) := by
  refine ⟨rfl, regular.range, regular.canonical, Nat.mod_lt _ (by decide), fun b hb v inside => ?_⟩
  exact regular.off b hb v inside

section Dupe

variable (spaces : Spaces rs s lists areas) (live : s.Live mm)

include spaces live

/-- `mm_dupe` at a regular area. -/
theorem dupeArea_regular (met : ¬ t.ranOut = true)
    (copying : Copying rs s t lists areas lists' areas' mm done) (mem : r ∈ areas mm)
    (out : r ∉ done) (sub : ∀ d ∈ done, d ∈ areas mm) :
    Runs (meter rs) (dupeArea rs s.nmms mm r) ((s.vmas r).pages * 5) t fun _ t' =>
      ∃ lists' areas', Copying rs s t' lists areas lists' areas' mm (r :: done) := by
  have space := spaces.space mm live
  have regular := space.regular r mem
  have named := space.named r mem
  have parent : mm ≠ s.nmms := Nat.ne_of_lt live.2.1
  have new : t.Live s.nmms := (copying.live_iff spaces).mpr (.inr rfl)
  have type := regular.type
  unfold dupeArea
  refine .of_get ?_
  dsimp only
  rw [copying.areas r named.2 named.1, type]
  refine .bind (k := 0) ((anonMmap_runs copying.spaces met new regular.anon
    fun a memA k lt inside => ?_).imp ?_) fun _ => sticky_mmCopyFromMm ofFrames_meter
  · exact copying.next_apart spaces live mem out sub ⟨a, memA, inside⟩ ⟨k, lt, rfl⟩
  intro _ t₁ ⟨frame, mapped⟩ met₁
  have inside : ∀ j < (s.vmas r).pages, InArea (s.vmas r) (pageAt (s.vmas r).start j) :=
    fun j lt => ⟨j, lt, rfl⟩
  refine (mmCopyFromMm_runs mapped.spaces.tables met₁ parent regular.range (fun j lt => ?_)
    (fun j lt => ?_) (fun j lt => ?_) fun j lt => ?_).imp ?_
  · rw [mapped.owned]
    exact .inl ((copying.owns_iff spaces parent).mpr (.inr ⟨live, r, mem, inside j lt⟩))
  · rw [mapped.owned]
    exact .inr ⟨rfl, j, lt, rfl⟩
  · rw [mapped.slots mm _ (pageAt_length _ j).le parent, copying.slots mm _ (pageAt_length _ j).le parent]
    exact (space.mapped r mem _ (inside j lt)).1
  · rw [mapped.here j lt]
    exact or_ne_zero (Nat.ne_of_gt (mapped.isFrame j lt).pos)
  · intro _ t₂ copied
    exact ⟨_, _, copying.area mapped copied spaces live mem out sub⟩

omit live in
/-- `mm_dupe` at one of the kernel's areas. -/
theorem dupeArea_kernel (met : ¬ t.ranOut = true)
    (copying : Copying rs s t lists areas lists' areas' mm done) (ha : r < 3) :
    Runs (meter rs) (dupeArea rs s.nmms mm r) 0 t fun _ t' =>
      ∃ lists' areas', Copying rs s t' lists areas lists' areas' mm done := by
  have named := spaces.kernel.named
  have shape : (t.vmas r).shape = kernelShape r := by
    rw [copying.shapes r (by omega)]
    exact spaces.kernel.shape r ha
  have type : (t.vmas r).shape.type = (kernelShape r).type := congrArg VmArea.type shape
  rw [VmArea.shape] at type
  unfold dupeArea
  refine .of_get ?_
  dsimp only
  rw [type]
  obtain rfl | rfl | rfl : r = 0 ∨ r = 1 ∨ r = 2 := by omega
  · exact .pure met ⟨_, _, copying⟩
  · exact .pure met ⟨_, _, copying⟩
  · exact .pure met ⟨_, _, copying⟩

/-- `mm_dupe` at a node, when the nodes `pre` before it are done. -/
theorem dupeArea_node {l : Nat} {pre ls : List Nat} (met : ¬ t.ranOut = true)
    (split : lists mm = pre ++ l :: ls) (copying : Copying rs s t lists areas lists' areas' mm
      ((s.vmasOf pre).filter (3 ≤ ·)).reverse) :
    Runs (meter rs) (dupeArea rs s.nmms mm (s.lis l).vma)
      (if 3 ≤ (s.lis l).vma then (s.vmas (s.lis l).vma).pages * 5 else 0) t fun _ t' =>
      ∃ lists' areas', Copying rs s t' lists areas lists' areas' mm
        ((s.vmasOf (pre ++ [l])).filter (3 ≤ ·)).reverse := by
  have space := spaces.space mm live
  rw [split] at space
  have vmas : s.vmasOf (pre ++ [l]) = s.vmasOf pre ++ [(s.lis l).vma] := by
    simp [Vmm.vmasOf]
  rw [vmas, List.filter_append, List.reverse_append]
  by_cases regular : 3 ≤ (s.lis l).vma
  · have single : s.vmasOf [l] ⊆ areas mm ++ [2, 1, 0] := by
      apply space.vmasOf_subset
      simp
    have name : (s.lis l).vma ∈ areas mm ++ [2, 1, 0] := single List.mem_cons_self
    have earlier : s.vmasOf pre ⊆ areas mm ++ [2, 1, 0] :=
      space.vmasOf_subset (List.subset_append_left _ _)
    have out : (s.lis l).vma ∉ ((s.vmasOf pre).filter (3 ≤ ·)).reverse := fun here =>
      space.vma_once.1 (List.mem_of_mem_filter (List.mem_reverse.mp here))
    have sub : ∀ d ∈ ((s.vmasOf pre).filter (3 ≤ ·)).reverse, d ∈ areas mm := by
      intro d here
      obtain ⟨before, le⟩ := List.mem_filter.mp (List.mem_reverse.mp here)
      exact (space.mem_regs_iff (earlier before)).mpr (by simpa using le)
    have one : ([(s.lis l).vma].filter (3 ≤ ·)).reverse = [(s.lis l).vma] := by
      simp [regular]
    rw [one, if_pos regular]
    exact dupeArea_regular spaces live met copying ((space.mem_regs_iff name).mpr regular) out sub
  · have none_ : ([(s.lis l).vma].filter (3 ≤ ·)).reverse = [] := by
      simp [regular]
    rw [none_, if_neg regular]
    exact dupeArea_kernel spaces met copying (by omega)

end Dupe

theorem sticky_mmDupe {M : Meter Vmm} [frames : OfFrames rs M] : Sticky M (mmDupe rs mm) :=
  .bind sticky_mmNew fun _ => .bind (sticky_forAreas (fun _ => sticky_dupeArea) fun _ => .pure ())
    fun _ => .pure _

/-- `mm_dupe`. -/
theorem mmDupe_runs (spaces : Spaces rs s lists areas) (met : ¬ s.ranOut = true) (live : s.Live mm) :
    Runs (meter rs) (mmDupe rs mm) (6656 + ((areas mm).map fun r => (s.vmas r).pages * 5).sum) s
      fun new s' => new = s.nmms ∧
        ∃ lists' areas', Copying rs s s' lists areas lists' areas' mm (areas mm).reverse := by
  have space := spaces.space mm live
  have parent : mm ≠ s.nmms := Nat.ne_of_lt live.2.1
  unfold mmDupe
  refine .bind ((mmNew_runs spaces met).imp ?_) fun _ =>
    .bind (sticky_forAreas (fun _ => sticky_dupeArea) fun _ => .pure ()) fun _ => .pure _
  rintro new t ⟨name, born⟩ met₁
  subst name
  have start : Copying rs s t lists areas _ _ mm [] := born.copying mm
  have fuel : (lists mm).length ≤ t.nlis := by
    have old := length_le_of_nodup space.listed.nodup fun l mem => (space.listed.bound l mem).2
    exact Nat.le_trans old born.more.1
  have head : (t.mms mm).vmAreas = (lists mm).head? := (born.heads mm parent).trans space.listed.head
  unfold forAreas
  rw [← space.sum_regs, ← Nat.add_zero (List.sum _)]
  refine .bind (k := 0) (.of_get ?_) fun _ => .pure _
  rw [head]
  -- the areas done are the regular ones of the nodes passed
  refine (walkAreas_runs (fun ls t => ∃ pre lists' areas', lists mm = pre ++ ls ∧
      Copying rs s t lists areas lists' areas' mm ((s.vmasOf pre).filter (3 ≤ ·)).reverse)
    (fun l => if 3 ≤ (s.lis l).vma then (s.vmas (s.lis l).vma).pages * 5 else 0)
    (fun _ => sticky_dupeArea) (fun _ => .pure ()) ?_ fuel met₁ ⟨[], _, _, rfl, start⟩).imp ?_
  · rintro l ls u met₂ ⟨pre, lists', areas', split, copying⟩
    have node : l ∈ lists mm := by
      rw [split]
      exact List.mem_append_right pre List.mem_cons_self
    have bound := (space.listed.bound l node).2
    have next := space.listed.next split
    rw [copying.nodes l bound]
    refine (dupeArea_node spaces live met₂ split copying).imp ?_
    rintro _ u' ⟨lists₂, areas₂, copying'⟩
    rw [copying'.nodes l bound]
    refine ⟨next, fun met₃ => .pure met₃ ⟨pre ++ [l], lists₂, areas₂, ?_, copying'⟩⟩
    rw [split, List.append_assoc]
    rfl
  · rintro _ u ⟨pre, lists', areas', split, copying⟩ met₂
    rw [List.append_nil] at split
    rw [← split, space.filter_vmasOf] at copying
    exact .pure met₂ ⟨rfl, lists', areas', copying⟩

end Blackcomb.Mm
