import Mathlib.Data.Set.Basic
import Blackcomb.Laws.Mm.Agreement

/-!
# Who a call is for

What `vmm.c` allocates: frames, and the records on the kernel names. Some of it belongs to a space:
the space's tables, the frames of its pages, the `struct mm`, its regular areas and its list nodes.
Every call has a subject, the space that it creates, edits or frees. The law (`Confined`) is that a
call changes what belongs to its subject and nothing else: what is allocated and does not belong to
the subject is the same before and after, and to every other space belongs what belonged to it.
-/

namespace Blackcomb.Mm

open Memory Run Budget Ownership Chain

variable {rs : RegionTable} {s s' t s₀ : Vmm} {mm k n r f : Nat} {p v : Path}
  {lists areas lists' areas' : Nat → List Nat} {call : SpaceCall}

/-- What is allocated and freed. -/
inductive Object
  | frame (f : Nat)
  | mm (k : Nat)
  | vma (r : Nat)
  | li (l : Nat)

/-- A page whose bit is set. -/
def Marked (rs : RegionTable) (m : Bytes) (f : Nat) : Prop :=
  ∃ r ∈ rs.regions, ∃ i < r.pages, f = r.start + i * pageSize ∧ regionGetBit m r i = true

/-- The frames marked allocated, and the records on the kernel heap that are not freed. -/
def Vmm.allocated (rs : RegionTable) (s : Vmm) : Set Object := {o | match o with
  | .frame f => Marked rs s.frames.mem f
  | .mm k => s.Live k
  | .vma r => 3 ≤ r ∧ r < s.nvmas ∧ r ∉ s.freedVmas
  | .li l => 3 ≤ l ∧ l < s.nlis ∧ l ∉ s.freedLis}

/-- What belongs to a space. -/
def belongings (s : Vmm) (lists areas : Nat → List Nat) (mm : Nat) : Set Object := {o | match o with
  | .frame f => ∃ p, held s (owns s areas) none (some (mm, p)) = some f
  | .mm k => s.Live mm ∧ k = mm
  | .vma r => s.Live mm ∧ r ∈ areas mm
  | .li l => s.Live mm ∧ l ∈ lists mm}

/-- The space that a call creates, edits or frees. -/
def SpaceCall.subject (s : Vmm) : SpaceCall → Nat
  | .mmNew => s.nmms
  | .mmDupe _ => s.nmms
  | .anonMmap mm _ _ _ _ => mm
  | .mmFree mm => mm
  | .write mm _ _ => mm

/-- A page is marked when it holds a bitmap or is handed out. -/
theorem FramesInv.marked {fs : Frames} (inv : FramesInv rs fs) : Marked rs fs.mem f ↔
    (∃ r ∈ rs.regions, ∃ i < r.bmapPages, f = r.start + i * pageSize) ∨ f ∈ fs.taken := by
  constructor
  · rintro ⟨r, mem, i, lt, rfl, set⟩
    rcases (inv.bits r mem i lt).mp set with low | handed
    · exact .inl ⟨r, mem, i, low, rfl⟩
    · exact .inr handed
  · rintro (⟨r, mem, i, low, rfl⟩ | handed)
    · have lt := Nat.lt_of_lt_of_le low (r.bmapPages_le)
      exact ⟨r, mem, i, lt, rfl, (inv.bits r mem i lt).mpr (.inl low)⟩
    · obtain ⟨r, mem, i, low, lt, rfl⟩ := inv.frames f handed
      exact ⟨r, mem, i, lt, rfl, (inv.bits r mem i lt).mpr (.inr handed)⟩

/-- A page that holds a bitmap is no frame. -/
theorem IsFrame.ne_reserved {q : Region} {i : Nat} (frame : IsFrame rs f) (mem : q ∈ rs.regions)
    (low : i < q.bmapPages) : f ≠ q.start + i * pageSize := by
  rintro rfl
  obtain ⟨r, hr, j, high, lt, same⟩ := frame
  obtain ⟨rfl, rfl⟩ := RegionTable.page_inj mem hr (Nat.lt_of_lt_of_le low (q.bmapPages_le)) lt same
  omega

/-- What a call on the space `k` leaves alone. -/
structure Confined (rs : RegionTable) (s s' : Vmm) (lists regs lists' regs' : Nat → List Nat)
    (k : Nat) : Prop where
  names : ∀ j, j ≠ k → lists' j = lists j ∧ regs' j = regs j
  live : ∀ j, j ≠ k → (s'.Live j ↔ s.Live j)
  slots : ∀ j p, p.length ≤ 4 → j ≠ k → s'.slot j p = s.slot j p
  areas : ∀ j, j ≠ k → s.Live j → ∀ r ∈ regs j, s'.vmas r = s.vmas r
  vmas : ∀ r, Object.vma r ∈ s'.allocated rs \ belongings s' lists' regs' k ↔
    Object.vma r ∈ s.allocated rs \ belongings s lists regs k
  lis : ∀ l, Object.li l ∈ s'.allocated rs \ belongings s' lists' regs' k ↔
    Object.li l ∈ s.allocated rs \ belongings s lists regs k

/-- The names of the records: what is freed was made, what belongs to a space is not freed. -/
structure Names (s : Vmm) (lists regs : Nat → List Nat) : Prop where
  vmas : ∀ r ∈ s.freedVmas, r < s.nvmas
  lis : ∀ l ∈ s.freedLis, l < s.nlis
  areas : ∀ k, s.Live k → ∀ r ∈ regs k, r ∉ s.freedVmas
  nodes : ∀ k, s.Live k → ∀ l ∈ lists k, l ∉ s.freedLis

/-- What belongs to a space is allocated. -/
theorem Names.allocated (names : Names s lists areas) (spaces : Spaces rs s lists areas) (k : Nat) :
    belongings s lists areas k ⊆ s.allocated rs := by
  intro o belongs
  cases o with
  | frame f =>
    obtain ⟨p, holds⟩ := belongs
    exact spaces.tables.frames.marked.mpr (.inr (spaces.tables.exclusive.handed _ f holds))
  | mm j =>
    obtain ⟨live, rfl⟩ := belongs
    exact live
  | vma r =>
    obtain ⟨live, mem⟩ := belongs
    obtain ⟨low, high⟩ := (spaces.space k live).named r mem
    exact ⟨low, high, names.areas k live r mem⟩
  | li l =>
    obtain ⟨live, mem⟩ := belongs
    obtain ⟨low, high⟩ := (spaces.space k live).listed.bound l mem
    exact ⟨low, high, names.nodes k live l mem⟩

/-- To a space that is not live belongs nothing. -/
theorem Spaces.nothing (spaces : Spaces rs s lists areas) (nonzero : k ≠ 0) (dead : ¬ s.Live k) :
    belongings s lists areas k = ∅ := by
  ext o
  rw [Set.mem_empty_iff_false, iff_false]
  intro belongs
  cases o with
  | frame f =>
    obtain ⟨p, holds⟩ := belongs
    obtain ⟨size, there, _⟩ := held_eq_some.mp holds
    refine dead ((spaces.no_table there ?_).resolve_left nonzero)
    omega
  | mm j => exact dead belongs.1
  | vma r => exact dead belongs.1
  | li l => exact dead belongs.1

namespace Confined

variable (confined : Confined rs s s' lists areas lists' areas' k)

include confined

theorem owns_iff {j : Nat} (ne : j ≠ k) : owns s' areas' j v ↔ owns s areas j v := by
  rw [owns, owns, (confined.names j ne).2, confined.live j ne]
  apply or_congr_right
  apply and_congr_right
  intro live
  exact exists_inArea_congr (confined.areas j ne live)

theorem held_eq {j : Nat} (ne : j ≠ k) : held s' (owns s' areas') none (some (j, p)) =
    held s (owns s areas) none (some (j, p)) := by
  by_cases short : p.length ≤ 4
  · ext f
    rw [held_eq_some, held_eq_some, confined.slots j p short ne, confined.owns_iff ne]
  · have long : ¬ p.length ≤ 3 ∧ ¬ p.length = 4 := by omega
    simp [held, long.1, long.2]

/-- To the other spaces belongs what belonged to them. -/
theorem belongings_eq {j : Nat} (ne : j ≠ k) :
    belongings s' lists' areas' j = belongings s lists areas j := by
  obtain ⟨nodes, regs⟩ := confined.names j ne
  ext o
  cases o with
  | frame f =>
    apply exists_congr
    intro p
    rw [confined.held_eq ne]
  | mm i =>
    apply and_congr_left
    intro _
    exact confined.live j ne
  | vma r =>
    show s'.Live j ∧ r ∈ areas' j ↔ s.Live j ∧ r ∈ areas j
    rw [confined.live j ne, regs]
  | li l =>
    show s'.Live j ∧ l ∈ lists' j ↔ s.Live j ∧ l ∈ lists j
    rw [confined.live j ne, nodes]

/-- A frame that another space holds stays held. -/
theorem frame_iff (spaces : Spaces rs s lists areas) (spaces' : Spaces rs s' lists' areas') :
    (f ∈ s'.frames.taken ∧ ¬ ∃ p, held s' (owns s' areas') none (some (k, p)) = some f) ↔
      f ∈ s.frames.taken ∧ ¬ ∃ p, held s (owns s areas) none (some (k, p)) = some f := by
  have other : ∀ {u : Vmm} {l a : Nat → List Nat}, Spaces rs u l a →
      ((f ∈ u.frames.taken ∧ ¬ ∃ p, held u (owns u a) none (some (k, p)) = some f) ↔
        ∃ j p, j ≠ k ∧ held u (owns u a) none (some (j, p)) = some f) := by
    intro u l a inv
    constructor
    · rintro ⟨handed, free⟩
      obtain ⟨role, holds⟩ := inv.tables.exclusive.holder f handed
      cases role with
      | none => cases holds
      | some path =>
        refine ⟨path.1, path.2, fun same => free ⟨path.2, ?_⟩, holds⟩
        rw [← same]
        exact holds
    · rintro ⟨j, p, ne, holds⟩
      refine ⟨inv.tables.exclusive.handed _ f holds, fun mine => ?_⟩
      obtain ⟨q, holds'⟩ := mine
      have same := inv.tables.exclusive.unique _ _ f holds holds'
      simp only [Option.some.injEq, Prod.mk.injEq] at same
      exact ne same.1
  rw [other spaces, other spaces']
  constructor
  · rintro ⟨j, p, ne, holds⟩
    exact ⟨j, p, ne, confined.held_eq ne ▸ holds⟩
  · rintro ⟨j, p, ne, holds⟩
    exact ⟨j, p, ne, (confined.held_eq ne).symm ▸ holds⟩

/-- What is allocated and does not belong to the subject is as it was. -/
theorem rest_eq (spaces : Spaces rs s lists areas) (spaces' : Spaces rs s' lists' areas') :
    s'.allocated rs \ belongings s' lists' areas' k = s.allocated rs \ belongings s lists areas k := by
  -- a page that holds a bitmap is held by no space
  have reserved : ∀ {u : Vmm} {l a : Nat → List Nat}, Spaces rs u l a → ∀ f,
      (∃ r ∈ rs.regions, ∃ i < r.bmapPages, f = r.start + i * pageSize) →
      ¬ ∃ p, held u (owns u a) none (some (k, p)) = some f := by
    rintro u l a inv f ⟨r, mem, i, low, rfl⟩ ⟨p, holds⟩
    exact (inv.tables.held_frame holds).ne_reserved mem low rfl
  ext o
  cases o with
  | frame f =>
    show Marked rs s'.frames.mem f ∧ ¬ (∃ p, held s' (owns s' areas') none (some (k, p)) = some f) ↔
      Marked rs s.frames.mem f ∧ ¬ ∃ p, held s (owns s areas) none (some (k, p)) = some f
    rw [spaces'.tables.frames.marked, spaces.tables.frames.marked, or_and_right, or_and_right,
      confined.frame_iff spaces spaces']
    apply or_congr_left
    apply and_congr_right
    intro low
    exact iff_of_true (reserved spaces' f low) (reserved spaces f low)
  | mm j =>
    show s'.Live j ∧ ¬ (s'.Live k ∧ j = k) ↔ s.Live j ∧ ¬ (s.Live k ∧ j = k)
    by_cases same : j = k
    · subst same
      simp
    · simp [same, confined.live j same]
  | vma r => exact confined.vmas r
  | li l => exact confined.lis l

end Confined

/-! ## Calls -/

/-- The names that a call made belong to its subject, the others are as they were. -/
theorem rest_iff {n n' x : Nat} {freed l l' : List Nat} {live live' : Prop} (more : n ≤ n')
    (made : live' ∧ x ∈ l' ↔ live ∧ x ∈ l ∨ n ≤ x ∧ x < n') :
    (3 ≤ x ∧ x < n' ∧ x ∉ freed) ∧ ¬ (live' ∧ x ∈ l') ↔
      (3 ≤ x ∧ x < n ∧ x ∉ freed) ∧ ¬ (live ∧ x ∈ l) := by
  rw [made, not_or]
  constructor
  · rintro ⟨⟨low, lt, kept⟩, away, old⟩
    exact ⟨⟨low, by omega, kept⟩, away⟩
  · rintro ⟨⟨low, lt, kept⟩, away⟩
    exact ⟨⟨low, by omega, kept⟩, away, by omega⟩

/-- New names were never freed. -/
theorem Names.grow (names : Names s lists areas)
    (same : s'.freedVmas = s.freedVmas ∧ s'.freedLis = s.freedLis)
    (more : s.nlis ≤ s'.nlis ∧ s.nvmas ≤ s'.nvmas)
    (regs : ∀ k, s'.Live k → ∀ r ∈ areas' k, s.Live k ∧ r ∈ areas k ∨ s.nvmas ≤ r)
    (nodes : ∀ k, s'.Live k → ∀ l ∈ lists' k, s.Live k ∧ l ∈ lists k ∨ s.nlis ≤ l) :
    Names s' lists' areas' := by
  obtain ⟨freedVmas, freedLis⟩ := same
  refine ⟨fun r mem => ?_, fun l mem => ?_, fun k live r mem => ?_, fun k live l mem => ?_⟩
  · rw [freedVmas] at mem
    exact Nat.lt_of_lt_of_le (names.vmas r mem) more.2
  · rw [freedLis] at mem
    exact Nat.lt_of_lt_of_le (names.lis l mem) more.1
  · rw [freedVmas]
    rcases regs k live r mem with ⟨was, old⟩ | new
    · exact names.areas k was r old
    · exact fun freed => Nat.not_lt.mpr new (names.vmas r freed)
  · rw [freedLis]
    rcases nodes k live l mem with ⟨was, old⟩ | new
    · exact names.nodes k was l old
    · exact fun freed => Nat.not_lt.mpr new (names.lis l freed)

/-- `mm_new` and `mm_dupe`. -/
theorem Copying.confined {done : List Nat} (spaces : Spaces rs s lists areas)
    (names : Names s lists areas) (copying : Copying rs s s' lists areas lists' areas' mm done) :
    Confined rs s s' lists areas lists' areas' s.nmms ∧ Names s' lists' areas' := by
  have live : s'.Live s.nmms := (copying.live_iff spaces).mpr (.inr rfl)
  have dead := s.not_live
  have old : ∀ {k}, k ≠ s.nmms → (s'.Live k ↔ s.Live k) := fun ne => by
    rw [copying.live_iff spaces, or_iff_left ne]
  refine ⟨⟨copying.same, fun j ne => old ne, copying.slots, fun j ne liveJ r mem => ?_, fun r => ?_,
    fun l => ?_⟩, names.grow copying.heap copying.more (fun k liveK r mem => ?_)
    fun k liveK l mem => ?_⟩
  · obtain ⟨three, lt⟩ := (spaces.space j liveJ).named r mem
    exact copying.areas r lt three
  · show (3 ≤ r ∧ r < s'.nvmas ∧ r ∉ s'.freedVmas) ∧ _ ↔ _
    rw [copying.heap.1]
    refine rest_iff copying.more.2 ?_
    rw [copying.areasMade, and_iff_right live, or_iff_right fun both => dead both.1]
  · show (3 ≤ l ∧ l < s'.nlis ∧ l ∉ s'.freedLis) ∧ _ ↔ _
    rw [copying.heap.2]
    refine rest_iff copying.more.1 ?_
    rw [copying.nodesMade, and_iff_right live, or_iff_right fun both => dead both.1]
  · by_cases new : k = s.nmms
    · subst new
      exact .inr ((copying.areasMade r).mp mem).1
    · rw [(copying.same k new).2] at mem
      exact .inl ⟨(old new).mp liveK, mem⟩
  · by_cases new : k = s.nmms
    · subst new
      exact .inr ((copying.nodesMade l).mp mem).1
    · rw [(copying.same k new).1] at mem
      exact .inl ⟨(old new).mp liveK, mem⟩

/-- `anon_mmap`. -/
theorem Mmapped.confined {start prot : Nat} {user : Bool} {frame : Nat → Nat}
    (spaces : Spaces rs s lists areas) (names : Names s lists areas) (live : s.Live mm)
    (mapped : Mmapped rs s s' lists areas mm start n prot user frame) :
    Confined rs s s' lists areas (Function.update lists mm (s.nlis :: lists mm))
      (Function.update areas mm (s.nvmas :: areas mm)) mm ∧
      Names s' (Function.update lists mm (s.nlis :: lists mm))
        (Function.update areas mm (s.nvmas :: areas mm)) := by
  obtain ⟨nlis, nvmas⟩ := mapped.named
  have live' : s'.Live mm := mapped.live_iff.mpr live
  -- a member of a list is new, or was one
  have grown : ∀ k, s'.Live k → ∀ (new : Nat) (xs : Nat → List Nat),
      ∀ x ∈ Function.update xs mm (new :: xs mm) k, (s.Live k ∧ x ∈ xs k) ∨ new ≤ x := by
    intro k liveK new xs x mem
    by_cases here : k = mm
    · subst here
      rw [Function.update_self] at mem
      rcases List.mem_cons.mp mem with rfl | mem
      · exact .inr (Nat.le_refl _)
      · exact .inl ⟨live, mem⟩
    · rw [Function.update_of_ne here] at mem
      exact .inl ⟨mapped.live_iff.mp liveK, mem⟩
  refine ⟨⟨fun j ne => ?_, fun j _ => mapped.live_iff, mapped.slots, fun j _ liveJ r mem => ?_,
    fun r => ?_, fun l => ?_⟩, names.grow mapped.heap mapped.more (fun k liveK r mem => ?_)
    fun k liveK l mem => ?_⟩
  · rw [Function.update_of_ne ne, Function.update_of_ne ne]
    exact ⟨rfl, rfl⟩
  · exact mapped.areas r ((spaces.space j liveJ).named r mem).2
  · show (3 ≤ r ∧ r < s'.nvmas ∧ r ∉ s'.freedVmas) ∧ _ ↔ _
    rw [mapped.heap.1]
    refine rest_iff mapped.more.2 ?_
    rw [Function.update_self, List.mem_cons, and_iff_right live', and_iff_right live, nvmas, or_comm]
    apply or_congr_right
    omega
  · show (3 ≤ l ∧ l < s'.nlis ∧ l ∉ s'.freedLis) ∧ _ ↔ _
    rw [mapped.heap.2]
    refine rest_iff mapped.more.1 ?_
    rw [Function.update_self, List.mem_cons, and_iff_right live', and_iff_right live, nlis, or_comm]
    apply or_congr_right
    omega
  · exact grown k liveK _ areas r mem
  · exact grown k liveK _ lists l mem

/-- `mm_free`. -/
theorem Freeing.confined (calls : List (Nat × Bool)) (spaces : Spaces rs s lists areas)
    (names : Names s lists areas) (live : s.Live mm) (freeing : Freeing rs s t areas mm [])
    (nodes : ∀ l, l ∈ t.freedLis ↔ l ∈ s.freedLis ∨ l ∈ lists mm) :
    Confined rs s { t with freedMms := mm :: t.freedMms, pmmFrees := calls } lists areas lists areas
      mm ∧ Names { t with freedMms := mm :: t.freedMms, pmmFrees := calls } lists areas := by
  obtain ⟨nlis, nvmas, _⟩ := freeing.named
  have alive : ∀ {k}, ({ t with freedMms := mm :: t.freedMms } : Vmm).Live k ↔ s.Live k ∧ k ≠ mm :=
    freeing.live_iff
  have dead : ¬ ({ t with freedMms := mm :: t.freedMms } : Vmm).Live mm := fun lm =>
    (alive.mp lm).2 rfl
  have regs : ∀ r, r ∈ t.freedVmas ↔ r ∈ s.freedVmas ∨ r ∈ areas mm := fun r => by
    rw [freeing.freedVmas, and_iff_left List.not_mem_nil]
  refine ⟨⟨fun _ _ => ⟨rfl, rfl⟩, fun j ne => ?_, freeing.slots, fun j ne liveJ r mem => ?_,
    fun r => ?_, fun l => ?_⟩, fun r mem => ?_, fun l mem => ?_, fun k liveK r mem => ?_,
    fun k liveK l mem => ?_⟩
  · exact alive.trans (and_iff_left ne)
  · have same : t.vmas r = s.vmas r := freeing.area spaces live liveJ ne mem
    exact same
  · show (3 ≤ r ∧ r < t.nvmas ∧ r ∉ t.freedVmas) ∧ ¬ (_ ∧ r ∈ areas mm) ↔
      (3 ≤ r ∧ r < s.nvmas ∧ r ∉ s.freedVmas) ∧ ¬ (s.Live mm ∧ r ∈ areas mm)
    rw [nvmas, regs, and_iff_left fun both => dead both.1, and_iff_right live, not_or]
    simp only [and_assoc]
  · show (3 ≤ l ∧ l < t.nlis ∧ l ∉ t.freedLis) ∧ ¬ (_ ∧ l ∈ lists mm) ↔
      (3 ≤ l ∧ l < s.nlis ∧ l ∉ s.freedLis) ∧ ¬ (s.Live mm ∧ l ∈ lists mm)
    rw [nlis, nodes, and_iff_left fun both => dead both.1, and_iff_right live, not_or]
    simp only [and_assoc]
  · dsimp only at mem ⊢
    rw [nvmas]
    rcases (regs r).mp mem with old | mine
    · exact names.vmas r old
    · exact ((spaces.space mm live).named r mine).2
  · dsimp only at mem ⊢
    rw [nlis]
    rcases (nodes l).mp mem with old | mine
    · exact names.lis l old
    · exact ((spaces.space mm live).listed.bound l mine).2
  · obtain ⟨was, ne⟩ := alive.mp liveK
    intro freed
    rcases (regs r).mp freed with old | mine
    · exact names.areas k was r mem old
    · exact ne (spaces.regsApart k mm r was live mem mine)
  · obtain ⟨was, ne⟩ := alive.mp liveK
    intro freed
    rcases (nodes l).mp freed with old | mine
    · exact names.nodes k was l mem old
    · exact ne (spaces.lisApart k mm l was live mem mine)

/-- A byte stored through a space. -/
theorem Spaces.write_confined {virt : Nat} (byte : BitVec 8) (spaces : Spaces rs s lists areas)
    (names : Names s lists areas) (live : s.Live mm) (mem : r ∈ areas mm)
    (inside : InArea (s.vmas r) (pathOf virt)) :
    Confined rs s (s.setMem (Function.update s.frames.mem (s.translate mm virt) byte)) lists areas
      lists areas mm ∧
      Names (s.setMem (Function.update s.frames.mem (s.translate mm virt) byte)) lists areas :=
  ⟨⟨fun _ _ => ⟨rfl, rfl⟩, fun _ _ => .rfl,
    fun j p short _ => (spaces.write live byte mem inside).2 j p short, fun _ _ _ _ _ => rfl,
    fun _ => .rfl, fun _ => .rfl⟩, names.vmas, names.lis, names.areas, names.nodes⟩

/-- A call changes what belongs to its subject only. -/
theorem Spaces.confined (spaces : Spaces rs s lists areas) (names : Names s lists areas)
    (took : Took rs s s' lists areas call) :
    ∃ lists' areas', Spaces rs s' lists' areas' ∧ Names s' lists' areas' ∧
      Confined rs s s' lists areas lists' areas' (call.subject s) := by
  cases took with
  | mmNew born =>
    obtain ⟨confined, names'⟩ := (born.copying 0).confined spaces names
    exact ⟨_, _, born.spaces, names', confined⟩
  | anonMmap live mapped =>
    obtain ⟨confined, names'⟩ := mapped.confined spaces names live
    exact ⟨_, _, mapped.spaces, names', confined⟩
  | mmDupe copying =>
    obtain ⟨confined, names'⟩ := copying.confined spaces names
    exact ⟨_, _, copying.spaces, names', confined⟩
  | mmFree live freeing nodes left =>
    rw [left]
    obtain ⟨confined, names'⟩ := freeing.confined _ spaces names live nodes
    exact ⟨lists, areas, (freeing.freed_spaces spaces live).marked _, names', confined⟩
  | write live mem inside left =>
    rw [left]
    obtain ⟨confined, names'⟩ := spaces.write_confined _ names live mem inside
    exact ⟨lists, areas, (spaces.write live _ mem inside).1, names', confined⟩

end Blackcomb.Mm
