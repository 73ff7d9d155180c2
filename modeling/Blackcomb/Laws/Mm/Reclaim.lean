import Blackcomb.Lib.Relates
import Blackcomb.Laws.Mm.Accounts

/-!
# What `mm_free` gives back

The life of a space, from the `mm_new` or `mm_dupe` that creates it to its `mm_free`, with calls on
other spaces in between: everything that was allocated for it is free again, and nothing else is.
The other spaces keep their translations and the bytes of their pages.

That is so when no region starts at physical address `0`. On any memory, the calls of `pmm_free` are
one for each frame of the space, and a last one of address `0`: the loop of `mm_free` empties the
tables, and `vmm_unmap_page` has freed the p4 table then, but `mm_free` passes it to `pmm_free`
again. Where a region starts at `0`, this clears the bit of the page that holds its bitmap.

**What it does not establish.** Frames suffice throughout. Records of the kernel heap are followed
by their names, not by their bytes.
-/

namespace Blackcomb.Mm

open Memory Run Budget Ownership Chain

variable {rs : RegionTable} {s s' t s₀ : Vmm} {mm k n r f virt : Nat} {p v : Path} {m : Bytes}
  {lists areas lists' areas' : Nat → List Nat} {call : SpaceCall} {kept : Set Object}

/-! ## The life of a space -/

/-- A run from the creation of the space `mm` on. `kept` is what was allocated before, with the
changes since then that calls on other spaces made. -/
inductive Since (rs : RegionTable) (s₀ : Vmm) (mm : Nat) : Vmm → Set Object → Prop
  | created {s s' : Vmm} {call : SpaceCall} : Reach (Vmm.step rs) (Vmm.Permitted rs) s₀ s →
      (call = .mmNew ∨ ∃ k, call = .mmDupe k) → Vmm.Permitted rs call s →
      Vmm.step rs call s = .ok s' → mm = s.nmms → Since rs s₀ mm s' (s.allocated rs)
  | own {s s' : Vmm} {kept : Set Object} {call : SpaceCall} : Since rs s₀ mm s kept →
      Vmm.Permitted rs call s → call.subject s = mm → call ≠ .mmFree mm →
      Vmm.step rs call s = .ok s' → Since rs s₀ mm s' kept
  | other {s s' : Vmm} {kept : Set Object} {call : SpaceCall} : Since rs s₀ mm s kept →
      Vmm.Permitted rs call s → call.subject s ≠ mm → Vmm.step rs call s = .ok s' →
      Since rs s₀ mm s' ((kept ∪ (s'.allocated rs \ s.allocated rs)) \
        (s.allocated rs \ s'.allocated rs))

/-- The invariant with the names of the records, from `kernel_mm_init` on. -/
theorem names_of_boot (booted : kernelMmInit rs 0 (Vmm.boot rs m) = .ok ((), s₀))
    (reached : Reach (Vmm.step rs) (Vmm.Permitted rs) s₀ s) (met : ¬ s.ranOut = true) :
    ∃ lists areas, Spaces rs s lists areas ∧ Names s lists areas := by
  refine reached.avoiding (fun s => s.ranOut = true) (fun _ _ _ taken => step_ranOut taken)
    (fun s => ∃ lists areas, Spaces rs s lists areas ∧ Names s lists areas) (fun start => ?_) ?_ met
  · obtain ⟨spaces₀, ⟨freedVmas, freedLis⟩, _⟩ := (kernelMmInit_runs rs m).safe booted start
    refine ⟨_, _, spaces₀, fun r mem => ?_, fun l mem => ?_, fun _ _ r mem => (by cases mem),
      fun _ _ l mem => (by cases mem)⟩
    · rw [freedVmas] at mem
      cases mem
    · rw [freedLis] at mem
      cases mem
  · intro call s s' before inv allowed taken after
    obtain ⟨lists, areas, spaces, names⟩ := inv
    obtain ⟨lists', areas', spaces', names', _⟩ :=
      spaces.confined names (spaces.took before allowed taken after)
    exact ⟨lists', areas', spaces', names'⟩

/-- A call that is not `mm_free` keeps its subject. -/
theorem Took.live (took : Took rs s s' lists areas call)
    (confined : Confined rs s s' lists areas lists' areas' (call.subject s)) (live : s.Live mm)
    (other : call ≠ .mmFree mm) : s'.Live mm := by
  by_cases mine : mm = call.subject s
  · cases took with
    | mmNew born => exact absurd live (mine ▸ s.not_live)
    | mmDupe copying => exact absurd live (mine ▸ s.not_live)
    | mmFree _ freeing nodes left => exact absurd (congrArg _ mine.symm) other
    | write _ mem inside left =>
      rw [left]
      exact live
    | anonMmap _ mapped => exact mapped.live_iff.mpr live
  · exact (confined.live mm mine).mpr live

/-- What others allocated and freed, `mine` being allocated before and not theirs. -/
theorem rest_of_others {before after mine : Set Object} (inside : mine ⊆ before) :
    (before \ mine ∪ (after \ before)) \ (before \ after) = after \ mine := by
  ext o
  have held := @inside o
  simp only [Set.mem_sdiff, Set.mem_union]
  tauto

/-- What is allocated and does not belong to the space is what calls on others left. -/
theorem Since.account (booted : kernelMmInit rs 0 (Vmm.boot rs m) = .ok ((), s₀))
    (since : Since rs s₀ mm s kept) (met : ¬ s.ranOut = true) :
    ∃ lists areas, Spaces rs s lists areas ∧ Names s lists areas ∧ s.Live mm ∧
      kept = s.allocated rs \ belongings s lists areas mm := by
  induction since with
  | @created s s' call reached creates allowed taken new =>
    have before : ¬ s.ranOut = true := fun out => met (step_ranOut taken out)
    obtain ⟨lists, areas, spaces, names⟩ := names_of_boot booted reached before
    have took := spaces.took before allowed taken met
    obtain ⟨lists', areas', spaces', names', confined⟩ := spaces.confined names took
    have subject : call.subject s = s.nmms := by
      rcases creates with rfl | ⟨k, rfl⟩
      · rfl
      · rfl
    have pos := spaces.kernel.named.1
    have live : s'.Live s.nmms := by
      rcases creates with rfl | ⟨k, rfl⟩
      · cases took with
        | mmNew born => exact (born.live_iff spaces).mpr (.inr rfl)
      · cases took with
        | mmDupe copying => exact (copying.live_iff spaces).mpr (.inr rfl)
    rw [subject] at confined
    refine ⟨lists', areas', spaces', names', new ▸ live, ?_⟩
    rw [new, confined.rest_eq spaces spaces', spaces.nothing (Nat.ne_of_gt pos) s.not_live,
      Set.sdiff_empty]
  | @own s s' kept call _ allowed subject free taken ih =>
    have before : ¬ s.ranOut = true := fun out => met (step_ranOut taken out)
    obtain ⟨lists, areas, spaces, names, live, rest⟩ := ih before
    have took := spaces.took before allowed taken met
    obtain ⟨lists', areas', spaces', names', confined⟩ := spaces.confined names took
    refine ⟨lists', areas', spaces', names', took.live confined live free, ?_⟩
    rw [subject] at confined
    rw [rest, confined.rest_eq spaces spaces']
  | @other s s' kept call _ allowed subject taken ih =>
    have before : ¬ s.ranOut = true := fun out => met (step_ranOut taken out)
    obtain ⟨lists, areas, spaces, names, live, rest⟩ := ih before
    have took := spaces.took before allowed taken met
    obtain ⟨lists', areas', spaces', names', confined⟩ := spaces.confined names took
    have same := confined.belongings_eq (Ne.symm subject)
    have inside := names.allocated spaces mm
    refine ⟨lists', areas', spaces', names', (confined.live mm (Ne.symm subject)).mpr live, ?_⟩
    rw [rest, same, rest_of_others inside]

/-- What a space is to its users. -/
structure Unharmed (s s' : Vmm) (k : Nat) : Prop where
  mapped : ∀ virt, s'.Mapped k virt ↔ s.Mapped k virt
  entries : ∀ virt, s.Mapped k virt → s'.leafEntry k virt = s.leafEntry k virt
  bytes : ∀ r ∈ s.areasOf k, (s.vmas r).type = .reg → ∀ virt, (s.vmas r).Has virt →
    s'.frames.mem (s'.translate k virt) = s.frames.mem (s.translate k virt)

section Reclaim

variable (spaces : Spaces rs s lists areas) (live : s.Live mm)

include spaces live

/-- The other spaces, `kernel_mm` included, come out of `mm_free` as they were. -/
theorem Freeing.unharmed (calls : List (Nat × Bool)) (freeing : Freeing rs s t areas mm [])
    (ne : k ≠ mm) (there : k = 0 ∨ s.Live k) :
    Unharmed s { t with freedMms := mm :: t.freedMms, pmmFrees := calls } k := by
  have spaces' := (freeing.freed_spaces spaces live).marked calls
  have slot : ∀ virt, t.slot k (pathOf virt) = s.slot k (pathOf virt) := fun virt =>
    freeing.slots k _ (pathOf_length virt).le ne
  have mapped : ∀ virt, Vmm.Mapped { t with freedMms := mm :: t.freedMms, pmmFrees := calls } k virt ↔
      s.Mapped k virt := by
    intro virt
    show t.slot k (pathOf virt) ≠ 0 ↔ s.slot k (pathOf virt) ≠ 0
    rw [slot]
  refine ⟨mapped, fun virt was => ?_, fun r mem type virt has => ?_⟩
  · rw [spaces'.leafEntry_eq ((mapped virt).mpr was), spaces.leafEntry_eq was]
    exact slot virt
  · rcases there with rfl | liveK
    · -- the areas of `kernel_mm` are not regular
      rw [spaces.areasOf_kernel] at mem
      have static : r < 3 := by
        simp only [List.mem_cons, List.not_mem_nil, or_false] at mem
        omega
      have kind := (VmArea.shape_inj ((spaces.kernel.shape r static).trans
        (kernelShape_shape r).symm)).1
      rw [kind] at type
      unfold kernelShape at type
      split at type <;> cases type
    · have here := (spaces.mem_areasOf liveK).mp ⟨mem, type⟩
      have inside := ((spaces.space k liveK).regular r here).inArea has
      obtain ⟨owned, was, address⟩ := spaces.translate liveK here inside
      have page : PageFrame s (remaining s areas mm []) none (pageOf (s.slot k (pathOf virt))) :=
        .inr ⟨k, _, pathOf_length virt, .inl ⟨ne, owned⟩, was, rfl⟩
      have small : virt % pageSize < pageSize := Nat.mod_lt _ (by decide)
      rw [spaces'.translate_eq ((mapped virt).mpr was), address]
      show t.frames.mem (pageOf (t.slot k (pathOf virt)) + virt % pageSize) = _
      rw [slot]
      exact freeing.pages _ page _ (by omega) (by omega)

end Reclaim

/-- Teardown reclaims everything and nothing else. A space is created by `mm_new` or `mm_dupe`, there
are calls on it and on others, and it is freed while another space is live: `mm_free` returns, what is
allocated then is what was before the space was created but for the changes of calls on others, and
the other spaces and `kernel_mm` keep their translations and the bytes of their regular areas. -/
theorem mmFree_exact (rs : RegionTable) (m : Bytes) (s₀ s : Vmm) (mm : Nat) (kept : Set Object)
    (above : ∀ r ∈ rs.regions, 0 < r.start)
    (booted : kernelMmInit rs 0 (Vmm.boot rs m) = .ok ((), s₀)) (since : Since rs s₀ mm s kept)
    (met : s.ranOut = false) (other : ∃ k, k ≠ mm ∧ s.Live k) :
    ∃ s', mmFree rs mm s = .ok ((), s') ∧ s'.ranOut = false ∧ s'.allocated rs = kept ∧
      ∀ k, k ≠ mm → k = 0 ∨ s.Live k → Unharmed s s' k := by
  have met : ¬ s.ranOut = true := ne_true_of_eq_false met
  obtain ⟨lists, areas, spaces, names, live, rest⟩ := since.account booted met
  obtain ⟨_, s', ran, met', _, t, freeing, nodes, done⟩ :=
    (mmFree_reclaims spaces live met other).total (Nat.zero_le _)
  rw [reclaimed_above above] at done
  obtain ⟨confined, _⟩ := freeing.confined ((0, false) :: t.pmmFrees) spaces names live nodes
  have spaces' := (freeing.freed_spaces spaces live).marked ((0, false) :: t.pmmFrees)
  have unharmed := fun k ne there =>
    freeing.unharmed (k := k) spaces live ((0, false) :: t.pmmFrees) ne there
  rw [← done] at confined spaces' unharmed
  have dead : ¬ s'.Live mm := by
    rw [done]
    exact fun alive => alive.2.2 List.mem_cons_self
  refine ⟨s', ran, Bool.eq_false_of_not_eq_true met', ?_, unharmed⟩
  rw [rest, ← confined.rest_eq spaces spaces', spaces'.nothing (Nat.ne_of_gt live.1) dead,
    Set.sdiff_empty]

/-- A space with one page is duplicated, and the duplicate freed. -/
theorem mmFree_exact_forked : ∃ s₀ s s' s'' mm new,
    kernelMmInit wideTable 0 (Vmm.boot wideTable fun _ => 0) = .ok ((), s₀) ∧
      Reach (Vmm.step wideTable) (Vmm.Permitted wideTable) s₀ s ∧
      mmDupe wideTable mm s = .ok (new, s') ∧ s'.ranOut = false ∧
      mmFree wideTable new s' = .ok ((), s'') ∧ s''.allocated wideTable = s.allocated wideTable ∧
      Unharmed s' s'' mm := by
  obtain ⟨s₀, s, s', mm, booted, reached, live, ran, taken, met', live', _⟩ := exists_forked
  have since : Since wideTable s₀ s.nmms s' (s.allocated wideTable) :=
    .created (reach_permitted reached) (.inr ⟨mm, rfl⟩) live taken rfl
  have parent : mm ≠ s.nmms := Nat.ne_of_lt live.2.1
  obtain ⟨s'', freed, _, same, unharmed⟩ := mmFree_exact wideTable (fun _ => 0) s₀ s' s.nmms
    (s.allocated wideTable) wide_above booted since met' ⟨mm, parent, live'⟩
  exact ⟨s₀, s, s', s'', mm, s.nmms, booted, reach_permitted reached, ran, met', freed, same,
    unharmed mm parent (.inr live')⟩

/-! ## The calls of pmm_free -/

/-- Nothing is handed out, and the frames that are not any more were passed to `pmm_free`. -/
def FreesOnly (s t : Vmm) : Prop := ∃ calls, t.pmmFrees = calls ++ s.pmmFrees ∧
  ((calls.filter (·.2)).map Prod.fst ++ t.frames.taken).Perm s.frames.taken

/-- No free at all is one of the allowed. -/
theorem FreesOnly.of_eq (taken : t.frames.taken = s.frames.taken) (frees : t.pmmFrees = s.pmmFrees) :
    FreesOnly s t :=
  ⟨[], frees, by rw [taken]; exact .refl _⟩

/-- Freeing only is kept through sequences. -/
theorem freesOnly : Closed FreesOnly where
  refl _ := .of_eq rfl rfl
  trans := by
    rintro s t u ⟨first, done, one⟩ ⟨second, done', two⟩
    refine ⟨second ++ first, by rw [done', done, List.append_assoc], ?_⟩
    rw [List.filter_append, List.map_append]
    calc (second.filter (·.2)).map Prod.fst ++ (first.filter (·.2)).map Prod.fst ++ u.frames.taken
      _ |>.Perm ((first.filter (·.2)).map Prod.fst ++ (second.filter (·.2)).map Prod.fst ++
          u.frames.taken) := List.perm_append_comm.append_right _
      _ |>.Perm ((first.filter (·.2)).map Prod.fst ++ t.frames.taken) := by
        rw [List.append_assoc]
        exact two.append_left _
      _ |>.Perm s.frames.taken := one

/-- A free is recorded and takes the frame from those taken. -/
theorem freesOnly_freeFrame : Relates FreesOnly (freeFrame rs f) := by
  intro s u s' h
  obtain ⟨frames, step, h⟩ := bind_eq_ok.mp h
  obtain ⟨m, _, step⟩ := bind_eq_ok.mp step
  cases step
  cases h
  refine ⟨[(f, decide (f ∈ s.frames.taken))], rfl, ?_⟩
  by_cases handed : f ∈ s.frames.taken
  · rw [decide_eq_true handed]
    exact (List.perm_cons_erase handed).symm
  · rw [decide_eq_false handed]
    show (s.frames.taken.erase f).Perm s.frames.taken
    rw [List.erase_of_not_mem handed]

/-- Writing an entry frees nothing. -/
theorem freesOnly_setEntry {i : Fin 512} {e : Nat} :
    Relates FreesOnly (modify (·.setEntry mm p i e) : Op Unit) :=
  .modify fun _ => .of_eq rfl rfl

/-- The test before frees nothing itself. -/
theorem freesOnly_whenEmpty {rest : Op Unit} (relates : Relates FreesOnly rest) :
    Relates FreesOnly (whenEmpty mm p rest) :=
  freesOnly.of_get fun _ => .ite relates (freesOnly.pure ())

/-- Dropping a table frees its frame. -/
theorem freesOnly_dropTable {i : Fin 512} : Relates FreesOnly (dropTable rs mm p i) :=
  freesOnly.of_get fun _ => freesOnly.bind freesOnly_freeFrame fun _ => freesOnly_setEntry

/-- Dropping the top table frees its frame. -/
theorem freesOnly_dropRoot : Relates FreesOnly (dropRoot rs mm) :=
  freesOnly.of_get fun _ => freesOnly.bind freesOnly_freeFrame fun _ =>
    .modify fun _ => .of_eq rfl rfl

/-- Unmapping frees the tables it empties. -/
theorem freesOnly_vmmUnmapPage : Relates FreesOnly (vmmUnmapPage rs mm virt) :=
  freesOnly.bind freesOnly_setEntry fun _ => freesOnly_whenEmpty <|
    freesOnly.bind freesOnly_dropTable fun _ => freesOnly_whenEmpty <|
      freesOnly.bind freesOnly_dropTable fun _ => freesOnly_whenEmpty <|
        freesOnly.bind freesOnly_dropTable fun _ => freesOnly_whenEmpty freesOnly_dropRoot

/-- Dropping an area's record frees no frame. -/
theorem freesOnly_dropVma : Relates FreesOnly (dropVma r) :=
  freesOnly.bind (.modify fun _ => .of_eq rfl rfl) fun _ => freesOnly.of_get fun _ =>
    .ite (.ite (.throw _) (.modify fun _ => .of_eq rfl rfl)) (freesOnly.pure _)

theorem freesOnly_intOffset : Relates FreesOnly (intOffset k) :=
  .ite (freesOnly.pure _) (.throw _)

/-- Giving up an area frees frames only. -/
theorem freesOnly_freeArea : Relates FreesOnly (freeArea rs mm r) := by
  apply freesOnly.of_get
  intro t
  have unshare : Relates FreesOnly (mmUnshareVma rs mm r) := freesOnly.of_get fun _ =>
    freesOnly.bind (freesOnly.forTo fun _ => freesOnly.bind freesOnly_intOffset fun _ =>
      freesOnly_vmmUnmapPage) fun _ => freesOnly_dropVma
  split
  · exact freesOnly.of_get fun _ => freesOnly.bind (.ite (.throw _) (freesOnly.pure _)) fun _ =>
      freesOnly.bind (freesOnly.forTo fun _ => freesOnly.bind freesOnly_intOffset fun _ =>
        freesOnly.of_get fun _ => freesOnly.bind freesOnly_vmmUnmapPage fun _ =>
        freesOnly_freeFrame) fun _ => freesOnly_dropVma
  · exact unshare
  · exact unshare
  · exact unshare

theorem freesOnly_walkAreas {body after : Nat → Op Unit} (each : ∀ a, Relates FreesOnly (body a))
    (then_ : ∀ l, Relates FreesOnly (after l)) {fuel : Nat} {head : Option Nat} :
    Relates FreesOnly (walkAreas body after fuel head) := by
  induction fuel generalizing head with
  | zero =>
    cases head with
    | none => exact freesOnly.pure ()
    | some l => exact .throw _
  | succ fuel ih =>
    cases head with
    | none => exact freesOnly.pure ()
    | some l =>
      exact freesOnly.of_get fun _ => freesOnly.bind (each _) fun _ => freesOnly.of_get fun _ =>
        freesOnly.bind (then_ l) fun _ => ih

/-- So does giving up a space. -/
theorem freesOnly_mmFree : Relates FreesOnly (mmFree rs mm) := by
  have marks : ∀ li, Relates FreesOnly
      (modify fun s => { s with freedLis := li :: s.freedLis } : Op Unit) :=
    fun li => .modify fun _ => .of_eq rfl rfl
  exact freesOnly.bind (freesOnly.of_get fun _ =>
    freesOnly_walkAreas (fun _ => freesOnly_freeArea) marks) fun _ => freesOnly.of_get fun _ =>
    freesOnly.bind freesOnly_freeFrame fun _ => .modify fun _ => .of_eq rfl rfl

/-- The calls of `pmm_free` between two states, latest first. -/
def Vmm.freesSince (s s' : Vmm) : List (Nat × Bool) :=
  s'.pmmFrees.take (s'.pmmFrees.length - s.pmmFrees.length)

/-- The frees of a call are those in front of the earlier ones. -/
theorem freesSince_eq {calls : List (Nat × Bool)} (frees : s'.pmmFrees = calls ++ s.pmmFrees) :
    s.freesSince s' = calls := by
  rw [Vmm.freesSince, frees, List.length_append, Nat.add_sub_cancel]
  exact List.take_left

/-- A frame of a space: one of its tables, or a page of one of its regular areas. -/
def Vmm.FrameOf (s : Vmm) (mm f : Nat) : Prop :=
  (∃ path, s.Plays (.table mm path) f) ∨ ∃ vma k, s.Plays (.page mm vma k) f

/-- The bits of the pages that hold the bitmaps stay set. -/
def ReservedKept (rs : RegionTable) (s s' : Vmm) : Prop :=
  ∀ r ∈ rs.regions, ∀ i < r.bmapPages, regionGetBit s.frames.mem r i = true →
    regionGetBit s'.frames.mem r i = true

/-- `pmm_free` was called on frames of the space that were handed out, on each once, and no bitmap
lost its page. -/
structure FreesOwn (rs : RegionTable) (s s' : Vmm) (mm : Nat) : Prop where
  owned : ∀ c ∈ s.freesSince s', c.2 = true ∧ s.FrameOf mm c.1
  once : ∀ f, s.FrameOf mm f → ((s.freesSince s').map Prod.fst).count f = 1
  reserved : ReservedKept rs s s'

/-- The frames of a space are those it holds. -/
theorem Spaces.frameOf_iff (spaces : Spaces rs s lists areas) (live : s.Live mm) :
    s.FrameOf mm f ↔ ∃ p, held s (owns s areas) none (some (mm, p)) = some f := by
  constructor
  · rintro (⟨path, plays⟩ | ⟨vma, k, plays⟩)
    · exact ⟨path, spaces.held_of_plays plays⟩
    · exact ⟨_, spaces.held_of_plays plays⟩
  · rintro ⟨p, holds⟩
    obtain ⟨role, plays⟩ := spaces.plays_of_held holds
    have same := spaces.tables.exclusive.unique _ _ f holds (spaces.held_of_plays plays)
    rw [Option.some.injEq] at same
    cases role with
    | table k path =>
      have name : mm = k := congrArg Prod.fst same
      exact .inl ⟨path, name ▸ plays⟩
    | heap k =>
      have name : mm = 0 := congrArg Prod.fst same
      exact absurd name (Nat.ne_of_gt live.1)
    | page k vma i =>
      have name : mm = k := congrArg Prod.fst same
      exact .inr ⟨vma, i, name ▸ plays⟩

/-- `pmm_free` of address `0` clears the first bit of a region at `0`, and no other bit of any
region. -/
theorem foldl_freeIn_zero (qs : List Region) (m : Bytes) (r : Region) (i : Nat) :
    regionGetBit (qs.foldl (freeIn 0) m) r i =
      (!decide (r.start = 0 ∧ i = 0 ∧ ∃ q ∈ qs, q.start = 0) && regionGetBit m r i) := by
  induction qs generalizing m with
  | nil => simp
  | cons q qs ih =>
    rw [List.foldl_cons, ih]
    by_cases low : q.start = 0
    · have call : freeIn 0 m q = Bitmap.clearBit m 0 0 := by
        unfold freeIn
        rw [if_neg (by omega), regionUnsetBit, low]
        rfl
      rw [call]
      by_cases start : r.start = 0
      · simp only [regionGetBit, start, Bitmap.bit_clearBit, List.mem_cons, exists_eq_or_imp, low,
          true_and, true_or, and_true]
        by_cases first : i = 0
        · simp [first]
        · simp [first]
      · have other : regionGetBit (Bitmap.clearBit m 0 0) r i = regionGetBit m r i := by
          refine Bitmap.bit_congr (Bitmap.clearBit_outside ?_)
          omega
        simp [start, other]
    · have call : freeIn 0 m q = m := by
        unfold freeIn
        rw [if_pos (by omega)]
      rw [call]
      simp [low]

/-- The extra free of address 0 is harmless exactly where no region begins there. -/
theorem reservedKept_iff (inv : FramesInv rs s.frames) (invT : FramesInv rs t.frames) :
    ReservedKept rs s (t.reclaimed rs mm) ↔ ∀ r ∈ rs.regions, r.start = 0 → r.pages = 0 := by
  have bit : ∀ r i, regionGetBit (t.reclaimed rs mm).frames.mem r i =
      (!decide (r.start = 0 ∧ i = 0 ∧ ∃ q ∈ rs.regions, q.start = 0) &&
        regionGetBit t.frames.mem r i) := foldl_freeIn_zero rs.regions t.frames.mem
  constructor
  · intro kept r mem low
    by_contra some
    have pos : 0 < r.pages := Nat.pos_of_ne_zero some
    have after := kept r mem 0 (Region.bmapPages_pos pos) (inv.reserved mem pos)
    rw [bit, decide_eq_true ⟨low, rfl, r, mem, low⟩] at after
    cases after
  · intro above r mem i lt _
    have some := Nat.lt_of_lt_of_le lt r.bmapPages_le
    have high : r.start ≠ 0 := fun low => by
      rw [above r mem low] at some
      exact Nat.not_lt_zero i some
    rw [bit, (invT.bits r mem i some).mpr (.inl lt)]
    simp [high]

/-- The calls of `mm_free`, from the invariant. -/
theorem Spaces.freed_calls (spaces : Spaces rs s lists areas) (names : Names s lists areas)
    (met : ¬ s.ranOut = true) (live : s.Live mm) (other : ∃ k, k ≠ mm ∧ s.Live k) :
    ∃ s', mmFree rs mm s = .ok ((), s') ∧ ¬ FreesOwn rs s s' mm ∧
      (∃ calls : List Nat, s.freesSince s' = (0, false) :: calls.map (·, true) ∧ calls.Nodup ∧
        ∀ f, f ∈ calls ↔ s.FrameOf mm f) ∧
      (ReservedKept rs s s' ↔ ∀ r ∈ rs.regions, r.start = 0 → r.pages = 0) := by
  obtain ⟨_, s', ran, _, _, t, freeing, nodes, rfl⟩ :=
    (mmFree_reclaims spaces live met other).total (Nat.zero_le _)
  obtain ⟨frees, history, all⟩ := freeing.frees
  have since : s.freesSince (t.reclaimed rs mm) = (0, false) :: frees :=
    freesSince_eq (congrArg ((0, false) :: ·) history)
  -- the calls on frames handed out are those but the last
  have through : frees.filter (·.2) = frees := List.filter_eq_self.mpr all
  obtain ⟨calls, record, perm⟩ := freesOnly_mmFree s () _ ran
  have same : calls = (0, false) :: frees := (freesSince_eq record).symm.trans since
  rw [same] at perm
  have perm : (frees.map Prod.fst ++ t.frames.taken).Perm s.frames.taken := by
    rw [← through]
    exact perm
  have nodup := perm.nodup_iff.mpr spaces.tables.frames.nodup
  obtain ⟨distinct, _, apart⟩ := List.nodup_append.mp nodup
  have pairs : frees = (frees.map Prod.fst).map (·, true) := by
    rw [List.map_map]
    conv_lhs => rw [← List.map_id frees]
    refine List.map_congr_left fun c mem => ?_
    exact Prod.ext rfl (all c mem)
  obtain ⟨confined, _⟩ := freeing.confined t.pmmFrees spaces names live nodes
  have spaces' := (freeing.freed_spaces spaces live).marked t.pmmFrees
  have dead : ¬ ({ t with freedMms := mm :: t.freedMms } : Vmm).Live mm := fun alive =>
    alive.2.2 List.mem_cons_self
  have frames : ∀ f, f ∈ frees.map Prod.fst ↔ s.FrameOf mm f := by
    intro f
    have rest := confined.frame_iff (f := f) spaces spaces'
    have nothing := spaces'.nothing (Nat.ne_of_gt live.1) dead
    have gone : ¬ ∃ p, held { t with freedMms := mm :: t.freedMms, pmmFrees := t.pmmFrees }
        (owns { t with freedMms := mm :: t.freedMms, pmmFrees := t.pmmFrees } areas) none
        (some (mm, p)) = some f := fun holds =>
      (Set.ext_iff.mp nothing (.frame f)).mp holds
    rw [and_iff_left gone, ← spaces.frameOf_iff live] at rest
    have handed : f ∈ s.frames.taken ↔ f ∈ frees.map Prod.fst ∨ f ∈ t.frames.taken := by
      rw [← perm.mem_iff, List.mem_append]
    constructor
    · intro freed
      by_contra foreign
      exact apart f freed f (rest.mpr ⟨handed.mpr (.inl freed), foreign⟩) rfl
    · intro mine
      obtain ⟨p, holds⟩ := (spaces.frameOf_iff live).mp mine
      refine (handed.mp (spaces.tables.exclusive.handed _ f holds)).resolve_right fun stays => ?_
      exact (rest.mp stays).2 mine
  refine ⟨t.reclaimed rs mm, ran, fun own => ?_, ⟨frees.map Prod.fst, ?_, distinct, frames⟩,
    reservedKept_iff spaces.tables.frames freeing.tables.frames⟩
  · have last := own.owned (0, false) (since ▸ List.mem_cons_self)
    cases last.1
  · rw [since, ← pairs]

/-- What `mm_free` passes to `pmm_free`. The calls are one on each frame of the space, all of them
handed out then, and a last one on address `0`, which is none; so they are never on the frames of the
space alone. The last one clears the bit of a page that holds a bitmap exactly when a region that has
pages starts at `0`. -/
theorem mmFree_calls (rs : RegionTable) (m : Bytes) (s₀ s : Vmm) (mm : Nat)
    (booted : kernelMmInit rs 0 (Vmm.boot rs m) = .ok ((), s₀))
    (reached : Reach (Vmm.step rs) (Vmm.Permitted rs) s₀ s) (met : s.ranOut = false)
    (live : s.Live mm) (other : ∃ k, k ≠ mm ∧ s.Live k) :
    ∃ s', mmFree rs mm s = .ok ((), s') ∧ ¬ FreesOwn rs s s' mm ∧
      (∃ calls : List Nat, s.freesSince s' = (0, false) :: calls.map (·, true) ∧ calls.Nodup ∧
        ∀ f, f ∈ calls ↔ s.FrameOf mm f) ∧
      (ReservedKept rs s s' ↔ ∀ r ∈ rs.regions, r.start = 0 → r.pages = 0) := by
  have met : ¬ s.ranOut = true := ne_true_of_eq_false met
  obtain ⟨lists, areas, spaces, names⟩ := names_of_boot booted reached met
  exact spaces.freed_calls names met live other

/-- A memory of one region at address `0`. -/
def lowRegion : Region where
  start := 0
  pages := 0x10000
  aligned := by decide
  fits := by decide

def lowTable : RegionTable := ⟨[lowRegion], List.pairwise_singleton _ _⟩

/-- Two spaces in that memory. -/
theorem exists_two : ∃ s₀ s mm k,
    kernelMmInit lowTable 0 (Vmm.boot lowTable fun _ => 0) = .ok ((), s₀) ∧
      Reach (Vmm.step lowTable) (Vmm.Permitted lowTable) s₀ s ∧ ¬ s.ranOut = true ∧ s.Live mm ∧
      k ≠ mm ∧ s.Live k := by
  obtain ⟨s₀, booted, met₀, left₀, spaces₀, _⟩ := exists_booted (n := 58750) lowTable (fun _ => 0)
    (List.mem_singleton_self lowRegion) (by decide)
  obtain ⟨mm, s₁, new₁, met₁, left₁, rfl, born₁⟩ := (mmNew_runs spaces₀ met₀).total (by omega)
  obtain ⟨k, s₂, new₂, met₂, _, rfl, born₂⟩ := (mmNew_runs born₁.spaces met₁).total (by omega)
  have live₁ : s₁.Live s₀.nmms := (born₁.live_iff spaces₀).mpr (.inr rfl)
  have alive : ∀ j, s₂.Live j ↔ s₁.Live j ∨ j = s₁.nmms := fun j =>
    born₂.live_iff born₁.spaces
  have taken₁ : Vmm.step lowTable .mmNew s₀ = .ok s₁ := by
    show (·.2) <$> mmNew lowTable s₀ = _
    rw [new₁]
    rfl
  have taken₂ : Vmm.step lowTable .mmNew s₁ = .ok s₂ := by
    show (·.2) <$> mmNew lowTable s₁ = _
    rw [new₂]
    rfl
  refine ⟨s₀, s₂, s₀.nmms, s₁.nmms, booted, ?_, met₂, (alive _).mpr (.inl live₁), ?_,
    (alive _).mpr (.inr rfl)⟩
  · exact .step (.step .start (show Vmm.Permitted lowTable .mmNew s₀ from trivial) taken₁)
      (show Vmm.Permitted lowTable .mmNew s₁ from trivial) taken₂
  · rw [born₁.nmms]
    exact Nat.succ_ne_self _

/-- With a region at address `0`, freeing one of two spaces clears the bit of the page that holds
the region's bitmap. -/
theorem mmFree_clears_bitmap : ∃ s₀ s s' mm k,
    kernelMmInit lowTable 0 (Vmm.boot lowTable fun _ => 0) = .ok ((), s₀) ∧
      Reach (Vmm.step lowTable) (Vmm.Permitted lowTable) s₀ s ∧ s.ranOut = false ∧ s.Live mm ∧
      k ≠ mm ∧ s.Live k ∧ mmFree lowTable mm s = .ok ((), s') ∧ ¬ FreesOwn lowTable s s' mm ∧
      ¬ ReservedKept lowTable s s' := by
  obtain ⟨s₀, s, mm, k, booted, reached, met, live, ne, liveK⟩ := exists_two
  obtain ⟨lists, areas, spaces, names⟩ := names_of_boot booted reached met
  obtain ⟨s', ran, wrong, _, kept⟩ := spaces.freed_calls names met live ⟨k, ne, liveK⟩
  refine ⟨s₀, s, s', mm, k, booted, reached, Bool.eq_false_of_not_eq_true met, live, ne, liveK, ran,
    wrong, fun reserved => ?_⟩
  have none := kept.mp reserved lowRegion List.mem_cons_self rfl
  cases none

/-- The calls in that memory. -/
theorem mmFree_calls_low : ∃ s₀ s s' mm,
    kernelMmInit lowTable 0 (Vmm.boot lowTable fun _ => 0) = .ok ((), s₀) ∧
      Reach (Vmm.step lowTable) (Vmm.Permitted lowTable) s₀ s ∧ s.ranOut = false ∧ s.Live mm ∧
      mmFree lowTable mm s = .ok ((), s') ∧ ¬ FreesOwn lowTable s s' mm := by
  obtain ⟨s₀, s, mm, k, booted, reached, met, live, ne, liveK⟩ := exists_two
  have met' : s.ranOut = false := Bool.eq_false_of_not_eq_true met
  obtain ⟨s', ran, wrong, _⟩ :=
    mmFree_calls lowTable (fun _ => 0) s₀ s mm booted reached met' live ⟨k, ne, liveK⟩
  exact ⟨s₀, s, s', mm, booted, reached, met', live, ran, wrong⟩

end Blackcomb.Mm
