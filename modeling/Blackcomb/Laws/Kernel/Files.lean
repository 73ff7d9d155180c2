import Mathlib.Algebra.BigOperators.Group.Finset.Piecewise
import Mathlib.Algebra.Order.BigOperators.Group.Finset
import Mathlib.Data.Fintype.Basic
import Blackcomb.Laws.Kernel.RunRing

/-!
# Reference counts of open files

A file is meant to be held by as many descriptor slots as its `refcnt` says, and to be freed with
the last of them. `do_fork` and `task_free` keep the account; `do_open` never enters the slot it
fills, `do_close` frees without looking at the count, and a `do_wait` that reaps a task a second
time drops its references a second time. On the runs that stay clear of these the account is exact
(`refcnt_exact`).

**What it does not establish.** Once a run has left the condition the account may come right again
by chance, and the condition is said of every step: so nothing is claimed of the runs that leave it,
but for the one that shows it is needed.
-/

namespace Blackcomb.Kernel

open State Run

/-! ## Counting slots -/

/-- How many slots of one task hold the file. -/
def Task.slots (x : Task) (f : Nat) : Nat :=
  (List.finRange taskFileMax).countP fun i => x.fdtab i = some f

/-- The tasks that exist and have not been freed. -/
def State.unfreed (s : State) : Finset Nat :=
  (Finset.range s.ntasks).filter (· ∉ s.freed)

/-- How many slots of unfreed tasks hold the file. -/
def State.slots (s : State) (f : Nat) : Nat :=
  ∑ t ∈ s.unfreed, (s.tasks t).slots f

/-- The tasks that were created and not freed. -/
theorem mem_unfreed {s : State} {t : Nat} : t ∈ s.unfreed ↔ t < s.ntasks ∧ t ∉ s.freed := by
  simp [State.unfreed]

/-- A task's slots for a file, counted one by one. -/
theorem Task.slots_eq_sum (x : Task) (f : Nat) :
    x.slots f = ∑ i, if x.fdtab i = some f then 1 else 0 := by
  rw [← Finset.card_filter, Finset.card_def, Finset.filter_val, Fin.univ_def]
  simp [Task.slots, List.countP_eq_length_filter]

/-- A slot that holds a file is counted. -/
theorem Task.slots_pos {x : Task} {f : Nat} {i : Fin taskFileMax} (h : x.fdtab i = some f) :
    0 < x.slots f :=
  List.countP_pos_iff.mpr ⟨i, List.mem_finRange i, by simpa using h⟩

/-- Emptying a slot takes one from the count of the file it held. -/
theorem Task.slots_update {x y : Task} {i : Fin taskFileMax} {f : Nat}
    (slot : x.fdtab i = some f) (table : y.fdtab = Function.update x.fdtab i none) (g : Nat) :
    y.slots g + (if g = f then 1 else 0) = x.slots g := by
  rw [Task.slots_eq_sum, Task.slots_eq_sum, table, ← Finset.add_sum_erase _ _ (Finset.mem_univ i),
    ← Finset.add_sum_erase (Finset.univ) (fun j => if x.fdtab j = some g then 1 else 0)
      (Finset.mem_univ i)]
  have rest : ∀ j ∈ Finset.univ.erase i,
      (if Function.update x.fdtab i none j = some g then 1 else 0) =
        if x.fdtab j = some g then 1 else 0 := by
    intro j hj
    rw [Function.update_of_ne (Finset.ne_of_mem_erase hj)]
  rw [Finset.sum_congr rfl rest]
  simp only [Function.update_self, slot, Option.some.injEq, eq_comm (a := f)]
  simp [Nat.add_comm]

/-- The slots of one unfreed task are among all slots. -/
theorem State.slots_le {s : State} {t : Nat} (ht : t ∈ s.unfreed) (f : Nat) :
    (s.tasks t).slots f ≤ s.slots f :=
  Finset.single_le_sum (f := fun t => (s.tasks t).slots f) (fun _ _ => Nat.zero_le _) ht

/-- A file that an unfreed task holds has a slot. -/
theorem State.slots_pos {s : State} {t : Nat} {i : Fin taskFileMax} {f : Nat} (ht : t ∈ s.unfreed)
    (slot : (s.tasks t).fdtab i = some f) : 0 < s.slots f :=
  Nat.lt_of_lt_of_le (Task.slots_pos slot) (slots_le ht f)

/-- The count depends on the tables of the living tasks only. -/
theorem slots_congr {s s' : State} (fdtab : ∀ t ∈ s.unfreed, (s'.tasks t).fdtab = (s.tasks t).fdtab)
    (unfreed : s'.unfreed = s.unfreed) (f : Nat) : s'.slots f = s.slots f := by
  unfold State.slots
  rw [unfreed]
  refine Finset.sum_congr rfl fun t ht => ?_
  simp only [Task.slots, fdtab t ht]

/-! ## The loops -/

/-- The loop of `do_fork` adds one reference for each slot it copies. -/
theorem foldl_forkFd_refcnt (t new : Nat) (ne : t ≠ new) (f : Nat) :
    ∀ (is : List (Fin taskFileMax)) (s : State),
    ((is.foldl (forkFd t new) s).files f).refcnt =
      (s.files f).refcnt + (is.countP fun i => (s.tasks t).fdtab i = some f : Nat)
  | [], s => by simp
  | i :: is, s => by
    have table : ((forkFd t new s i).tasks t).fdtab = (s.tasks t).fdtab := by
      funext j
      rw [forkFd_fdtab]
      simp [ne]
    have here : ((forkFd t new s i).files f).refcnt =
        (s.files f).refcnt + if (s.tasks t).fdtab i = some f then 1 else 0 := by
      unfold forkFd
      cases slot : (s.tasks t).fdtab i with
      | none => simp
      | some g =>
        by_cases e : f = g
        · subst e
          simp [State.modifyTask]
        · simp [State.modifyTask, e, Ne.symm e]
    rw [List.foldl_cons, foldl_forkFd_refcnt t new ne f is, table, here, List.countP_cons]
    by_cases e : (s.tasks t).fdtab i = some f
    · simp [e]
      omega
    · simp [e]

/-- The loop of `task_free` drops one reference for each slot, and frees the file when the count
passes through zero. -/
theorem foldl_freeFd_files (t f : Nat) : ∀ (is : List (Fin taskFileMax)) (s : State),
    let k : Nat := is.countP fun i => (s.tasks t).fdtab i = some f
    ((is.foldl (freeFd t) s).files f).refcnt = (s.files f).refcnt - k ∧
    (is.foldl (freeFd t) s).freedFiles.count f = s.freedFiles.count f +
      if 1 ≤ (s.files f).refcnt ∧ (s.files f).refcnt ≤ k then 1 else 0
  | [], s => by
    have none : ¬ (1 ≤ (s.files f).refcnt ∧ (s.files f).refcnt ≤ 0) := by omega
    simp [none]
  | i :: is, s => by
    have table : ((freeFd t s i).tasks t).fdtab = (s.tasks t).fdtab := by rw [freeFd_frame]
    obtain ⟨refcnt, freed⟩ := foldl_freeFd_files t f is (freeFd t s i)
    simp only [table] at refcnt freed
    have here : ((freeFd t s i).files f).refcnt =
        (s.files f).refcnt - (if (s.tasks t).fdtab i = some f then 1 else 0) ∧
      (freeFd t s i).freedFiles.count f = s.freedFiles.count f +
        if (s.tasks t).fdtab i = some f ∧ (s.files f).refcnt = 1 then 1 else 0 := by
      unfold freeFd
      cases slot : (s.tasks t).fdtab i with
      | none => simp
      | some g =>
        by_cases e : f = g
        · subst e
          by_cases one : (s.files f).refcnt = 1 <;> simp [one, sub_eq_zero]
        · by_cases zero : (s.files g).refcnt - 1 = 0 <;> simp [e, Ne.symm e, zero]
    rw [List.foldl_cons, List.countP_cons, refcnt, freed, here.1, here.2]
    by_cases e : (s.tasks t).fdtab i = some f
    · simp only [e, decide_true, if_true, true_and]
      refine ⟨by omega, ?_⟩
      split <;> split <;> split <;> omega
    · simp [e]

/-! ## The account -/

/-- The account of the files is exact: an unfreed file counts its slots, no slot of an unfreed task
holds a freed file, and the freed files are those without a slot, each freed once. -/
structure RefcntExact (s : State) : Prop where
  refcnt : ∀ f < s.nfiles, f ∉ s.freedFiles → (s.files f).refcnt = s.slots f
  held : ∀ t < s.ntasks, t ∉ s.freed → ∀ i f, (s.tasks t).fdtab i = some f → f ∉ s.freedFiles
  freed : ∀ f < s.nfiles, f ∈ s.freedFiles ↔ s.slots f = 0
  once : s.freedFiles.Nodup

/-- The steps that keep the account: no `do_open`, a `do_close` only of a file's last slot, and a
`do_wait` only of a task that has not been reaped before. -/
def KeepsAccount (event : Event) (s : State) : Prop :=
  match event with
  | .open_ _ _ => False
  | .close fd => ∀ (i : Fin taskFileMax) (f : Nat), fd = i.val →
      (s.tasks s.current).fdtab i = some f → s.slots f = 1
  | .wait => ∀ c, findZombie s s.ntasks (s.tasks s.current).children = .ok (some c) → c ∉ s.freed
  | _ => True

/-- The account as the steps keep it. A file is freed once if it exists and has no slot, and never
otherwise. -/
structure Account (s : State) : Prop where
  freed : ∀ f, s.freedFiles.count f = if f < s.nfiles ∧ s.slots f = 0 then 1 else 0
  refcnt : ∀ f < s.nfiles, s.slots f ≠ 0 → (s.files f).refcnt = s.slots f
  made : ∀ t ∈ s.unfreed, ∀ i f, (s.tasks t).fdtab i = some f → f < s.nfiles
  ring : ∃ qs, RingInv s qs

/-- The freed files are those that no slot holds any more. -/
theorem Account.mem_freed {s : State} (inv : Account s) (f : Nat) :
    f ∈ s.freedFiles ↔ f < s.nfiles ∧ s.slots f = 0 := by
  rw [← List.count_pos_iff, inv.freed f]
  split <;> simp_all

/-- The account is the count that `open.h` asks for. -/
theorem Account.exact {s : State} (inv : Account s) : RefcntExact s := by
  refine ⟨fun f lt notFreed => inv.refcnt f lt ?_, fun t lt notFreed i f slot mem => ?_,
    fun f lt => ?_, List.nodup_iff_count_le_one.mpr fun f => ?_⟩
  · exact fun zero => notFreed ((inv.mem_freed f).mpr ⟨lt, zero⟩)
  · have := slots_pos (mem_unfreed.mpr ⟨lt, notFreed⟩) slot
    rw [((inv.mem_freed f).mp mem).2] at this
    exact Nat.lt_irrefl 0 this
  · rw [inv.mem_freed f]
    exact ⟨And.right, fun zero => ⟨lt, zero⟩⟩
  · rw [inv.freed f]
    split <;> simp

/-- The current task is not freed. -/
theorem Account.current_unfreed {s : State} (inv : Account s) : s.current ∈ s.unfreed := by
  obtain ⟨qs, ring⟩ := inv.ring
  obtain ⟨lt, notFreed, _⟩ := ring.current_runnable
  exact mem_unfreed.mpr ⟨lt, notFreed⟩

/-! ## The steps keep it -/

/-- A fork adds the parent's slots to the counts of their files. -/
theorem schedFork_refcnt {s s' : State} {t stack : Nat} (h : schedFork s t stack = .ok s')
    (f : Nat) : (s'.files f).refcnt = (s.files f).refcnt + ((s.tasks t).slots f : Nat) := by
  obtain ⟨lt, s₁, s₂, forked, inserted, linked⟩ := schedFork_inv h
  obtain ⟨_, _, rest, _⟩ := treeInsertProc_spec linked
  have ne : t ≠ s.ntasks := Nat.ne_of_lt lt
  have before : (forkTask s).tasks t = s.tasks t := by
    simp [forkTask, State.modifyTask, ne]
  rw [rest]
  show (s₂.files f).refcnt = _
  rw [(schedRrInsertProc_schedOnly inserted).files]
  unfold doFork at forked
  simp only [Prod.mk.injEq, true_and] at forked
  rw [← forked, ← before]
  exact foldl_forkFd_refcnt t s.ntasks ne f _ (forkTask s)

/-- A fork copies the table and counts every file in it once more. -/
theorem Account.fork {s s' : State} {stack : Nat} (inv : Account s)
    (h : schedFork s s.current stack = .ok s') : Account s' := by
  obtain ⟨qs, ring⟩ := inv.ring
  have spec := schedFork_spec h
  have fresh : s.ntasks ∉ s.unfreed := fun mem => Nat.lt_irrefl _ (mem_unfreed.mp mem).1
  have unfreed : s'.unfreed = insert s.ntasks s.unfreed := by
    have unseen : s.ntasks ∉ s.freed := fun mem => Nat.lt_irrefl _ (ring.freed _ mem).1
    ext t
    rw [Finset.mem_insert, mem_unfreed, mem_unfreed, spec.ntasks, spec.freed,
      Nat.lt_succ_iff_lt_or_eq]
    constructor
    · rintro ⟨lt | rfl, live⟩
      · exact .inr ⟨lt, live⟩
      · exact .inl rfl
    · rintro (rfl | ⟨lt, live⟩)
      · exact ⟨.inr rfl, unseen⟩
      · exact ⟨.inl lt, live⟩
  have old : ∀ t ∈ s.unfreed, (s'.tasks t).fdtab = (s.tasks t).fdtab := fun t ht =>
    spec.fdtab t (Nat.ne_of_lt (mem_unfreed.mp ht).1)
  have slots : ∀ f, s'.slots f = (s.tasks s.current).slots f + s.slots f := by
    intro f
    unfold State.slots
    rw [unfreed, Finset.sum_insert fresh]
    congr 1
    · simp only [Task.slots, spec.newFdtab]
    · exact Finset.sum_congr rfl fun t ht => by simp only [Task.slots, old t ht]
  -- a file without slots has none in the parent either, so a fork never revives one
  have zero : ∀ f, s'.slots f = 0 ↔ s.slots f = 0 := by
    intro f
    have := slots_le inv.current_unfreed f
    rw [slots f]
    omega
  refine ⟨fun f => ?_, fun f lt some_ => ?_, fun t ht i f slot => ?_, ring.fork h⟩
  · rw [spec.freedFiles, spec.nfiles, inv.freed f]
    simp only [zero f]
  · rw [spec.nfiles] at lt
    rw [schedFork_refcnt h f, inv.refcnt f lt (fun e => some_ ((zero f).mpr e)), slots f]
    omega
  · rw [spec.nfiles]
    rw [unfreed, Finset.mem_insert] at ht
    rcases ht with rfl | ht
    · rw [spec.newFdtab] at slot
      exact inv.made _ inv.current_unfreed i f slot
    · rw [old t ht] at slot
      exact inv.made t ht i f slot

/-- A step that touches neither tables nor files keeps the account. -/
theorem Account.quiet {s s' : State} (inv : Account s) (quiet : Quiet s s')
    (ring : ∃ qs, RingInv s' qs) : Account s' := by
  have unfreed : s'.unfreed = s.unfreed := by
    unfold State.unfreed
    rw [quiet.ntasks, quiet.freed]
  have slots := slots_congr (fun t _ => quiet.fdtab t) unfreed
  refine ⟨fun f => ?_, fun f lt some_ => ?_, fun t ht i f slot => ?_, ring⟩
  · rw [quiet.freedFiles, quiet.nfiles, slots f, inv.freed f]
  · rw [slots f] at some_ ⊢
    rw [quiet.files]
    exact inv.refcnt f (quiet.nfiles ▸ lt) some_
  · rw [quiet.nfiles]
    exact inv.made t (unfreed ▸ ht) i f (quiet.fdtab t ▸ slot)

/-- Closing a file's last slot frees it, and it has no slot left. -/
theorem Account.close {s s' : State} {i : Fin taskFileMax} {f : Nat} (inv : Account s)
    (spec : CloseSpec s s' i f) (last : s.slots f = 1) (ring : ∃ qs, RingInv s' qs) :
    Account s' := by
  have unfreed : s'.unfreed = s.unfreed := by
    unfold State.unfreed
    rw [spec.ntasks, spec.freed]
  have slots : ∀ g, s'.slots g + (if g = f then 1 else 0) = s.slots g := by
    intro g
    unfold State.slots
    rw [unfreed, ← Finset.add_sum_erase _ _ inv.current_unfreed,
      ← Finset.add_sum_erase s.unfreed (fun t => (s.tasks t).slots g) inv.current_unfreed]
    have rest : ∀ t ∈ s.unfreed.erase s.current, (s'.tasks t).slots g = (s.tasks t).slots g := by
      intro t ht
      simp only [Task.slots, spec.fdtab t, if_neg (Finset.ne_of_mem_erase ht)]
    have here := Task.slots_update (y := s'.tasks s.current) spec.slot
      (by rw [spec.fdtab, if_pos rfl]) g
    rw [Finset.sum_congr rfl rest]
    omega
  have closed : s'.slots f = 0 := by
    have := slots f
    rw [if_pos rfl] at this
    omega
  have others : ∀ g, g ≠ f → s'.slots g = s.slots g := by
    intro g ne
    simpa [ne] using slots g
  refine ⟨fun g => ?_, fun g lt some_ => ?_, fun t ht j g slot => ?_, ring⟩
  · rw [spec.freedFiles, List.count_cons, spec.nfiles, inv.freed g]
    by_cases e : g = f
    · subst e
      have made := inv.made _ inv.current_unfreed i g spec.slot
      simp [closed, last, made]
    · simp [Ne.symm e, others g e]
  · have ne : g ≠ f := fun e => some_ (e ▸ closed)
    rw [others g ne] at some_ ⊢
    rw [spec.files]
    exact inv.refcnt g (spec.nfiles ▸ lt) some_
  · rw [spec.nfiles]
    rw [unfreed] at ht
    rw [spec.fdtab t] at slot
    split at slot
    · by_cases e : j = i
      · subst e
        simp at slot
      · rw [Function.update_of_ne e] at slot
        exact inv.made t ht j g slot
    · exact inv.made t ht j g slot

/-- Reaping a task for the first time drops exactly its slots. -/
theorem Account.reap {s : State} {c : Nat} {ret : WaitReturn} (inv : Account s)
    (hc : c ∈ s.unfreed)
    (ring : ∃ qs, RingInv (taskFree { s with waits := ret :: s.waits } c) qs) :
    Account (taskFree { s with waits := ret :: s.waits } c) := by
  have loop := fun f => foldl_freeFd_files c f (List.finRange taskFileMax)
    { s with waits := ret :: s.waits, freedMms := (s.tasks c).mm :: s.freedMms }
  have refcnt : ∀ f, ((taskFree { s with waits := ret :: s.waits } c).files f).refcnt =
      (s.files f).refcnt - ((s.tasks c).slots f : Nat) := fun f => (loop f).1
  have freed : ∀ f, (taskFree { s with waits := ret :: s.waits } c).freedFiles.count f =
      s.freedFiles.count f +
        if 1 ≤ (s.files f).refcnt ∧ (s.files f).refcnt ≤ ((s.tasks c).slots f : Nat) then 1
        else 0 := fun f => (loop f).2
  have frame := taskFree_frame { s with waits := ret :: s.waits } c
  generalize taskFree { s with waits := ret :: s.waits } c = s' at *
  have tasks : s'.tasks = s.tasks := by rw [frame]
  have nfiles : s'.nfiles = s.nfiles := by rw [frame]
  have unfreed : s'.unfreed = s.unfreed.erase c := by
    ext t
    rw [mem_unfreed, Finset.mem_erase, mem_unfreed, frame]
    simp only [List.mem_cons, not_or]
    tauto
  have slots : ∀ f, (s.tasks c).slots f + s'.slots f = s.slots f := by
    intro f
    unfold State.slots
    rw [unfreed, tasks]
    exact Finset.add_sum_erase s.unfreed (fun t => (s.tasks t).slots f) hc
  refine ⟨fun f => ?_, fun f lt some_ => ?_, fun t ht i f slot => ?_, ring⟩
  · have split := slots f
    have made : (s.tasks c).slots f ≠ 0 → f < s.nfiles := by
      intro ne
      obtain ⟨i, _, slot⟩ := List.countP_pos_iff.mp (Nat.pos_of_ne_zero ne)
      exact inv.made c hc i f (by simpa using slot)
    rw [freed f, nfiles, inv.freed f]
    by_cases lt : f < s.nfiles
    · by_cases zero : s.slots f = 0
      · have k : (s.tasks c).slots f = 0 := by omega
        have none : ¬ (1 ≤ (s.files f).refcnt ∧ (s.files f).refcnt ≤ 0) := by omega
        have k' : s'.slots f = 0 := by omega
        simp [lt, zero, k, k', none]
      · have count := inv.refcnt f lt zero
        by_cases gone : s'.slots f = 0
        · have : 1 ≤ (s.files f).refcnt ∧ (s.files f).refcnt ≤ ((s.tasks c).slots f : Nat) := by
            omega
          simp [lt, zero, gone, this]
        · have : ¬ (1 ≤ (s.files f).refcnt ∧
              (s.files f).refcnt ≤ ((s.tasks c).slots f : Nat)) := by
            omega
          simp [zero, gone, this]
    · have k : (s.tasks c).slots f = 0 := by
        by_contra ne
        exact lt (made ne)
      have none : ¬ (1 ≤ (s.files f).refcnt ∧ (s.files f).refcnt ≤ 0) := by omega
      simp [lt, k, none]
  · have split := slots f
    rw [nfiles] at lt
    rw [refcnt f, inv.refcnt f lt (by omega)]
    omega
  · rw [nfiles]
    rw [unfreed] at ht
    rw [tasks] at slot
    exact inv.made t (Finset.mem_of_mem_erase ht) i f slot

/-- Every event that meets the condition keeps the account. -/
theorem Account.step {event : Event} {s s' : State} (inv : Account s)
    (guard : KeepsAccount event s) (h : Kernel.step event s = .ok s') : Account s' := by
  obtain ⟨qs, ring⟩ := inv.ring
  have ring' := ring.step h
  rcases step_cases h with ⟨stack, rfl, _⟩ | ⟨c, rfl, found, rfl⟩ | ⟨_, _, rfl, _⟩ |
    ⟨i, f, rfl, spec⟩ | quiet
  · exact inv.fork h
  · exact inv.reap (mem_unfreed.mpr ⟨(findZombie_zombie found).1, guard c found⟩) ring'
  · exact guard.elim
  · exact inv.close spec (guard i f rfl spec.slot) ring'
  · exact inv.quiet quiet ring'

/-- `init` starts with its input and its output. -/
theorem slots_startInit (stack f : Nat) :
    (startInit stack).slots f = if f < 2 then 1 else 0 := by
  have unfreed : (startInit stack).unfreed = {0} := rfl
  unfold State.slots
  rw [unfreed, Finset.sum_singleton]
  match f with
  | 0 => rfl
  | 1 => rfl
  | f + 2 =>
    rw [if_neg (by omega)]
    refine List.countP_eq_zero.mpr fun i _ => ?_
    show ¬ (decide ((if i = 0 then some 0 else if i = 1 then some 1 else none) = some (f + 2)) = true)
    split
    · simp
    · split <;> simp

/-- The account is right at the start. -/
theorem Account.start (stack : Nat) : Account (startInit stack) := by
  refine ⟨fun f => ?_, fun f lt _ => ?_, fun t ht i f slot => ?_, [], RingInv.start stack⟩
  · rw [slots_startInit]
    show 0 = if f < 2 ∧ _ then 1 else 0
    by_cases lt : f < 2 <;> simp [lt]
  · change f < 2 at lt
    rw [slots_startInit, if_pos lt]
    match f, lt with
    | 0, _ => rfl
    | 1, _ => rfl
  · show f < 2
    by_contra large
    have := slots_pos ht slot
    rw [slots_startInit, if_neg large] at this
    exact Nat.lt_irrefl 0 this

/-- **Reference counts.** In every run that opens nothing, closes only last slots and reaps no task
twice, the account of the files is exact in every state. -/
theorem refcnt_exact (stack : Nat) (s : State)
    (reached : Reach step KeepsAccount (startInit stack) s) : RefcntExact s :=
  (reached.invariant Account (Account.start stack) fun _ _ _ => Account.step).exact

/-- Init forks, the child exits and is reaped once. -/
theorem refcnt_exact_reaped : ∃ s, Reach step KeepsAccount (startInit 0) s ∧ s.freed = [1] ∧
    RefcntExact s := by
  obtain ⟨s₁, exited, observed⟩ := follow_of_observed step (startInit 0)
    [.fork 0, .schedule, .exit 0] (fun s => s.freed) [] (by decide +kernel)
  obtain ⟨s₂, reaped, freed⟩ := follow_of_observed step (startInit 0)
    [.fork 0, .schedule, .exit 0, .wait] (fun s => s.freed) [1] (by decide +kernel)
  have last : step .wait s₁ = .ok s₂ := step_of_follow exited reaped
  have reached : Reach step KeepsAccount (startInit 0) s₂ := by
    refine .step (.of_follow .start ?_ exited) ?_ last
    · intro l hl s
      simp only [List.mem_cons, List.not_mem_nil, or_false] at hl
      rcases hl with rfl | rfl | rfl <;> exact trivial
    · intro c _
      rw [observed]
      exact List.not_mem_nil
  exact ⟨s₂, reached, freed, refcnt_exact 0 s₂ reached⟩

/-- Init opens a regular file: the file has one slot and its count is zero. -/
theorem refcnt_exact_fails : ∃ s, follow step (startInit 0) [.open_ 12 0x81a4] = .ok s ∧
    2 < s.nfiles ∧ 2 ∉ s.freedFiles ∧ s.slots 2 = 1 ∧ (s.files 2).refcnt = 0 ∧
    ¬ RefcntExact s := by
  obtain ⟨s, run, observed⟩ := follow_of_observed step (startInit 0) [.open_ 12 0x81a4]
    (fun s => (s.nfiles, s.freedFiles, s.slots 2, (s.files 2).refcnt)) (3, [], 1, 0)
    (by decide +kernel)
  obtain ⟨nfiles, freed, slots, refcnt⟩ :
      s.nfiles = 3 ∧ s.freedFiles = [] ∧ s.slots 2 = 1 ∧ (s.files 2).refcnt = 0 := by
    simpa using observed
  have unfreed : 2 ∉ s.freedFiles := by simp [freed]
  refine ⟨s, run, by omega, unfreed, slots, refcnt, fun exact_ => ?_⟩
  have := exact_.refcnt 2 (by omega) unfreed
  rw [slots, refcnt] at this
  cases this

end Blackcomb.Kernel
