import Blackcomb.Laws.Kernel.Fairness

/-!
# Pids

`next_pid` starts at 1000, is counted up by `do_fork` alone, and wraps. So the pid of a task is told by
its place in the order of creation, and the first that two tasks have in common is init's
(`pids_exact`). `switch_to` compares pids and not tasks, and panics when they are equal: until then,
turns can be taken for ever.

**What it does not establish.** Pids of tasks that are gone are not used again before the counter
wraps, and after it no test keeps them apart.
-/

namespace Blackcomb.Kernel

open State Ring Run

variable {s s' s'' : State} {qs : List Nat} {t : Nat}

/-- Every task has the pid it had, and no pid was given out. -/
structure SamePids (s s' : State) : Prop where
  pid : ∀ t, (s'.tasks t).pid = (s.tasks t).pid
  ntasks : s'.ntasks = s.ntasks
  nextPid : s'.nextPid = s.nextPid

theorem SamePids.trans (h : SamePids s s') (k : SamePids s' s'') : SamePids s s'' where
  pid := fun t => (k.pid t).trans (h.pid t)
  ntasks := k.ntasks.trans h.ntasks
  nextPid := k.nextPid.trans h.nextPid

/-- The scheduler's own steps keep all pids. -/
theorem SchedOnly.samePids (only : SchedOnly s s') : SamePids s s' where
  pid := only.pid
  ntasks := only.ntasks
  nextPid := by rw [only.rest]

/-- Another field of a task is not its pid. -/
theorem samePids_modifyTask (s : State) (t : Nat) {f : Task → Task}
    (own : ∀ x : Task, (f x).pid = x.pid) : SamePids s (s.modifyTask t f) := by
  refine ⟨fun x => ?_, rfl, rfl⟩
  rw [modifyTask_tasks]
  split
  · rename_i e
    rw [e]
    exact own _
  · rfl

/-- An exit keeps all pids. -/
theorem doExit_samePids {status : Int} (h : doExit s t status = .ok s') : SamePids s s' := by
  have marked : SamePids s (exiting s t status) := by
    have same := samePids_modifyTask s t (f := fun x =>
      { x with state := .zombie, exitStatus := status }) fun _ => rfl
    exact ⟨same.pid, rfl, rfl⟩
  obtain ⟨p, _, _, ⟨_, s₁, inserted, slept⟩ | ⟨_, slept⟩⟩ := doExit_inv h
  · have woken := samePids_modifyTask s₁ p (f := fun x => { x with state := .running }) fun _ => rfl
    exact marked.trans <| (schedRrInsertProc_schedOnly inserted).samePids.trans <|
      woken.trans (scheduleSleep_schedOnly slept).samePids
  · exact marked.trans (scheduleSleep_schedOnly slept).samePids

theorem doWait_samePids (h : doWait s s.current = .ok s') : SamePids s s' := by
  rcases doWait_inv h with ⟨_, slept⟩ | ⟨c, _, rfl⟩
  · have marked := samePids_modifyTask s s.current (f := fun x => { x with state := .waiting })
      fun _ => rfl
    exact marked.trans (scheduleSleep_schedOnly slept).samePids
  · rw [taskFree_frame]
    exact ⟨fun _ => rfl, rfl, rfl⟩

theorem ttySendKey_samePids {pressed : Ps2Key} (h : ttySendKey s pressed = .ok s') :
    SamePids s s' := by
  have same : ∀ tty, SamePids s { s with tty := tty } := fun tty => ⟨fun _ => rfl, rfl, rfl⟩
  obtain ⟨tty, _, rfl | ⟨w, s₁, _, inserted, rfl⟩⟩ := ttySendKey_inv h
  · exact same tty
  · have only := (same tty).trans (schedRrInsertProc_schedOnly inserted).samePids
    exact ⟨only.pid, only.ntasks, only.nextPid⟩

/-- `sched_fork` gives the new task the next pid. -/
theorem schedFork_pids {stack : Nat} (h : schedFork s t stack = .ok s') :
    (∀ x, (s'.tasks x).pid = if x = s.ntasks then s.nextPid else (s.tasks x).pid) ∧
      s'.ntasks = s.ntasks + 1 ∧ s'.nextPid = (s.nextPid + 1) % 2 ^ 32 := by
  obtain ⟨lt, s₁, s₂, forked, inserted, linked⟩ := schedFork_inv h
  obtain ⟨_, others, made, rest⟩ := doFork_spec lt forked
  obtain ⟨_, _, treeRest, tree⟩ := treeInsertProc_spec linked
  have only := (schedRrInsertProc_schedOnly inserted).samePids
  refine ⟨fun x => ?_, ?_, ?_⟩
  · rw [tree x]
    show (s₂.tasks x).pid = _
    rw [only.pid]
    split
    · rename_i new
      rw [new, made]
    · rename_i old
      rw [others x old]
  · rw [treeRest]
    exact only.ntasks.trans (by rw [rest])
  · rw [treeRest]
    exact only.nextPid.trans (by rw [rest])

/-- Only `fork` gives out a pid. -/
theorem step_pids {event : Event} (h : step event s = .ok s') :
    (∃ stack, event = .fork stack ∧ schedFork s s.current stack = .ok s') ∨ SamePids s s' := by
  cases event with
  | fork stack => exact .inl ⟨stack, rfl, h⟩
  | exec =>
    cases h
    have given := samePids_modifyTask s s.current (f := fun x => { x with mm := s.nmms }) fun _ => rfl
    exact .inr ⟨given.pid, rfl, rfl⟩
  | exit status => exact .inr (doExit_samePids h)
  | wait => exact .inr (doWait_samePids h)
  | read =>
    have only := (scheduleSleep_schedOnly (stdinRead_inv h).2).samePids
    exact .inr ⟨only.pid, only.ntasks, only.nextPid⟩
  | readResume n =>
    cases h
    exact .inr ⟨fun _ => rfl, rfl, rfl⟩
  | key pressed => exact .inr (ttySendKey_samePids h)
  | tick => exact .inr (schedMaybePreempt_schedOnly h).samePids
  | schedule => exact .inr (schedule_schedOnly h).samePids
  | open_ ino mode =>
    obtain ⟨i, ops, _, rfl⟩ := doOpen_inv h
    have filled := samePids_modifyTask s s.current (f := fun x =>
      { x with fdtab := Function.update x.fdtab i (some s.nfiles) }) fun _ => rfl
    exact .inr ⟨filled.pid, rfl, rfl⟩
  | close fd =>
    obtain ⟨i, f, _, _, rfl⟩ := doClose_inv h
    have emptied := samePids_modifyTask s s.current (f := fun x =>
      { x with fdtab := Function.update x.fdtab i none }) fun _ => rfl
    exact .inr ⟨emptied.pid, rfl, rfl⟩

/-- The pid of the task that was made as the `t`th one. -/
def pidOf (t : Nat) : Nat := if t = 0 then 1 else (999 + t) % 2 ^ 32

/-- The tasks that have different pids, and one more. -/
def pidLimit : Nat := 2 ^ 32 - 998

/-- The pids are those of the order of creation. -/
structure Numbered (s : State) : Prop where
  pid : ∀ t < s.ntasks, (s.tasks t).pid = pidOf t
  nextPid : s.nextPid = pidOf s.ntasks
  pos : 0 < s.ntasks

/-- Pids are given out in order, modulo `2^32`. -/
theorem pidOf_succ (pos : 0 < t) : pidOf (t + 1) = (pidOf t + 1) % 2 ^ 32 := by
  rw [pidOf, pidOf, if_neg (by omega), if_neg (by omega)]
  omega

/-- After every event the tasks are numbered in the order of their creation. -/
theorem Numbered.step {event : Event} (numbered : Numbered s) (h : Kernel.step event s = .ok s') :
    Numbered s' := by
  rcases step_pids h with ⟨stack, _, forked⟩ | same
  · obtain ⟨pids, ntasks, next⟩ := schedFork_pids forked
    refine ⟨fun t lt => ?_, ?_, by omega⟩
    · rw [pids t]
      split
      · rename_i new
        rw [numbered.nextPid, new]
      · exact numbered.pid t (by omega)
    · rw [next, ntasks, pidOf_succ numbered.pos, numbered.nextPid]
  · refine ⟨fun t lt => ?_, ?_, same.ntasks ▸ numbered.pos⟩
    · rw [same.pid]
      exact numbered.pid t (same.ntasks ▸ lt)
    · rw [same.nextPid, same.ntasks]
      exact numbered.nextPid

/-- `init` has the first pid. -/
theorem Numbered.start (stack : Nat) : Numbered (startInit stack) := by
  refine ⟨fun t lt => ?_, rfl, Nat.one_pos⟩
  obtain rfl : t = 0 := by have : t < 1 := lt; omega
  rfl

/-- Below the limit no two are the same. At it, init's is given out again. -/
theorem pidOf_injective_iff {n : Nat} :
    (∀ t < n, ∀ u < n, pidOf t = pidOf u → t = u) ↔ n ≤ pidLimit := by
  constructor
  · intro injective
    by_contra more
    have again : pidOf 0 = pidOf pidLimit := by decide
    have := injective 0 (by omega) pidLimit (by omega) again
    exact absurd this (by decide)
  · intro below t ltT u ltU same
    unfold pidLimit at below
    unfold pidOf at same
    split at same <;> split at same <;> omega

/-- The pid of every task is told by the order of creation. They are different as long as no more than
`pidLimit` tasks were made, and so long no interrupt of the timer comes upon two that are the same. -/
theorem pids_exact (stack : Nat) (s : State)
    (reached : Reach step (fun _ _ => True) (startInit stack) s) :
    (∀ t < s.ntasks, (s.tasks t).pid = pidOf t) ∧
      ((∀ t < s.ntasks, ∀ u < s.ntasks, (s.tasks t).pid = (s.tasks u).pid → t = u) ↔
        s.ntasks ≤ pidLimit) ∧
      (s.ntasks ≤ pidLimit → ∀ i, ∃ s', afterTicks s i = .ok s') := by
  have numbered : Numbered s :=
    reached.invariant Numbered (Numbered.start stack) fun _ _ _ inv _ taken => inv.step taken
  obtain ⟨qs, inv⟩ : ∃ qs, RingInv s qs :=
    reached.invariant (fun s => ∃ qs, RingInv s qs) ⟨[], RingInv.start stack⟩
      fun _ _ _ ⟨_, inv⟩ _ taken => inv.step taken
  have made : ∀ t ∈ s.current :: qs, t < s.ntasks := fun t mem => ((inv.runnable t).mp mem).1
  refine ⟨numbered.pid, ?_, fun below i => ?_⟩
  · rw [← pidOf_injective_iff]
    constructor
    · intro injective t ltT u ltU same
      exact injective t ltT u ltU (by rw [numbered.pid t ltT, numbered.pid u ltU, same])
    · intro injective t ltT u ltU same
      exact injective t ltT u ltU (by rw [← numbered.pid t ltT, ← numbered.pid u ltU, same])
  · have distinct := pidOf_injective_iff.mpr below
    have pids : (s.current :: qs).Pairwise fun t u => (s.tasks t).pid ≠ (s.tasks u).pid := by
      apply inv.ring.nodup.imp_of_mem
      intro t u memT memU ne same
      rw [numbered.pid t (made t memT), numbered.pid u (made u memU)] at same
      exact ne (distinct t (made t memT) u (made u memU) same)
    obtain ⟨s', taken, _⟩ := afterTicks_window (Rested.reach reached) inv.ring made pids i
    exact ⟨s', taken⟩

/-- Init and a child that it has forked. -/
theorem pids_exact_forked : ∃ s, Reach step (fun _ _ => True) (startInit 0) s ∧
    (s.tasks 0).pid = 1 ∧ (s.tasks 1).pid = 1000 ∧ ∀ i, ∃ s', afterTicks s i = .ok s' := by
  obtain ⟨s, ran, two⟩ := follow_of_observed step (startInit 0) [.fork 0] State.ntasks 2
    (by decide +kernel)
  have reached : Reach step (fun _ _ => True) (startInit 0) s :=
    Reach.of_follow .start (fun _ _ _ => trivial) ran
  obtain ⟨pid, _, ticks⟩ := pids_exact 0 s reached
  rw [two] at pid ticks
  exact ⟨s, reached, pid 0 (by decide), pid 1 (by decide), ticks (by decide)⟩

end Blackcomb.Kernel
