import Blackcomb.Laws.Kernel.RunRing

/-!
# The address spaces of tasks

Which call gives a task another address space: `do_fork` a new one to the new task, `sched_exec` a new
one to the current task. The other calls leave every task its own.
-/

namespace Blackcomb.Kernel

open State

/-- Every task has the address space it had, and no task was made or reaped. -/
structure SameMms (s s' : State) : Prop where
  mm : ∀ t, (s'.tasks t).mm = (s.tasks t).mm
  ntasks : s'.ntasks = s.ntasks
  nmms : s'.nmms = s.nmms
  freed : s'.freed = s.freed

variable {s s' s'' : State}

theorem SameMms.trans (h : SameMms s s') (k : SameMms s' s'') : SameMms s s'' where
  mm := fun t => (k.mm t).trans (h.mm t)
  ntasks := k.ntasks.trans h.ntasks
  nmms := k.nmms.trans h.nmms
  freed := k.freed.trans h.freed

/-- The scheduler's own steps give no task another space. -/
theorem SchedOnly.sameMms (only : SchedOnly s s') : SameMms s s' where
  mm := fun t => by rw [only.task t]
  ntasks := only.ntasks
  nmms := by rw [only.rest]
  freed := only.freed

/-- Another field of a task is not its space. -/
theorem sameMms_modifyTask (s : State) (t : Nat) {f : Task → Task}
    (own : ∀ x : Task, (f x).mm = x.mm) : SameMms s (s.modifyTask t f) := by
  refine ⟨fun x => ?_, rfl, rfl, rfl⟩
  rw [modifyTask_tasks]
  split
  · rename_i e
    rw [e]
    exact own _
  · rfl

/-- An exit leaves the space to the parent's `wait`. -/
theorem doExit_sameMms {t : Nat} {status : Int} (h : doExit s t status = .ok s') :
    SameMms s s' := by
  have marked : SameMms s (exiting s t status) := by
    have same := sameMms_modifyTask s t (f := fun x =>
      { x with state := .zombie, exitStatus := status }) fun _ => rfl
    exact ⟨same.mm, rfl, rfl, rfl⟩
  obtain ⟨p, _, _, ⟨_, s₁, inserted, slept⟩ | ⟨_, slept⟩⟩ := doExit_inv h
  · have woken := sameMms_modifyTask s₁ p (f := fun x => { x with state := .running }) fun _ => rfl
    exact marked.trans <| (schedRrInsertProc_schedOnly inserted).sameMms.trans <|
      woken.trans (scheduleSleep_schedOnly slept).sameMms
  · exact marked.trans (scheduleSleep_schedOnly slept).sameMms

/-- A read gives no task another space. -/
theorem stdinRead_sameMms (h : stdinRead s = .ok s') : SameMms s s' := by
  have only := (scheduleSleep_schedOnly (stdinRead_inv h).2).sameMms
  exact ⟨only.mm, only.ntasks, only.nmms, only.freed⟩

theorem stdinReadResume_sameMms (s : State) (n : Nat) : SameMms s (stdinReadResume s n).2 :=
  ⟨fun _ => rfl, rfl, rfl, rfl⟩

theorem ttySendKey_sameMms {pressed : Ps2Key} (h : ttySendKey s pressed = .ok s') :
    SameMms s s' := by
  have same : ∀ tty, SameMms s { s with tty := tty } := fun tty => ⟨fun _ => rfl, rfl, rfl, rfl⟩
  obtain ⟨tty, _, rfl | ⟨w, s₁, _, inserted, rfl⟩⟩ := ttySendKey_inv h
  · exact same tty
  · have only := (same tty).trans (schedRrInsertProc_schedOnly inserted).sameMms
    exact ⟨only.mm, only.ntasks, only.nmms, only.freed⟩

theorem doOpen_sameMms {ino mode : Nat} (h : doOpen s ino mode = .ok s') : SameMms s s' := by
  obtain ⟨i, ops, _, rfl⟩ := doOpen_inv h
  have filled := sameMms_modifyTask s s.current (f := fun x =>
    { x with fdtab := Function.update x.fdtab i (some s.nfiles) }) fun _ => rfl
  exact ⟨filled.mm, rfl, rfl, rfl⟩

theorem doClose_sameMms {fd : Int} (h : doClose s fd = .ok s') : SameMms s s' := by
  obtain ⟨i, f, _, _, rfl⟩ := doClose_inv h
  have emptied := sameMms_modifyTask s s.current (f := fun x =>
    { x with fdtab := Function.update x.fdtab i none }) fun _ => rfl
  exact ⟨emptied.mm, rfl, rfl, rfl⟩

/-- `do_wait` reaps what it finds, and leaves the rest alone. -/
theorem doWait_mms (h : doWait s s.current = .ok s') :
    (findZombie s s.ntasks (s.tasks s.current).children = .ok none ∧ SameMms s s') ∨
    ∃ c, findZombie s s.ntasks (s.tasks s.current).children = .ok (some c) ∧
      (∀ t, (s'.tasks t).mm = (s.tasks t).mm) ∧ s'.ntasks = s.ntasks ∧ s'.nmms = s.nmms ∧
      s'.freed = c :: s.freed := by
  rcases doWait_inv h with ⟨none, slept⟩ | ⟨c, found, rfl⟩
  · have marked := sameMms_modifyTask s s.current (f := fun x => { x with state := .waiting })
      fun _ => rfl
    exact .inl ⟨none, marked.trans (scheduleSleep_schedOnly slept).sameMms⟩
  · refine .inr ⟨c, found, ?_⟩
    rw [taskFree_frame]
    exact ⟨fun _ => rfl, rfl, rfl, rfl⟩

/-- `sched_fork` gives the new task the new space. -/
theorem schedFork_mms {t stack : Nat} (h : schedFork s t stack = .ok s') :
    (∀ x, (s'.tasks x).mm = if x = s.ntasks then s.nmms else (s.tasks x).mm) ∧
      s'.ntasks = s.ntasks + 1 ∧ s'.nmms = s.nmms + 1 ∧ s'.freed = s.freed := by
  obtain ⟨lt, s₁, s₂, forked, inserted, linked⟩ := schedFork_inv h
  obtain ⟨_, others, made, rest⟩ := doFork_spec lt forked
  obtain ⟨_, _, treeRest, tree⟩ := treeInsertProc_spec linked
  have only := (schedRrInsertProc_schedOnly inserted).sameMms
  refine ⟨fun x => ?_, ?_, ?_, ?_⟩
  · rw [tree x]
    show (s₂.tasks x).mm = _
    rw [only.mm]
    split
    · rename_i new
      rw [new, made]
    · rename_i old
      rw [others x old]
  · rw [treeRest]
    show s₂.ntasks = _
    rw [only.ntasks, rest]
  · rw [treeRest]
    show s₂.nmms = _
    rw [only.nmms, rest]
  · rw [treeRest]
    show s₂.freed = _
    rw [only.freed, rest]

/-- `sched_exec` gives the task the new space. -/
theorem schedExec_mms (s : State) (t : Nat) :
    (∀ x, ((schedExec s t).tasks x).mm = if x = t then s.nmms else (s.tasks x).mm) ∧
      (schedExec s t).ntasks = s.ntasks ∧ (schedExec s t).nmms = s.nmms + 1 ∧
      (schedExec s t).freed = s.freed := by
  refine ⟨fun x => ?_, rfl, rfl, rfl⟩
  simp only [schedExec, modifyTask_tasks]
  split <;> rfl

/-- The cases of a step: `sched_fork` gives the new space to the new task, `sched_exec` to the current
one, and no other call gives any. -/
theorem step_mms {event : Event} (h : step event s = .ok s') :
    (∃ x, (x = s.ntasks ∧ s'.ntasks = s.ntasks + 1 ∨ x = s.current ∧ s'.ntasks = s.ntasks) ∧
      (∀ t, (s'.tasks t).mm = if t = x then s.nmms else (s.tasks t).mm) ∧
      s'.nmms = s.nmms + 1) ∨
    (∀ t, (s'.tasks t).mm = (s.tasks t).mm) ∧ s'.ntasks = s.ntasks ∧ s'.nmms = s.nmms := by
  have quiet : SameMms s s' → (∀ t, (s'.tasks t).mm = (s.tasks t).mm) ∧
      s'.ntasks = s.ntasks ∧ s'.nmms = s.nmms := fun same => ⟨same.mm, same.ntasks, same.nmms⟩
  cases event with
  | fork stack =>
    obtain ⟨mm, ntasks, nmms, _⟩ := schedFork_mms h
    exact .inl ⟨s.ntasks, .inl ⟨rfl, ntasks⟩, mm, nmms⟩
  | exec =>
    cases h
    obtain ⟨mm, ntasks, nmms, _⟩ := schedExec_mms s s.current
    exact .inl ⟨s.current, .inr ⟨rfl, ntasks⟩, mm, nmms⟩
  | exit status => exact .inr (quiet (doExit_sameMms h))
  | wait =>
    rcases doWait_mms h with ⟨_, same⟩ | ⟨c, _, mm, ntasks, nmms, _⟩
    · exact .inr (quiet same)
    · exact .inr ⟨mm, ntasks, nmms⟩
  | read => exact .inr (quiet (stdinRead_sameMms h))
  | readResume n =>
    cases h
    exact .inr (quiet (stdinReadResume_sameMms s n))
  | key pressed => exact .inr (quiet (ttySendKey_sameMms h))
  | tick => exact .inr (quiet (schedMaybePreempt_schedOnly h).sameMms)
  | schedule => exact .inr (quiet (schedule_schedOnly h).sameMms)
  | open_ ino mode => exact .inr (quiet (doOpen_sameMms h))
  | close fd => exact .inr (quiet (doClose_sameMms h))

/-! ## Whose space is whose -/

/-- Every task has a space that was handed out, and no two tasks have the same. -/
structure OwnMms (s : State) : Prop where
  made : ∀ t < s.ntasks, 0 < (s.tasks t).mm ∧ (s.tasks t).mm < s.nmms
  distinct : ∀ t < s.ntasks, ∀ u < s.ntasks, (s.tasks t).mm = (s.tasks u).mm → t = u
  handed : 0 < s.nmms

/-- After every event living tasks have spaces of their own. -/
theorem OwnMms.step {event : Event} (own : OwnMms s) (h : Kernel.step event s = .ok s') :
    OwnMms s' := by
  rcases step_mms h with ⟨x, whose, mm, nmms⟩ | ⟨mm, ntasks, nmms⟩
  · -- a task other than the one with the new space is an old one
    have old : ∀ t < s'.ntasks, t ≠ x → t < s.ntasks := by
      intro t lt ne
      rcases whose with ⟨rfl, ntasks⟩ | ⟨rfl, ntasks⟩ <;> omega
    have below : ∀ t < s'.ntasks, t ≠ x → (s.tasks t).mm < s.nmms := fun t lt ne =>
      (own.made t (old t lt ne)).2
    refine ⟨fun t lt => ?_, fun t ltT u ltU eq => ?_, ?_⟩
    · rw [mm, nmms]
      split
      · exact ⟨own.handed, Nat.lt_succ_self _⟩
      · rename_i ne
        have := own.made t (old t lt ne)
        omega
    · rw [mm, mm] at eq
      by_cases et : t = x
      · by_cases eu : u = x
        · rw [et, eu]
        · rw [if_pos et, if_neg eu] at eq
          exact absurd eq.symm (Nat.ne_of_lt (below u ltU eu))
      · by_cases eu : u = x
        · rw [if_neg et, if_pos eu] at eq
          exact absurd eq (Nat.ne_of_lt (below t ltT et))
        · rw [if_neg et, if_neg eu] at eq
          exact own.distinct t (old t ltT et) u (old u ltU eu) eq
    · rw [nmms]
      exact Nat.succ_pos _
  · refine ⟨fun t lt => ?_, fun t ltT u ltU eq => ?_, nmms ▸ own.handed⟩
    · rw [mm, nmms]
      exact own.made t (ntasks ▸ lt)
    · rw [mm, mm] at eq
      exact own.distinct t (ntasks ▸ ltT) u (ntasks ▸ ltU) eq

/-- `init` has the first space. -/
theorem OwnMms.start (stack : Nat) : OwnMms (startInit stack) := by
  refine ⟨fun t lt => ?_, fun t ltT u ltU _ => ?_, Nat.two_pos⟩
  · obtain rfl : t = 0 := Nat.lt_one_iff.mp lt
    exact ⟨Nat.one_pos, Nat.one_lt_two⟩
  · rw [Nat.lt_one_iff.mp ltT, Nat.lt_one_iff.mp ltU]

end Blackcomb.Kernel
