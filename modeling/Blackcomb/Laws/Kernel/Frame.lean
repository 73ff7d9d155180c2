import Blackcomb.Kernel.System

/-!
# What scheduling leaves alone

`SchedOnly s s'` says that two states differ only in what the scheduler owns: the `next`, `prev`,
`aliveTicks` and `sp` fields of tasks, `current`, and the processor's registers. Every function of
the run ring is a `SchedOnly` step, so the laws of the process tree and of the descriptor tables
never look inside one.
-/

namespace Blackcomb.Kernel

open State

/-- Two records of one task that differ only in scheduling fields. -/
def Task.SchedEq (x y : Task) : Prop :=
  y = { x with next := y.next, prev := y.prev, aliveTicks := y.aliveTicks, sp := y.sp }

/-- Tasks that differ in what the scheduler owns, twice. -/
theorem Task.SchedEq.trans {x y z : Task} (h : x.SchedEq y) (k : y.SchedEq z) : x.SchedEq z := by
  unfold Task.SchedEq at *
  rw [h] at k
  exact k

/-- Two states that differ only in scheduling data. -/
structure SchedOnly (s s' : State) : Prop where
  task : ∀ t, (s.tasks t).SchedEq (s'.tasks t)
  rest : s' = { s with
    tasks := s'.tasks
    current := s'.current
    currentTaskStack := s'.currentTaskStack
    tssRsp0 := s'.tssRsp0
    cr3 := s'.cr3
    rsp := s'.rsp
    ringInserts := s'.ringInserts }

namespace SchedOnly

variable {s s' s'' : State}

/-- Two scheduler steps in a row are one. -/
theorem trans (h : SchedOnly s s') (k : SchedOnly s' s'') : SchedOnly s s'' := by
  refine ⟨fun t => (h.task t).trans (k.task t), ?_⟩
  have hk := k.rest
  rw [h.rest] at hk
  exact hk

/-- Assigning scheduling fields of a task. -/
theorem modifyTask (s : State) (t : Nat) {f : Task → Task} (owned : ∀ x : Task, x.SchedEq (f x)) :
    SchedOnly s (s.modifyTask t f) := by
  refine ⟨fun x => ?_, rfl⟩
  rw [modifyTask_tasks]
  split
  · rename_i h
    rw [h]
    exact owned _
  · exact rfl

/-- The history of the ring is scheduling data. -/
theorem recorded (s : State) (inserts : List Nat) : SchedOnly s { s with ringInserts := inserts } :=
  ⟨fun _ => rfl, rfl⟩

/-- The scheduler gives a task no other state. -/
theorem state (h : SchedOnly s s') (t : Nat) : (s'.tasks t).state = (s.tasks t).state := by
  rw [h.task t]

theorem pid (h : SchedOnly s s') (t : Nat) : (s'.tasks t).pid = (s.tasks t).pid := by
  rw [h.task t]

theorem exitStatus (h : SchedOnly s s') (t : Nat) :
    (s'.tasks t).exitStatus = (s.tasks t).exitStatus := by
  rw [h.task t]

/-- The process tree is not the scheduler's: a task keeps its parent. -/
theorem parent (h : SchedOnly s s') (t : Nat) : (s'.tasks t).parent = (s.tasks t).parent := by
  rw [h.task t]

theorem children (h : SchedOnly s s') (t : Nat) : (s'.tasks t).children = (s.tasks t).children := by
  rw [h.task t]

theorem sibling (h : SchedOnly s s') (t : Nat) : (s'.tasks t).sibling = (s.tasks t).sibling := by
  rw [h.task t]

theorem fdtab (h : SchedOnly s s') (t : Nat) : (s'.tasks t).fdtab = (s.tasks t).fdtab := by
  rw [h.task t]

theorem ntasks (h : SchedOnly s s') : s'.ntasks = s.ntasks := by rw [h.rest]

theorem files (h : SchedOnly s s') : s'.files = s.files := by rw [h.rest]

theorem nfiles (h : SchedOnly s s') : s'.nfiles = s.nfiles := by rw [h.rest]

theorem tty (h : SchedOnly s s') : s'.tty = s.tty := by rw [h.rest]

theorem freed (h : SchedOnly s s') : s'.freed = s.freed := by rw [h.rest]

theorem freedFiles (h : SchedOnly s s') : s'.freedFiles = s.freedFiles := by rw [h.rest]

theorem freedMms (h : SchedOnly s s') : s'.freedMms = s.freedMms := by rw [h.rest]

theorem exits (h : SchedOnly s s') : s'.exits = s.exits := by rw [h.rest]

theorem waits (h : SchedOnly s s') : s'.waits = s.waits := by rw [h.rest]

end SchedOnly

/-! ## The functions of the run ring -/

/-- Switching tasks writes what the scheduler owns. -/
theorem switchTo_schedOnly {s s' : State} {t : Nat} (h : switchTo s t = .ok s') :
    SchedOnly s s' := by
  unfold switchTo at h
  simp only at h
  split at h
  · cases h
  · cases h
    refine ⟨fun x => ?_, rfl⟩
    simp only [modifyTask_tasks]
    split
    · rename_i e
      rw [e]
      exact rfl
    · exact rfl

/-- Putting a task into the ring writes what the scheduler owns. -/
theorem schedRrInsertProc_schedOnly {s s' : State} {t : Nat} (h : schedRrInsertProc s t = .ok s') :
    SchedOnly s s' := by
  unfold schedRrInsertProc at h
  simp only at h
  obtain ⟨n, _, h⟩ := bind_eq_ok.mp h
  cases h
  refine (SchedOnly.modifyTask _ _ ?_).trans <| (SchedOnly.modifyTask _ _ ?_).trans <|
    (SchedOnly.modifyTask _ _ ?_).trans <| (SchedOnly.modifyTask _ _ ?_).trans <|
    SchedOnly.recorded _ _
  all_goals exact fun _ => rfl

/-- Taking a task out of the ring writes what the scheduler owns. -/
theorem schedRrRemoveProc_schedOnly {s s' : State} {t : Nat} (h : schedRrRemoveProc s t = .ok s') :
    SchedOnly s s' := by
  unfold schedRrRemoveProc at h
  simp only at h
  obtain ⟨p, _, h⟩ := bind_eq_ok.mp h
  obtain ⟨n, _, h⟩ := bind_eq_ok.mp h
  cases h
  refine (SchedOnly.modifyTask _ _ ?_).trans <| (SchedOnly.modifyTask _ _ ?_).trans <|
    (SchedOnly.modifyTask _ _ ?_).trans (SchedOnly.modifyTask _ _ ?_)
  all_goals exact fun _ => rfl

/-- `schedule` writes what the scheduler owns. -/
theorem schedule_schedOnly {s s' : State} (h : schedule s = .ok s') : SchedOnly s s' := by
  unfold schedule at h
  simp only at h
  have clear := SchedOnly.modifyTask s s.current (f := fun x => { x with aliveTicks := 0 })
    fun _ => rfl
  split at h
  · cases h
    exact clear
  · obtain ⟨n, _, h⟩ := bind_eq_ok.mp h
    exact clear.trans (switchTo_schedOnly h)

/-- `schedule_sleep` writes what the scheduler owns. -/
theorem scheduleSleep_schedOnly {s s' : State} (h : scheduleSleep s = .ok s') : SchedOnly s s' := by
  unfold scheduleSleep at h
  simp only at h
  have clear := SchedOnly.modifyTask s s.current (f := fun x => { x with aliveTicks := 0 })
    fun _ => rfl
  obtain ⟨r, removed, h⟩ := bind_eq_ok.mp h
  obtain ⟨n, _, h⟩ := bind_eq_ok.mp h
  exact (clear.trans (schedRrRemoveProc_schedOnly removed)).trans (switchTo_schedOnly h)

/-- The preemption of a tick writes what the scheduler owns. -/
theorem schedMaybePreempt_schedOnly {s s' : State} (h : schedMaybePreempt s = .ok s') :
    SchedOnly s s' := by
  unfold schedMaybePreempt at h
  simp only at h
  have count := SchedOnly.modifyTask s s.current
    (f := fun x => { x with aliveTicks := (s.tasks s.current).aliveTicks + 1 }) fun _ => rfl
  split at h
  · cases h
    exact count
  · exact count.trans (schedule_schedOnly h)

end Blackcomb.Kernel
