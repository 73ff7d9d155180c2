import Blackcomb.Laws.Kernel.RunRing

/-!
# The status a waiting parent gets

`do_exit` writes the status into the exiting task's record, and `do_wait` stores a status for its
caller. The field it stores is the caller's own `exit_status`, which is still the zero of `kcalloc`: a
task that calls `do_wait` has not exited. So the status arrives in exactly the runs in which every
child that `do_wait` reaps has exited with zero (`delivered_iff`).

**What it does not establish.** The status is compared where `do_wait` stores it. That the caller's
pointer leads to memory of its own is not asked, by the code or here.
-/

namespace Blackcomb.Kernel

open State Run

variable {s s' s'' : State}

/-- Every `do_wait` that returned a child stored the status of the one `do_exit` the child made. -/
def Delivered (s : State) : Prop :=
  ∀ w ∈ s.waits, ∀ status, (w.child, status) ∈ s.exits ↔ status = w.wstatus

/-- The child that a `do_wait` taken in this state reaps has exited with status zero. -/
def ReapsZero (event : Event) (s : State) : Prop :=
  event = .wait → ∀ c, findZombie s s.ntasks (s.tasks s.current).children = .ok (some c) →
    (c, 0) ∈ s.exits

/-! ## What a step does to statuses -/

/-- Nobody exited and nothing was reaped. -/
structure SameStatuses (s s' : State) : Prop where
  zombie : ∀ t, (s'.tasks t).state = .zombie ↔ (s.tasks t).state = .zombie
  exitStatus : ∀ t, (s'.tasks t).exitStatus = (s.tasks t).exitStatus
  ntasks : s'.ntasks = s.ntasks
  exits : s'.exits = s.exits
  waits : s'.waits = s.waits

theorem SameStatuses.trans (h : SameStatuses s s') (k : SameStatuses s' s'') :
    SameStatuses s s'' where
  zombie := fun t => (k.zombie t).trans (h.zombie t)
  exitStatus := fun t => (k.exitStatus t).trans (h.exitStatus t)
  ntasks := k.ntasks.trans h.ntasks
  exits := k.exits.trans h.exits
  waits := k.waits.trans h.waits

/-- The scheduler's own steps keep all statuses. -/
theorem SchedOnly.sameStatuses (only : SchedOnly s s') : SameStatuses s s' where
  zombie := fun t => by rw [only.state]
  exitStatus := only.exitStatus
  ntasks := only.ntasks
  exits := only.exits
  waits := only.waits

/-- Assigning a task's state, when it is not a zombie before or after, or another field. -/
theorem sameStatuses_modifyTask (s : State) (t : Nat) {f : Task → Task}
    (zombie : (f (s.tasks t)).state = .zombie ↔ (s.tasks t).state = .zombie)
    (own : (f (s.tasks t)).exitStatus = (s.tasks t).exitStatus) :
    SameStatuses s (s.modifyTask t f) := by
  refine ⟨fun x => ?_, fun x => ?_, rfl, rfl, rfl⟩
  all_goals
    rw [modifyTask_tasks]
    split
    · rename_i e
      rw [e]
      first | exact zombie | exact own
    · rfl

/-- What `do_exit` does to statuses: the caller's is written, and the call is remembered. -/
structure ExitSpec (s s' : State) (status : Int) : Prop where
  state : (s'.tasks s.current).state = .zombie
  exitStatus : (s'.tasks s.current).exitStatus = status
  zombie : ∀ t, t ≠ s.current → ((s'.tasks t).state = .zombie ↔ (s.tasks t).state = .zombie)
  others : ∀ t, t ≠ s.current → (s'.tasks t).exitStatus = (s.tasks t).exitStatus
  ntasks : s'.ntasks = s.ntasks
  exits : s'.exits = (s.current, status) :: s.exits
  waits : s'.waits = s.waits

/-- What happens after the caller is marked changes no status. -/
theorem SameStatuses.exitSpec {status : Int}
    (same : SameStatuses (exiting s s.current status) s') : ExitSpec s s' status where
  state := (same.zombie _).mpr (by simp [exiting])
  exitStatus := (same.exitStatus _).trans (by simp [exiting])
  zombie := fun t ne => (same.zombie t).trans (by simp [exiting, ne])
  others := fun t ne => (same.exitStatus t).trans (by simp [exiting, ne])
  ntasks := same.ntasks
  exits := same.exits
  waits := same.waits

/-- What an exit writes: the status, the zombie's state and the parent's. -/
theorem doExit_spec {status : Int} (h : doExit s s.current status = .ok s') :
    ExitSpec s s' status := by
  obtain ⟨p, _, _, ⟨waiting, s₁, inserted, slept⟩ | ⟨_, slept⟩⟩ := doExit_inv h
  · have only := schedRrInsertProc_schedOnly inserted
    have alive : (s₁.tasks p).state ≠ .zombie := by
      rw [only.state, waiting]
      decide
    have woken := sameStatuses_modifyTask s₁ p (f := fun x => { x with state := .running })
      (by simpa using alive) rfl
    exact (only.sameStatuses.trans (woken.trans
      (scheduleSleep_schedOnly slept).sameStatuses)).exitSpec
  · exact (scheduleSleep_schedOnly slept).sameStatuses.exitSpec

/-- The new task of a fork has no status, and nobody else's changes. -/
theorem schedFork_exitStatus {t stack : Nat} (h : schedFork s t stack = .ok s') (x : Nat) :
    (s'.tasks x).exitStatus = if x = s.ntasks then 0 else (s.tasks x).exitStatus := by
  obtain ⟨lt, s₁, s₂, forked, inserted, linked⟩ := schedFork_inv h
  obtain ⟨_, others, made, _⟩ := doFork_spec lt forked
  obtain ⟨_, _, _, tree⟩ := treeInsertProc_spec linked
  rw [tree x]
  show (s₂.tasks x).exitStatus = _
  rw [(schedRrInsertProc_schedOnly inserted).exitStatus]
  split
  · rename_i new
    rw [new, made]
  · rename_i old
    rw [others x old]

/-- A read makes no zombie. -/
theorem stdinRead_sameStatuses (h : stdinRead s = .ok s') : SameStatuses s s' := by
  have only := (scheduleSleep_schedOnly (stdinRead_inv h).2).sameStatuses
  exact ⟨only.zombie, only.exitStatus, only.ntasks, only.exits, only.waits⟩

theorem ttySendKey_sameStatuses {pressed : Ps2Key} (h : ttySendKey s pressed = .ok s') :
    SameStatuses s s' := by
  have same : ∀ tty, SameStatuses s { s with tty := tty } := fun tty =>
    ⟨fun _ => .rfl, fun _ => rfl, rfl, rfl, rfl⟩
  obtain ⟨tty, _, rfl | ⟨w, s₁, _, inserted, rfl⟩⟩ := ttySendKey_inv h
  · exact same tty
  · have only := (same tty).trans (schedRrInsertProc_schedOnly inserted).sameStatuses
    exact ⟨only.zombie, only.exitStatus, only.ntasks, only.exits, only.waits⟩

theorem doOpen_sameStatuses {ino mode : Nat} (h : doOpen s ino mode = .ok s') :
    SameStatuses s s' := by
  obtain ⟨i, ops, _, rfl⟩ := doOpen_inv h
  have filled := sameStatuses_modifyTask s s.current (f := fun x =>
    { x with fdtab := Function.update x.fdtab i (some s.nfiles) }) .rfl rfl
  exact ⟨filled.zombie, filled.exitStatus, rfl, rfl, rfl⟩

theorem doClose_sameStatuses {fd : Int} (h : doClose s fd = .ok s') : SameStatuses s s' := by
  obtain ⟨i, f, _, _, rfl⟩ := doClose_inv h
  have emptied := sameStatuses_modifyTask s s.current (f := fun x =>
    { x with fdtab := Function.update x.fdtab i none }) .rfl rfl
  exact ⟨emptied.zombie, emptied.exitStatus, rfl, rfl, rfl⟩

/-- The cases of a step: a fork, an exit, a reaping `do_wait`, or no status changes. -/
theorem step_statuses {event : Event} (alive : (s.tasks s.current).state ≠ .zombie)
    (h : step event s = .ok s') :
    (∃ stack, schedFork s s.current stack = .ok s') ∨
    (∃ status, ExitSpec s s' status) ∨
    (∃ c, event = .wait ∧ findZombie s s.ntasks (s.tasks s.current).children = .ok (some c) ∧
      s'.tasks = s.tasks ∧ s'.ntasks = s.ntasks ∧ s'.exits = s.exits ∧
      s'.waits = ⟨s.current, c, (s.tasks c).pid, (s.tasks s.current).exitStatus⟩ :: s.waits) ∨
    SameStatuses s s' := by
  cases event with
  | fork stack => exact .inl ⟨stack, h⟩
  | exec =>
    cases h
    have given := sameStatuses_modifyTask s s.current (f := fun x => { x with mm := s.nmms })
      .rfl rfl
    exact .inr (.inr (.inr ⟨given.zombie, given.exitStatus, rfl, rfl, rfl⟩))
  | exit status => exact .inr (.inl ⟨status, doExit_spec h⟩)
  | wait =>
    rcases doWait_inv h with ⟨_, slept⟩ | ⟨c, found, rfl⟩
    · have marked := sameStatuses_modifyTask s s.current (f := fun x => { x with state := .waiting })
        (by simpa using alive) rfl
      exact .inr (.inr (.inr (marked.trans (scheduleSleep_schedOnly slept).sameStatuses)))
    · rw [taskFree_frame]
      exact .inr (.inr (.inl ⟨c, rfl, found, rfl, rfl, rfl, rfl⟩))
  | read => exact .inr (.inr (.inr (stdinRead_sameStatuses h)))
  | readResume n =>
    cases h
    exact .inr (.inr (.inr ⟨fun _ => .rfl, fun _ => rfl, rfl, rfl, rfl⟩))
  | key pressed => exact .inr (.inr (.inr (ttySendKey_sameStatuses h)))
  | tick => exact .inr (.inr (.inr (schedMaybePreempt_schedOnly h).sameStatuses))
  | schedule => exact .inr (.inr (.inr (schedule_schedOnly h).sameStatuses))
  | open_ ino mode => exact .inr (.inr (.inr (doOpen_sameStatuses h)))
  | close fd => exact .inr (.inr (.inr (doClose_sameStatuses h)))

/-! ## The invariant -/

/-- What `do_wait` can rely on: a zombie's record holds the status it exited with, and the record of
a task that has not exited holds zero. -/
structure Recorded (s : State) : Prop where
  exited : ∀ t < s.ntasks, (s.tasks t).state = .zombie →
    ∀ status, (t, status) ∈ s.exits ↔ status = (s.tasks t).exitStatus
  unset : ∀ t < s.ntasks, (s.tasks t).state ≠ .zombie → (s.tasks t).exitStatus = 0
  reaped : ∀ w ∈ s.waits, w.child < s.ntasks ∧ (s.tasks w.child).state = .zombie
  ring : ∃ qs, RingInv s qs

namespace Recorded

/-- A task that has not exited made no `do_exit` call. -/
theorem not_exited {t : Nat} (inv : Recorded s) (alive : (s.tasks t).state ≠ .zombie)
    (status : Int) : (t, status) ∉ s.exits := by
  intro mem
  obtain ⟨qs, ring⟩ := inv.ring
  exact alive (ring.exited _ mem).2

/-- A child is not a zombie. -/
theorem fork {stack : Nat} (inv : Recorded s) (h : schedFork s s.current stack = .ok s') :
    Recorded s' := by
  have spec := schedFork_spec h
  obtain ⟨qs, ring⟩ := inv.ring
  have old : ∀ t < s'.ntasks, t ≠ s.ntasks → t < s.ntasks := by
    intro t lt ne
    rw [spec.ntasks] at lt
    omega
  refine ⟨fun t lt zombie status => ?_, fun t lt alive => ?_, fun w mem => ?_, ring.fork h⟩
  · by_cases new : t = s.ntasks
    · rw [new, spec.newState] at zombie
      cases zombie
    · rw [spec.state t new] at zombie
      rw [spec.exits, schedFork_exitStatus h, if_neg new]
      exact inv.exited t (old t lt new) zombie status
  · rw [schedFork_exitStatus h]
    split
    · rfl
    · rename_i new
      rw [spec.state t new] at alive
      exact inv.unset t (old t lt new) alive
  · rw [spec.waits] at mem
    obtain ⟨lt, zombie⟩ := inv.reaped w mem
    rw [spec.ntasks, spec.state _ (Nat.ne_of_lt lt)]
    exact ⟨Nat.lt_succ_of_lt lt, zombie⟩

/-- An exit records the status its zombie carries. -/
theorem exit {status : Int} (inv : Recorded s) (spec : ExitSpec s s' status)
    (ring' : ∃ qs, RingInv s' qs) : Recorded s' := by
  obtain ⟨qs, ring⟩ := inv.ring
  have alive := ring.current_runnable.2.2.1
  refine ⟨fun t lt zombie st => ?_, fun t lt live => ?_, fun w mem => ?_, ring'⟩
  · rw [spec.exits, List.mem_cons, Prod.mk.injEq]
    by_cases e : t = s.current
    · rw [e, spec.exitStatus]
      simp [inv.not_exited alive]
    · rw [spec.others t e]
      rw [spec.zombie t e] at zombie
      rw [spec.ntasks] at lt
      simpa [e] using inv.exited t lt zombie st
  · have ne : t ≠ s.current := by
      rintro rfl
      exact live spec.state
    rw [ne_eq, spec.zombie t ne] at live
    rw [spec.others t ne]
    exact inv.unset t (spec.ntasks ▸ lt) live
  · rw [spec.waits] at mem
    obtain ⟨lt, zombie⟩ := inv.reaped w mem
    have ne : w.child ≠ s.current := by
      intro e
      exact alive (e ▸ zombie)
    rw [spec.ntasks, spec.zombie _ ne]
    exact ⟨lt, zombie⟩

/-- A step that keeps the statuses keeps the record right. -/
theorem same (inv : Recorded s) (same : SameStatuses s s') (ring' : ∃ qs, RingInv s' qs) :
    Recorded s' := by
  refine ⟨fun t lt zombie status => ?_, fun t lt alive => ?_, fun w mem => ?_, ring'⟩
  · rw [same.exits, same.exitStatus]
    exact inv.exited t (same.ntasks ▸ lt) ((same.zombie t).mp zombie) status
  · rw [ne_eq, same.zombie] at alive
    rw [same.exitStatus]
    exact inv.unset t (same.ntasks ▸ lt) alive
  · rw [same.waits] at mem
    rw [same.ntasks, same.zombie]
    exact inv.reaped w mem

/-- Every event keeps the record right. -/
theorem step {event : Event} (inv : Recorded s) (h : Kernel.step event s = .ok s') :
    Recorded s' := by
  obtain ⟨qs, ring⟩ := inv.ring
  have ring' := ring.step h
  rcases step_statuses ring.current_runnable.2.2.1 h with ⟨stack, forked⟩ | ⟨status, spec⟩ |
    ⟨c, _, found, tasks, ntasks, exits, waits⟩ | same
  · exact inv.fork forked
  · exact inv.exit spec ring'
  · refine ⟨?_, ?_, ?_, ring'⟩
    · rw [tasks, ntasks, exits]
      exact inv.exited
    · rw [tasks, ntasks]
      exact inv.unset
    · rw [tasks, ntasks, waits]
      intro w mem
      rcases List.mem_cons.mp mem with rfl | mem
      · exact findZombie_zombie found
      · exact inv.reaped w mem
  · exact inv.same same ring'

/-- Nobody has exited at the start. -/
theorem start (stack : Nat) : Recorded (startInit stack) := by
  refine ⟨fun t lt zombie => ?_, fun t lt _ => ?_, fun w mem => ?_, [], RingInv.start stack⟩
  · obtain rfl : t = 0 := Nat.lt_one_iff.mp lt
    cases zombie
  · obtain rfl : t = 0 := Nat.lt_one_iff.mp lt
    rfl
  · cases mem

/-- The reaping `do_wait` stores zero, so it delivers exactly a status of zero. -/
theorem stores_zero {c : Nat} (inv : Recorded s)
    (found : findZombie s s.ntasks (s.tasks s.current).children = .ok (some c)) :
    (∀ status, (c, status) ∈ s.exits ↔ status = (s.tasks s.current).exitStatus) ↔
      (c, 0) ∈ s.exits := by
  obtain ⟨qs, ring⟩ := inv.ring
  obtain ⟨curLt, _, curAlive, _⟩ := ring.current_runnable
  obtain ⟨lt, zombie⟩ := findZombie_zombie found
  rw [inv.unset _ curLt curAlive, inv.exited c lt zombie]
  constructor
  · intro all
    rw [← inv.exited c lt zombie, all]
  · intro zero status
    rw [inv.exited c lt zombie, ← zero]

end Recorded

/-! ## Delivery -/

/-- No step makes a `do_wait` that has returned wrong. -/
theorem Delivered.keep {event : Event} (inv : Recorded s) (delivered : Delivered s)
    (guard : ReapsZero event s) (h : step event s = .ok s') : Delivered s' := by
  obtain ⟨qs, ring⟩ := inv.ring
  have alive := ring.current_runnable.2.2.1
  rcases step_statuses alive h with ⟨stack, forked⟩ | ⟨status, spec⟩ |
    ⟨c, wait, found, _, _, exits, waits⟩ | same
  · have spec := schedFork_spec forked
    unfold Delivered
    rw [spec.waits, spec.exits]
    exact delivered
  · intro w mem st
    rw [spec.waits] at mem
    -- a reaped child is a zombie, and the caller of `do_exit` is not one yet
    have ne : w.child ≠ s.current := by
      intro e
      exact alive (e ▸ (inv.reaped w mem).2)
    rw [spec.exits, List.mem_cons, Prod.mk.injEq]
    simpa [ne] using delivered w mem st
  · unfold Delivered
    rw [waits, exits]
    intro w mem
    rcases List.mem_cons.mp mem with rfl | mem
    · exact (inv.stores_zero found).mpr (guard wait c found)
    · exact delivered w mem
  · unfold Delivered
    rw [same.waits, same.exits]
    exact delivered

/-- A child that exited with another status is reported with zero. -/
theorem Delivered.breach {event : Event} (inv : Recorded s) (h : step event s = .ok s')
    (unmet : ¬ ReapsZero event s) : ¬ Delivered s' := by
  intro delivered
  unfold ReapsZero at unmet
  push Not at unmet
  obtain ⟨rfl, c, found, nonzero⟩ := unmet
  obtain ⟨qs, ring⟩ := inv.ring
  rcases doWait_inv h with ⟨none, _⟩ | ⟨d, found', rfl⟩
  · rw [none] at found
    cases found
  · rw [found'] at found
    cases found
    rw [taskFree_frame] at delivered
    exact nonzero ((inv.stores_zero found').mp (delivered _ List.mem_cons_self))

/-- **The status of a child.** Every `do_wait` that returns a child has stored the status of the
child's own `do_exit` call, along exactly the runs in which every child that `do_wait` reaps has
exited with status zero. -/
theorem delivered_iff (stack : Nat) (events : List Event) :
    Along step Delivered (startInit stack) events ↔
      Guarded step ReapsZero (startInit stack) events :=
  guarded_iff_along (I := fun s => Recorded s ∧ Delivered s)
    (fun _ _ _ inv guard h => ⟨inv.1.step h, inv.2.keep inv.1 guard h⟩) (fun _ inv => inv.2)
    (fun _ _ _ inv h unmet => Delivered.breach inv.1 h unmet)
    ⟨Recorded.start stack, fun _ mem => (by cases mem)⟩

/-- Init forks, the child exits with status seven, and init's wait is given zero. -/
theorem delivered_fails : ∃ s', follow step (startInit 0)
      [.fork 0, .schedule, .exit 7, .wait] = .ok s' ∧
    s'.exits = [(1, 7)] ∧ s'.waits.map (fun w => (w.child, w.wstatus)) = [(1, 0)] ∧
    ¬ Along step Delivered (startInit 0) [.fork 0, .schedule, .exit 7, .wait] := by
  obtain ⟨s', run, observed⟩ := follow_of_observed step (startInit 0)
    [.fork 0, .schedule, .exit 7, .wait]
    (fun s => (s.exits, s.waits.map fun w => (w.child, w.wstatus))) ([(1, 7)], [(1, 0)])
    (by decide +kernel)
  obtain ⟨exits, waits⟩ := Prod.mk.inj observed
  refine ⟨s', run, exits, waits, fun along => ?_⟩
  obtain ⟨w, returned, pair⟩ := List.mem_map.mp (waits ▸ List.mem_singleton_self ((1 : Nat), (0 : Int)))
  have stored := (along.follow run w returned 7).mp
  simp only [Prod.mk.injEq] at pair
  rw [pair.1, pair.2, exits] at stored
  exact absurd (stored (List.mem_singleton_self _)) (by decide)

end Blackcomb.Kernel
