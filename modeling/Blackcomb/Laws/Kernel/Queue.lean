import Blackcomb.Lib.Simulation
import Blackcomb.Laws.Kernel.Fairness
import Blackcomb.Laws.Kernel.Wakeup

/-!
# The scheduler as a queue

What `next`, `prev`, `state`, `alive_ticks`, `parent` and the terminal's reader slot are for, put in one
place: a queue of the tasks that can run, the one that runs first. `Processes` is that system. A
forked task is put behind its parent, the time slice ends with a turn to the back of the queue, a
parent that is woken by its child's exit runs at once, and the reader that is woken by Enter runs
next. Here the process table is shown to follow it over any order of calls, the ring edits of
`sched.c` being the edits of the queue; and no task is lost: whatever was made is in the queue once,
or reads, or waits, or has exited.

**What it does not establish.** Neither side says which call comes next: programs and devices decide
that. The process table follows the queue as far as it gets: a call that panics, as a switch between
two tasks of one pid does (`Pids`), has no state to compare.
-/

namespace Blackcomb.Kernel

open State Ring Run

variable {s s' : State} {qs : List Nat} {event : Event} {p p' : Processes} {c t : Nat}

/-! ## Processes -/

/-- The tasks, named in the order of their creation. -/
structure Processes where
  /-- Those that can run, the current one first. -/
  queue : List Nat
  made : Nat
  /-- The ticks of the current task. -/
  spent : Nat
  state : Nat → TaskState
  parent : Nat → Option Nat
  reader : Option Nat

namespace Processes

/-- Another queue, whose first task has a whole slice. -/
def resume (p : Processes) (queue : List Nat) : Processes := { p with queue := queue, spent := 0 }

/-- What may follow a call. -/
inductive Next : Event → Processes → Processes → Prop
  | fork {p : Processes} {c : Nat} {qs : List Nat} (stack : Nat) : p.queue = c :: qs →
      Next (.fork stack) p { p with
        queue := c :: p.made :: qs
        made := p.made + 1
        state := Function.update p.state p.made .running
        parent := Function.update p.parent p.made (some c) }
  /-- An exit under a parent that waits: it runs at once. -/
  | exitWake {p : Processes} {c u : Nat} {qs : List Nat} (status : Int) : p.queue = c :: qs →
      p.parent c = some u → u < p.made → p.state u = .waiting → Next (.exit status) p
        { p.resume (u :: qs) with state := Function.update (Function.update p.state c .zombie) u .running }
  | exitQuiet {p : Processes} {c q u : Nat} {qs : List Nat} (status : Int) :
      p.queue = c :: q :: qs → p.parent c = some u → p.state u ≠ .waiting → Next (.exit status) p
        { p.resume (q :: qs) with state := Function.update p.state c .zombie }
  | reap {p : Processes} {c child : Nat} {qs : List Nat} : p.queue = c :: qs → child < p.made →
      p.state child = .zombie → p.parent child = some c → Next .wait p p
  | wait {p : Processes} {c q : Nat} {qs : List Nat} : p.queue = c :: q :: qs → Next .wait p
        { p.resume (q :: qs) with state := Function.update p.state c .waiting }
  | read {p : Processes} {c q : Nat} {qs : List Nat} : p.queue = c :: q :: qs → p.reader = none →
      Next .read p { p.resume (q :: qs) with reader := some c }
  | enter {p : Processes} {c w : Nat} {qs : List Nat} : p.queue = c :: qs → p.reader = some w →
      Next (.key .enter) p { p with queue := c :: w :: qs, reader := none }
  | key {p : Processes} {pressed : Ps2Key} : pressed ≠ .enter ∨ p.reader = none →
      Next (.key pressed) p p
  | tick {p : Processes} : p.spent < preemptTickCount → Next .tick p { p with spent := p.spent + 1 }
  | turn {p : Processes} {c : Nat} {qs : List Nat} : preemptTickCount ≤ p.spent → p.queue = c :: qs →
      Next .tick p (p.resume (qs ++ [c]))
  | schedule {p : Processes} {c : Nat} {qs : List Nat} : p.queue = c :: qs →
      Next .schedule p (p.resume (qs ++ [c]))
  | exec {p : Processes} : Next .exec p p
  | readResume {p : Processes} (n : Nat) : Next (.readResume n) p p
  | open_ {p : Processes} (ino mode : Nat) : Next (.open_ ino mode) p p
  | close {p : Processes} (fd : Int) : Next (.close fd) p p

/-- Init runs. -/
def start : Processes where
  queue := [0]
  made := 1
  spent := 0
  state := fun _ => .running
  parent := fun _ => none
  reader := none

/-- No task is lost, and none is in two places: what was made is in the queue once, or reads, or
waits, or has exited. -/
structure Accounted (p : Processes) : Prop where
  nodup : p.queue.Nodup
  queued : ∀ t, t ∈ p.queue ↔ t < p.made ∧ p.state t = .running ∧ p.reader ≠ some t
  reader : ∀ w, p.reader = some w → w < p.made ∧ p.state w = .running
  states : ∀ t < p.made, p.state t ≠ .sleeping

end Processes

/-! ## Who runs next -/

/-- `schedule` is a turn of the queue. -/
theorem schedule_turns (ring : IsRing s.nextOf s.prevOf s.current qs) (h : schedule s = .ok s') :
    ∃ qs', s'.current :: qs' = qs ++ [s.current] ∧ IsRing s'.nextOf s'.prevOf s'.current qs' := by
  unfold schedule at h
  simp only at h
  split at h
  · rename_i alone
    cases h
    cases qs with
    | nil =>
      refine ⟨[], rfl, ring.congr (fun x _ => ?_) fun x _ => ?_⟩
      · by_cases e : x = s.current <;> simp [State.nextOf, e]
      · by_cases e : x = s.current <;> simp [State.prevOf, e]
    | cons q rest =>
      -- a ring of more than one does not come back at once
      have forth : (s.tasks s.current).next = some q := ring.next_head
      simp only [modifyTask_tasks, modifyTask_current, if_true, forth, Option.some.injEq] at alone
      exact absurd (alone ▸ List.mem_cons_self) (List.nodup_cons.mp ring.nodup).1
  · rename_i other
    obtain ⟨n, found, h⟩ := bind_eq_ok.mp h
    have forth : s.nextOf s.current = some n := by
      simpa [State.nextOf] using (deref_eq_ok.mp found).1
    unfold switchTo at h
    simp only at h
    split at h
    · cases h
    cases h
    cases qs with
    | nil =>
      have self : (s.tasks s.current).next = some s.current := ring.next_self
      exact absurd (by simpa using self) other
    | cons q rest =>
      obtain rfl : n = q := Option.some.inj (forth.symm.trans ring.next_head)
      refine ⟨rest ++ [s.current], rfl, ring.rotate.congr (fun x _ => ?_) fun x _ => ?_⟩
      · by_cases e : x = s.current <;> simp [State.nextOf, e]
      · by_cases e : x = s.current <;> simp [State.prevOf, e]

theorem switchTo_ticks {n : Nat} (h : switchTo s n = .ok s') (t : Nat) :
    (s'.tasks t).aliveTicks = (s.tasks t).aliveTicks := by
  unfold switchTo at h
  simp only at h
  split at h
  · cases h
  · cases h
    rw [modifyTask_tasks]
    split
    · rename_i here
      rw [here]
    · rfl

/-- Whoever goes on has a whole slice. -/
theorem schedule_ticks (zero : ∀ t, t ≠ s.current → (s.tasks t).aliveTicks = 0)
    (h : schedule s = .ok s') (t : Nat) : (s'.tasks t).aliveTicks = 0 := by
  have cleared : ∀ t, ((s.modifyTask s.current fun x => { x with aliveTicks := 0 }).tasks
      t).aliveTicks = 0 := by
    intro t
    rw [modifyTask_tasks]
    split
    · rfl
    · exact zero t ‹_›
  unfold schedule at h
  simp only at h
  split at h
  · cases h
    exact cleared t
  · obtain ⟨_, _, h⟩ := bind_eq_ok.mp h
    rw [switchTo_ticks h]
    exact cleared t

theorem scheduleSleep_ticks (rested : Rested s) (h : scheduleSleep s = .ok s') (t : Nat) :
    (s'.tasks t).aliveTicks = 0 := by
  unfold scheduleSleep at h
  obtain ⟨s₁, removed, h⟩ := bind_eq_ok.mp h
  obtain ⟨_, _, h⟩ := bind_eq_ok.mp h
  rw [switchTo_ticks h, (schedRrRemoveProc_sameTicks removed).ticks]
  exact rested.clear t

/-! ## The table and the queue -/

/-- The processes have what the table says of each task. -/
structure Records (s : State) (p : Processes) : Prop where
  made : p.made = s.ntasks
  state : ∀ t < s.ntasks, p.state t = (s.tasks t).state
  parent : ∀ t < s.ntasks, p.parent t = (s.tasks t).parent
  reader : p.reader = s.tty.waitingTask

/-- The processes are what the table says. -/
structure Presents (s : State) (p : Processes) : Prop extends Records s p where
  queue : ∃ qs, RingInv s qs ∧ p.queue = s.current :: qs
  spent : p.spent = (s.tasks s.current).aliveTicks

/-- A ring that is found after a call is the one of the invariant. -/
theorem ring_moved {qs' : List Nat} (inv : ∃ qs, RingInv s qs)
    (ring : IsRing s.nextOf s.prevOf s.current qs') : RingInv s qs' := by
  obtain ⟨qs, inv⟩ := inv
  rwa [ring.unique inv.ring]

namespace Records

variable (records : Records s p)

include records

/-- What no link, tick or stack pointer matters for. -/
theorem congr (ntasks : s'.ntasks = s.ntasks) (state : ∀ t, (s'.tasks t).state = (s.tasks t).state)
    (parent : ∀ t, (s'.tasks t).parent = (s.tasks t).parent)
    (reader : s'.tty.waitingTask = s.tty.waitingTask) : Records s' p where
  made := by rw [ntasks]; exact records.made
  state t lt := by
    rw [ntasks] at lt
    rw [state]
    exact records.state t lt
  parent t lt := by
    rw [ntasks] at lt
    rw [parent]
    exact records.parent t lt
  reader := by rw [reader]; exact records.reader

theorem schedOnly (only : SchedOnly s s') : Records s' p :=
  records.congr only.ntasks only.state (fun t => by rw [only.task t]) (by rw [only.tty])

/-- A task's state assigned. -/
theorem restate {f : Task → Task} {x : TaskState} (t : Nat) (state : ∀ u : Task, (f u).state = x)
    (parent : ∀ u : Task, (f u).parent = u.parent) :
    Records (s.modifyTask t f) { p with state := Function.update p.state t x } where
  made := records.made
  state u lt := by
    show Function.update p.state t x u = _
    rw [modifyTask_tasks]
    by_cases here : u = t
    · rw [if_pos here, here, Function.update_self, state]
    · rw [if_neg here, Function.update_of_ne here]
      exact records.state u lt
  parent u lt := by
    rw [modifyTask_tasks]
    split
    · rename_i here
      rw [parent, ← here]
      exact records.parent u lt
    · exact records.parent u lt
  reader := records.reader

/-- The task that goes to sleep leaves the queue, and the next one runs. -/
theorem sleep (ring : IsRing s.nextOf s.prevOf s.current qs) (rested : Rested s)
    (slept : scheduleSleep s = .ok s') (inv : ∃ qs, RingInv s' qs) :
    Presents s' (p.resume qs) ∧ ∃ q rest, qs = q :: rest := by
  have after := records.schedOnly (scheduleSleep_schedOnly slept)
  have zero := scheduleSleep_ticks rested slept
  obtain ⟨q, rest, rfl, current, ring'⟩ := scheduleSleep_ring ring slept
  rw [← current] at ring'
  refine ⟨⟨⟨after.made, after.state, after.parent, after.reader⟩, ⟨rest, ring_moved inv ring', ?_⟩,
    (zero _).symm⟩, q, rest, rfl⟩
  show q :: rest = _
  rw [current]

end Records

/-- The terminal with the character of a key in its buffer. -/
def typed (s : State) (pressed : Ps2Key) : Tty :=
  { s.tty with
    buf := Function.update s.tty.buf s.tty.bufi (keyMap pressed)
    bufi := s.tty.bufi + 1 }

/-- `tty_send_key` wakes the reader when Enter is pressed and there is one. -/
theorem ttySendKey_wakes_iff {pressed : Ps2Key} (h : ttySendKey s pressed = .ok s') :
    ((pressed ≠ .enter ∨ s.tty.waitingTask = none) ∧ ∃ tty : Tty,
      tty.waitingTask = s.tty.waitingTask ∧ s' = { s with tty := tty }) ∨
    pressed = .enter ∧ ∃ (w : Nat) (tty : Tty) (s₁ : State), s.tty.waitingTask = some w ∧
      schedRrInsertProc { s with tty := tty } w = .ok s₁ ∧
      s' = { s₁ with tty := { s₁.tty with waitingTask := none } } := by
  unfold ttySendKey at h
  split at h
  · cases h
  simp only at h
  split at h
  · rename_i enter
    split at h
    · rename_i w reader
      obtain ⟨s₁, inserted, h⟩ := bind_eq_ok.mp h
      cases h
      exact .inr ⟨enter, w, _, s₁, reader, inserted, rfl⟩
    · rename_i nobody
      cases h
      exact .inl ⟨.inr nobody, typed s pressed, rfl, rfl⟩
  · rename_i other
    cases h
    exact .inl ⟨.inl other, typed s pressed, rfl, rfl⟩

namespace Presents

variable (presents : Presents s p)

include presents

/-- A call that the processes do not see. -/
theorem kept (inv : ∃ qs, RingInv s' qs) (current : s'.current = s.current)
    (ntasks : s'.ntasks = s.ntasks) (reader : s'.tty.waitingTask = s.tty.waitingTask)
    (task : ∀ t, (s'.tasks t).next = (s.tasks t).next ∧ (s'.tasks t).prev = (s.tasks t).prev ∧
      (s'.tasks t).state = (s.tasks t).state ∧ (s'.tasks t).parent = (s.tasks t).parent ∧
      (s'.tasks t).aliveTicks = (s.tasks t).aliveTicks) : Presents s' p := by
  obtain ⟨qs, inv₀, first⟩ := presents.queue
  have ring : IsRing s'.nextOf s'.prevOf s'.current qs := by
    rw [current]
    exact inv₀.ring.congr (fun t _ => (task t).1) fun t _ => (task t).2.1
  refine ⟨presents.toRecords.congr ntasks (fun t => (task t).2.2.1) (fun t => (task t).2.2.2.1) reader,
    ⟨qs, ring_moved inv ring, ?_⟩, ?_⟩
  · rw [current]
    exact first
  · rw [(task _).2.2.2.2, current]
    exact presents.spent

/-- `sched_fork`. -/
theorem fork {stack : Nat} (inv : RingInv s qs) (h : schedFork s s.current stack = .ok s') :
    Presents s' { p with
      queue := s.current :: p.made :: qs
      made := p.made + 1
      state := Function.update p.state p.made .running
      parent := Function.update p.parent p.made (some s.current) } := by
  have spec := schedFork_spec h
  have inv' : ∃ qs', RingInv s' qs' := inv.fork h
  obtain ⟨lt, s₁, s₂, forked, inserted, linked⟩ := schedFork_inv h
  obtain ⟨_, others, made, rest⟩ := doFork_spec lt forked
  obtain ⟨_, _, treeRest, tree⟩ := treeInsertProc_spec linked
  have current : s₁.current = s.current := by rw [rest]
  have old : ∀ x ∈ s.current :: qs, x ≠ s.ntasks := fun x mem =>
    Nat.ne_of_lt ((inv.runnable x).mp mem).1
  have ring₁ : IsRing s₁.nextOf s₁.prevOf s₁.current qs := by
    rw [current]
    refine inv.ring.congr (fun x mem => ?_) fun x mem => ?_
    · rw [State.nextOf, others x (old x mem), State.nextOf]
    · rw [State.prevOf, others x (old x mem), State.prevOf]
  have fresh : s.ntasks ∉ s₁.current :: qs := by
    rw [current]
    exact fun mem => old _ mem rfl
  obtain ⟨_, ring₂⟩ := schedRrInsertProc_ring ring₁ fresh inserted
  have ring : IsRing s'.nextOf s'.prevOf s'.current (s.ntasks :: qs) := by
    rw [spec.current, ← current]
    refine ring₂.congr (fun x _ => ?_) fun x _ => ?_
    · rw [State.nextOf, tree x, State.nextOf]
    · rw [State.prevOf, tree x, State.prevOf]
  refine ⟨⟨?_, fun t lt => ?_, fun t lt => ?_, ?_⟩, ⟨_, ring_moved inv' ring, ?_⟩, ?_⟩
  · show p.made + 1 = _
    rw [presents.made, spec.ntasks]
  · show Function.update p.state p.made .running t = _
    rw [presents.made]
    by_cases new : t = s.ntasks
    · rw [new, Function.update_self, spec.newState]
    · rw [Function.update_of_ne new, spec.state t new]
      rw [spec.ntasks] at lt
      exact presents.state t (by omega)
  · show Function.update p.parent p.made (some s.current) t = _
    rw [presents.made]
    by_cases new : t = s.ntasks
    · rw [new, Function.update_self, spec.newParent]
    · rw [Function.update_of_ne new, spec.parent t new]
      rw [spec.ntasks] at lt
      exact presents.parent t (by omega)
  · show p.reader = _
    rw [presents.reader, spec.tty]
  · show s.current :: p.made :: qs = _
    rw [presents.made, spec.current]
  · show p.spent = _
    rw [presents.spent, spec.current, tree]
    show _ = (s₂.tasks _).aliveTicks
    rw [(schedRrInsertProc_sameTicks inserted).ticks, others _ (Nat.ne_of_lt lt)]

/-- `do_exit`. -/
theorem exit {status : Int} (inv : RingInv s qs) (first : p.queue = s.current :: qs)
    (rested : Rested s) (h : doExit s s.current status = .ok s') :
    ∃ p', Processes.Next (.exit status) p p' ∧ Presents s' p' := by
  have inv' := inv.exit h
  obtain ⟨u, parent, lt, cases⟩ := doExit_inv h
  obtain ⟨currentLt, _, _, waits, _⟩ := inv.current_runnable
  have dozing := inv.exiting_dozing status
  have known : p.parent s.current = some u := (presents.parent _ currentLt).trans parent
  have marked : Records (exiting s s.current status)
      { p with state := Function.update p.state s.current .zombie } := by
    have given := presents.toRecords.restate s.current (x := .zombie)
      (f := fun x => { x with state := .zombie, exitStatus := status }) (fun _ => rfl) fun _ => rfl
    exact ⟨given.made, given.state, given.parent, given.reader⟩
  have ticks : SameTicks s (exiting s s.current status) := by
    have same := sameTicks_modifyTask s s.current (f := fun x =>
      { x with state := .zombie, exitStatus := status }) fun _ => rfl
    exact ⟨rfl, same.ticks⟩
  rcases cases with ⟨waiting, s₁, inserted, slept⟩ | ⟨other, slept⟩
  · have ne : u ≠ s.current := by
      rintro rfl
      simp [exiting] at waiting
    have asleep : (s.tasks u).state = .waiting := by simpa [exiting, ne] using waiting
    have woken := dozing.wake lt ne waiting inserted
    have only := schedRrInsertProc_schedOnly inserted
    have given := (marked.schedOnly only).restate u (x := .running)
      (f := fun x => { x with state := .running }) (fun _ => rfl) fun _ => rfl
    have same := (ticks.trans (schedRrInsertProc_sameTicks inserted)).trans
      (sameTicks_modifyTask s₁ u (f := fun x => { x with state := .running }) fun _ => rfl)
    refine ⟨_, .exitWake status first known (presents.made ▸ lt) ?_,
      (given.sleep woken.ring (rested.keep same) slept inv').1⟩
    rw [presents.state u lt]
    exact asleep
  · obtain ⟨after, q, rest, rfl⟩ := marked.sleep dozing.ring (rested.keep ticks) slept inv'
    refine ⟨_, .exitQuiet status first known ?_, after⟩
    rw [presents.state u lt]
    by_cases self : u = s.current
    · rw [self]
      exact waits
    · simpa [exiting, self] using other

/-- `do_wait`. -/
theorem wait (inv : RingInv s qs) (first : p.queue = s.current :: qs) (rested : Rested s)
    (wakeable : Wakeable s) (h : doWait s s.current = .ok s') :
    ∃ p', Processes.Next .wait p p' ∧ Presents s' p' := by
  have inv' := inv.wait h
  rcases doWait_inv h with ⟨_, slept⟩ | ⟨c, found, rfl⟩
  · have marked := presents.toRecords.restate s.current (x := .waiting)
      (f := fun x => { x with state := .waiting }) (fun _ => rfl) fun _ => rfl
    have ticks := sameTicks_modifyTask s s.current (f := fun x => { x with state := .waiting })
      fun _ => rfl
    obtain ⟨after, q, rest, rfl⟩ :=
      marked.sleep inv.waiting_dozing.ring (rested.keep ticks) slept inv'
    exact ⟨_, .wait first, after⟩
  · obtain ⟨lt, zombie⟩ := findZombie_zombie found
    have listed := wakeable.listed inv.current_runnable.1 (findZombie_reaches found)
    refine ⟨p, .reap first (presents.made ▸ lt) ?_ ?_, ?_⟩
    · rw [presents.state c lt]
      exact zombie
    · rw [presents.parent c lt]
      exact listed
    · rw [taskFree_frame] at inv' ⊢
      exact presents.kept inv' rfl rfl rfl fun _ => ⟨rfl, rfl, rfl, rfl, rfl⟩

/-- `stdin_read`. -/
theorem read (inv : RingInv s qs) (first : p.queue = s.current :: qs) (rested : Rested s)
    (h : stdinRead s = .ok s') : ∃ p', Processes.Next .read p p' ∧ Presents s' p' := by
  have inv' := inv.read h
  obtain ⟨free, slept⟩ := stdinRead_inv h
  have marked : Records { s with tty := { s.tty with waitingTask := some s.current } }
      { p with reader := some s.current } :=
    ⟨presents.made, presents.state, presents.parent, rfl⟩
  obtain ⟨after, q, rest, rfl⟩ := marked.sleep inv.ring (rested.keep ⟨rfl, fun _ => rfl⟩) slept inv'
  exact ⟨_, .read first (presents.reader.trans free), after⟩

/-- `tty_send_key`. -/
theorem key {pressed : Ps2Key} (inv : RingInv s qs) (first : p.queue = s.current :: qs)
    (h : ttySendKey s pressed = .ok s') :
    ∃ p', Processes.Next (.key pressed) p p' ∧ Presents s' p' := by
  have inv' := inv.key h
  rcases ttySendKey_wakes_iff h with ⟨quiet, tty, reads, rfl⟩ | ⟨rfl, w, tty, s₁, reader, inserted, rfl⟩
  · refine ⟨p, .key ?_, presents.kept inv' rfl rfl reads fun _ => ⟨rfl, rfl, rfl, rfl, rfl⟩⟩
    rw [presents.reader]
    exact quiet
  · have only := schedRrInsertProc_schedOnly inserted
    have same := schedRrInsertProc_sameTicks inserted
    have off : w ∉ s.current :: qs := by
      rw [inv.runnable w]
      exact fun run => run.2.2.2.2 reader
    obtain ⟨current, ring⟩ := schedRrInsertProc_ring (s := { s with tty := tty }) inv.ring off inserted
    have ring' : IsRing s₁.nextOf s₁.prevOf s₁.current (w :: qs) := by
      rw [current]
      exact ring
    refine ⟨_, .enter first (presents.reader.trans reader), ⟨?_, fun t lt => ?_, fun t lt => ?_, rfl⟩,
      ⟨w :: qs, ring_moved inv' ring', ?_⟩, ?_⟩
    · exact presents.made.trans only.ntasks.symm
    · rw [show s₁.ntasks = s.ntasks from only.ntasks] at lt
      exact (presents.state t lt).trans (only.state t).symm
    · rw [show s₁.ntasks = s.ntasks from only.ntasks] at lt
      refine (presents.parent t lt).trans ?_
      rw [only.task t]
    · show s.current :: w :: qs = s₁.current :: w :: qs
      rw [current]
    · show p.spent = (s₁.tasks s₁.current).aliveTicks
      rw [same.ticks, same.current]
      exact presents.spent

/-- `schedule`, after a change of ticks. -/
theorem turn {s₁ : State} (only : SchedOnly s s₁)
    (current : s₁.current = s.current) (ring : IsRing s₁.nextOf s₁.prevOf s₁.current qs)
    (zero : ∀ t, t ≠ s₁.current → (s₁.tasks t).aliveTicks = 0) (h : Kernel.schedule s₁ = .ok s')
    (inv' : ∃ qs, RingInv s' qs) : Presents s' (p.resume (qs ++ [s.current])) := by
  obtain ⟨qs', turned, ring'⟩ := schedule_turns ring h
  have records := presents.toRecords.schedOnly (only.trans (schedule_schedOnly h))
  refine ⟨⟨records.made, records.state, records.parent, records.reader⟩,
    ⟨qs', ring_moved inv' ring', ?_⟩, (schedule_ticks zero h _).symm⟩
  rw [turned, current]
  rfl

/-- The timer interrupt. -/
theorem tick (inv : RingInv s qs) (first : p.queue = s.current :: qs) (rested : Rested s)
    (h : schedMaybePreempt s = .ok s') : ∃ p', Processes.Next .tick p p' ∧ Presents s' p' := by
  have inv' := inv.tick h
  unfold schedMaybePreempt at h
  simp only at h
  have counted := SchedOnly.modifyTask s s.current (f := fun x =>
    { x with aliveTicks := (s.tasks s.current).aliveTicks + 1 }) fun _ => rfl
  have ring : IsRing
      (s.modifyTask s.current fun x =>
        { x with aliveTicks := (s.tasks s.current).aliveTicks + 1 }).nextOf
      (s.modifyTask s.current fun x =>
        { x with aliveTicks := (s.tasks s.current).aliveTicks + 1 }).prevOf s.current qs := by
    refine inv.ring.congr (fun x _ => ?_) (fun x _ => ?_)
    · by_cases e : x = s.current <;> simp [State.nextOf, e]
    · by_cases e : x = s.current <;> simp [State.prevOf, e]
  split at h
  · rename_i early
    cases h
    have records := presents.toRecords.schedOnly counted
    refine ⟨_, .tick (presents.spent ▸ early), ⟨records.made, records.state, records.parent,
      records.reader⟩, ⟨qs, ring_moved inv' ring, first⟩, ?_⟩
    show p.spent + 1 = _
    rw [presents.spent]
    simp
  · rename_i late
    refine ⟨_, .turn (presents.spent ▸ Nat.le_of_not_lt late) first,
      presents.turn counted rfl ring (fun t ne => ?_) h inv'⟩
    rw [modifyTask_current] at ne
    rw [modifyTask_tasks, if_neg ne]
    exact rested.others t ne

/-- A call of the system is a step of the processes. -/
theorem step (wakeable : Wakeable s) (rested : Rested s) (h : Kernel.step event s = .ok s') :
    ∃ p', Processes.Next event p p' ∧ Presents s' p' := by
  obtain ⟨qs, inv, first⟩ := presents.queue
  have inv' := inv.step h
  cases event with
  | fork stack => exact ⟨_, .fork stack first, presents.fork inv h⟩
  | exit status => exact presents.exit inv first rested h
  | wait => exact presents.wait inv first rested wakeable h
  | read => exact presents.read inv first rested h
  | key pressed => exact presents.key inv first h
  | tick => exact presents.tick inv first rested h
  | schedule =>
    exact ⟨_, .schedule first, presents.turn ⟨fun _ => rfl, rfl⟩ rfl inv.ring rested.others h inv'⟩
  | exec =>
    cases h
    refine ⟨p, .exec, presents.kept inv' rfl rfl rfl fun t => ?_⟩
    by_cases e : t = s.current <;> simp [schedExec, e]
  | readResume n =>
    cases h
    exact ⟨p, .readResume n, presents.kept inv' rfl rfl rfl fun _ => ⟨rfl, rfl, rfl, rfl, rfl⟩⟩
  | open_ ino mode =>
    obtain ⟨i, ops, _, rfl⟩ := doOpen_inv h
    refine ⟨p, .open_ ino mode, presents.kept inv' rfl rfl rfl fun t => ?_⟩
    by_cases e : t = s.current <;> simp [State.modifyFile, e]
  | close fd =>
    obtain ⟨i, f, _, _, rfl⟩ := doClose_inv h
    refine ⟨p, .close fd, presents.kept inv' rfl rfl rfl fun t => ?_⟩
    by_cases e : t = s.current <;> simp [e]

end Presents

/-! ## No task is lost -/

namespace Processes

/-- The first task of the queue and the ones behind it. -/
theorem Accounted.first {qs : List Nat} (accounted : p.Accounted) (queue : p.queue = c :: qs) :
    (c < p.made ∧ p.state c = .running ∧ p.reader ≠ some c) ∧ qs.Nodup ∧
      ∀ t, t ∈ qs ↔ t ≠ c ∧ t < p.made ∧ p.state t = .running ∧ p.reader ≠ some t := by
  have nodup := accounted.nodup
  rw [queue, List.nodup_cons] at nodup
  have queued := accounted.queued
  rw [queue] at queued
  refine ⟨(queued c).mp List.mem_cons_self, nodup.2, fun t => ⟨fun mem => ?_, fun ⟨ne, rest⟩ => ?_⟩⟩
  · exact ⟨fun e => nodup.1 (e ▸ mem), (queued t).mp (List.mem_cons_of_mem c mem)⟩
  · exact (List.mem_cons.mp ((queued t).mpr rest)).resolve_left ne

/-- The first task of the queue goes to its end. -/
theorem Accounted.rotate {qs : List Nat} (accounted : p.Accounted) (queue : p.queue = c :: qs) :
    (p.resume (qs ++ [c])).Accounted := by
  have nodup := accounted.nodup
  rw [queue] at nodup
  refine ⟨?_, fun t => ?_, accounted.reader, accounted.states⟩
  · exact (List.perm_append_singleton c qs).nodup_iff.mpr nodup
  · refine Iff.trans ?_ (accounted.queued t)
    rw [queue]
    exact (List.perm_append_singleton c qs).mem_iff

/-- The first task of the queue leaves it, in another state. -/
theorem Accounted.leave {qs : List Nat} {x : TaskState} (accounted : p.Accounted)
    (queue : p.queue = c :: qs) (off : x ≠ .running) (awake : x ≠ .sleeping) :
    Accounted { p.resume qs with state := Function.update p.state c x } := by
  obtain ⟨⟨lt, running, idle⟩, nodup, rest⟩ := accounted.first queue
  refine ⟨nodup, fun t => ?_, fun w reading => ?_, fun t lt => ?_⟩
  · show t ∈ qs ↔ t < p.made ∧ Function.update p.state c x t = .running ∧ p.reader ≠ some t
    rw [rest t]
    by_cases here : t = c
    · rw [here, Function.update_self]
      exact ⟨fun h => absurd rfl h.1, fun h => absurd h.2.1 off⟩
    · rw [Function.update_of_ne here]
      exact ⟨fun h => h.2, fun h => ⟨here, h⟩⟩
  · have ne : w ≠ c := fun e => idle (e ▸ reading)
    refine ⟨(accounted.reader w reading).1, ?_⟩
    show Function.update p.state c x w = _
    rw [Function.update_of_ne ne]
    exact (accounted.reader w reading).2
  · show Function.update p.state c x t ≠ _
    by_cases here : t = c
    · rw [here, Function.update_self]
      exact awake
    · rw [Function.update_of_ne here]
      exact accounted.states t lt

/-- A task that waits is put at the front of the queue. -/
theorem Accounted.arrive {u : Nat} (accounted : p.Accounted) (lt : u < p.made)
    (off : p.state u ≠ .running) :
    Accounted { p.resume (u :: p.queue) with state := Function.update p.state u .running } := by
  refine ⟨List.nodup_cons.mpr ⟨fun mem => off ((accounted.queued u).mp mem).2.1, accounted.nodup⟩,
    fun t => ?_, fun w reading => ?_, fun t lt => ?_⟩
  · show t ∈ u :: p.queue ↔ t < p.made ∧ Function.update p.state u .running t = .running ∧
      p.reader ≠ some t
    rw [List.mem_cons, accounted.queued t]
    by_cases here : t = u
    · rw [here, Function.update_self]
      exact ⟨fun _ => ⟨lt, rfl, fun reading => off (accounted.reader u reading).2⟩, fun _ => .inl rfl⟩
    · rw [Function.update_of_ne here]
      exact ⟨fun h => h.resolve_left here, .inr⟩
  · have ne : w ≠ u := fun e => off (e ▸ (accounted.reader w reading).2)
    refine ⟨(accounted.reader w reading).1, ?_⟩
    show Function.update p.state u .running w = _
    rw [Function.update_of_ne ne]
    exact (accounted.reader w reading).2
  · show Function.update p.state u .running t ≠ _
    by_cases here : t = u
    · rw [here, Function.update_self]
      exact nofun
    · rw [Function.update_of_ne here]
      exact accounted.states t lt

/-- The first task of the queue leaves it for the terminal. -/
theorem Accounted.read {qs : List Nat} (accounted : p.Accounted) (queue : p.queue = c :: qs)
    (free : p.reader = none) : Accounted { p.resume qs with reader := some c } := by
  obtain ⟨⟨lt, running, _⟩, nodup, rest⟩ := accounted.first queue
  refine ⟨nodup, fun t => ?_, fun w reading => ?_, accounted.states⟩
  · show t ∈ qs ↔ t < p.made ∧ p.state t = .running ∧ some c ≠ some t
    rw [rest t, free]
    constructor
    · exact fun ⟨ne, lt, runs, _⟩ => ⟨lt, runs, fun e => ne (Option.some.inj e).symm⟩
    · exact fun ⟨lt, runs, ne⟩ => ⟨fun e => ne (e ▸ rfl), lt, runs, nofun⟩
  · obtain rfl : c = w := Option.some.inj reading
    exact ⟨lt, running⟩

/-- The reader is put behind the first task of the queue. -/
theorem Accounted.enter {w : Nat} {qs : List Nat} (accounted : p.Accounted)
    (queue : p.queue = c :: qs) (reader : p.reader = some w) :
    Accounted { p with queue := c :: w :: qs, reader := none } := by
  have perm : List.Perm (c :: w :: qs) (w :: p.queue) := by
    rw [queue]
    exact .swap w c qs
  have off : w ∉ p.queue := fun mem => ((accounted.queued w).mp mem).2.2 reader
  have reads := accounted.reader w reader
  refine ⟨perm.nodup_iff.mpr (List.nodup_cons.mpr ⟨off, accounted.nodup⟩), fun t => ?_, nofun,
    accounted.states⟩
  show t ∈ c :: w :: qs ↔ t < p.made ∧ p.state t = .running ∧ none ≠ some t
  rw [perm.mem_iff, List.mem_cons, accounted.queued t, reader]
  constructor
  · rintro (rfl | ⟨lt, runs, _⟩)
    · exact ⟨reads.1, reads.2, nofun⟩
    · exact ⟨lt, runs, nofun⟩
  · rintro ⟨lt, runs, _⟩
    by_cases here : t = w
    · exact .inl here
    · exact .inr ⟨lt, runs, fun e => here (Option.some.inj e).symm⟩

/-- A fork's child is behind its parent. -/
theorem Accounted.fork {qs : List Nat} (accounted : p.Accounted) (queue : p.queue = c :: qs) :
    Accounted { p with
      queue := c :: p.made :: qs
      made := p.made + 1
      state := Function.update p.state p.made .running
      parent := Function.update p.parent p.made (some c) } := by
  obtain ⟨⟨lt, running, idle⟩, nodup, rest⟩ := accounted.first queue
  have old : ∀ t < p.made, Function.update p.state p.made .running t = p.state t := fun t lt =>
    Function.update_of_ne (Nat.ne_of_lt lt) _ _
  refine ⟨?_, fun t => ?_, fun w reading => ?_, fun t lt => ?_⟩
  · refine List.nodup_cons.mpr ⟨fun mem => ?_, List.nodup_cons.mpr ⟨fun mem => ?_, nodup⟩⟩
    · rcases List.mem_cons.mp mem with e | mem
      · omega
      · exact ((rest c).mp mem).1 rfl
    · have := ((rest _).mp mem).2.1
      omega
  · show t ∈ c :: p.made :: qs ↔ t < p.made + 1 ∧
      Function.update p.state p.made .running t = .running ∧ p.reader ≠ some t
    by_cases new : t = p.made
    · rw [new, Function.update_self]
      refine ⟨fun _ => ⟨by omega, rfl, fun reading => ?_⟩, fun _ => by simp⟩
      have := (accounted.reader _ reading).1
      omega
    · rw [Function.update_of_ne new, List.mem_cons, List.mem_cons]
      have before := accounted.queued t
      rw [queue, List.mem_cons] at before
      constructor
      · rintro (here | here | mem)
        · exact ⟨by omega, (before.mp (.inl here)).2⟩
        · exact absurd here new
        · exact ⟨by have := (before.mp (.inr mem)).1; omega, (before.mp (.inr mem)).2⟩
      · rintro ⟨made, runs⟩
        exact (before.mpr ⟨by omega, runs⟩).imp_right .inr
  · have := (accounted.reader w reading).1
    refine ⟨Nat.lt_succ_of_lt this, ?_⟩
    show Function.update p.state p.made .running w = _
    rw [old w this]
    exact (accounted.reader w reading).2
  · show Function.update p.state p.made .running t ≠ _
    by_cases new : t = p.made
    · rw [new, Function.update_self]
      exact nofun
    · rw [Function.update_of_ne new]
      exact accounted.states t (by have : t < p.made + 1 := lt; omega)

theorem Accounted.next (accounted : p.Accounted) (next : Next event p p') : p'.Accounted := by
  cases next with
  | fork stack queue => exact accounted.fork queue
  | exitWake status queue parent lt waiting =>
    rename_i c u qs
    have ne : u ≠ c := by
      rintro rfl
      exact absurd ((accounted.first queue).1.2.1.symm.trans waiting) nofun
    have left := accounted.leave (x := .zombie) queue nofun nofun
    refine left.arrive lt ?_
    show Function.update p.state c .zombie u ≠ _
    rw [Function.update_of_ne ne, waiting]
    exact nofun
  | exitQuiet status queue parent other => exact accounted.leave queue nofun nofun
  | reap => exact accounted
  | wait queue => exact accounted.leave queue nofun nofun
  | read queue free => exact accounted.read queue free
  | enter queue reader => exact accounted.enter queue reader
  | key => exact accounted
  | tick => exact ⟨accounted.nodup, accounted.queued, accounted.reader, accounted.states⟩
  | turn _ queue => exact accounted.rotate queue
  | schedule queue => exact accounted.rotate queue
  | exec => exact accounted
  | readResume => exact accounted
  | open_ => exact accounted
  | close => exact accounted

theorem Accounted.start : Processes.start.Accounted where
  nodup := List.nodup_singleton 0
  queued t := by
    constructor
    · intro mem
      exact ⟨by simpa [Processes.start] using mem, rfl, nofun⟩
    · rintro ⟨lt, _⟩
      have : t < 1 := lt
      exact List.mem_singleton.mpr (by omega)
  reader _ reading := nomatch reading
  states _ _ := nofun

end Processes

/-! ## The refinement -/

theorem Presents.start (stack : Nat) : Presents (startInit stack) Processes.start := by
  refine ⟨⟨rfl, fun t lt => ?_, fun t lt => ?_, rfl⟩, ⟨[], RingInv.start stack, rfl⟩, rfl⟩
  · obtain rfl : t = 0 := by have : t < 1 := lt; omega
    rfl
  · obtain rfl : t = 0 := by have : t < 1 := lt; omega
    rfl

theorem processes_simulated : Simulates Kernel.step (fun _ _ => True) (fun _ => False)
    Processes.Next fun s p => Presents s p ∧ Wakeable s ∧ Rested s where
  sticky _ _ _ _ held := held
  step _ _ _ _ _ _ related _ taken := by
    obtain ⟨presents, wakeable, rested⟩ := related
    obtain ⟨p', next, presents'⟩ := presents.step wakeable rested taken
    exact ⟨p', next, presents', wakeable.step taken, rested.step taken⟩

/-- Whatever calls and interrupts come, in whatever order, the process table is that of a queue that
was moved by the same calls, and in the queue no task is lost. -/
theorem scheduler_refines_queue (stack : Nat) (events : List Event) (s : State)
    (ran : follow Kernel.step (startInit stack) events = .ok s) :
    ∃ p, Leads Processes.Next Processes.start events p ∧ Presents s p ∧ p.Accounted := by
  obtain ⟨p, leads, presents, _⟩ := processes_simulated.follow
    (guarded_of_forall (fun _ _ => trivial) events (startInit stack)) ran not_false
    ⟨Presents.start stack, Wakeable.start stack, Rested.start stack⟩
  exact ⟨p, leads, presents,
    leads.invariant Processes.Accounted (fun _ _ _ => Processes.Accounted.next) .start⟩

/-- A fork, a wait, and the exit of the child. -/
theorem scheduler_refines_queue_waited : ∃ s p,
    follow Kernel.step (startInit 0) [.fork 0, .wait, .exit 3] = .ok s ∧
      Leads Processes.Next Processes.start [.fork 0, .wait, .exit 3] p ∧ Presents s p ∧
      p.Accounted ∧ p.queue.head? = some 0 := by
  obtain ⟨s, ran, current⟩ := follow_of_observed Kernel.step (startInit 0) [.fork 0, .wait, .exit 3]
    State.current 0 (by decide +kernel)
  obtain ⟨p, leads, presents, accounted⟩ := scheduler_refines_queue 0 _ s ran
  obtain ⟨qs, _, queue⟩ := presents.queue
  exact ⟨s, p, ran, leads, presents, accounted, by rw [queue, current]; rfl⟩

end Blackcomb.Kernel
