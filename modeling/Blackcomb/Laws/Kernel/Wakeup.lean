import Blackcomb.Laws.Kernel.Tree

/-!
# Waking a waiting parent

`do_wait` checks its list and goes to sleep in one call, `do_exit` marks the task and looks at the
parent in another, and the two agree through the parent's `state`. No wake-up is lost: a task that is
`waiting` has no zombie on the list it walked (`Wakeable`). And none is doubled: whatever happens until
a waiting task runs again, it is linked into the ring once if a child of its exits, and not at all
otherwise. Here reaped tasks may be reaped again, and their records stay as `free` left them.

**What it does not establish.** That a woken task runs is the scheduler's part (`Fairness`,
`Queue`). The list that a parent walks is the one that is there, with at most one child on it
(`Tree`).
-/

namespace Blackcomb.Kernel

open State Run Ring

variable {s s' : State}

/-! ## What a step does to sleepers -/

theorem switchTo_ringInserts {t : Nat} (h : switchTo s t = .ok s') :
    s'.ringInserts = s.ringInserts := by
  unfold switchTo at h
  simp only at h
  split at h
  · cases h
  · cases h
    rfl

/-- `schedule` inserts no task into the ring. -/
theorem schedule_ringInserts (h : schedule s = .ok s') : s'.ringInserts = s.ringInserts := by
  unfold schedule at h
  simp only at h
  split at h
  · cases h
    rfl
  · obtain ⟨n, _, h⟩ := bind_eq_ok.mp h
    rw [switchTo_ringInserts h]
    rfl

/-- `schedule_sleep` inserts no task into the ring. -/
theorem scheduleSleep_ringInserts (h : scheduleSleep s = .ok s') :
    s'.ringInserts = s.ringInserts := by
  unfold scheduleSleep schedRrRemoveProc at h
  simp only at h
  obtain ⟨s₁, removed, h⟩ := bind_eq_ok.mp h
  obtain ⟨n, _, h⟩ := bind_eq_ok.mp h
  obtain ⟨p, _, removed⟩ := bind_eq_ok.mp removed
  obtain ⟨q, _, removed⟩ := bind_eq_ok.mp removed
  cases removed
  rw [switchTo_ringInserts h]
  rfl

/-- A tick inserts no task into the ring. -/
theorem schedMaybePreempt_ringInserts (h : schedMaybePreempt s = .ok s') :
    s'.ringInserts = s.ringInserts := by
  unfold schedMaybePreempt at h
  simp only at h
  split at h
  · cases h
    rfl
  · rw [schedule_ringInserts h]
    rfl

/-- An insertion is recorded, and it is the only one. -/
theorem schedRrInsertProc_ringInserts {t : Nat} (h : schedRrInsertProc s t = .ok s') :
    s'.ringInserts = t :: s.ringInserts := by
  unfold schedRrInsertProc at h
  simp only at h
  obtain ⟨n, _, h⟩ := bind_eq_ok.mp h
  cases h
  rfl

/-- A fork inserts its child and nobody else. -/
theorem schedFork_ringInserts {t stack : Nat} (h : schedFork s t stack = .ok s') :
    s'.ringInserts = s.ntasks :: s.ringInserts := by
  obtain ⟨lt, s₁, s₂, forked, inserted, linked⟩ := schedFork_inv h
  obtain ⟨_, _, _, rest⟩ := doFork_spec lt forked
  obtain ⟨_, _, tree, _⟩ := treeInsertProc_spec linked
  have before : s₁.ringInserts = s.ringInserts := by rw [rest]
  rw [← before, ← schedRrInsertProc_ringInserts inserted, tree]

/-- The tasks as the process tree and the waiters see them, and the exits, with one task's state
replaced. -/
structure Restates (s s' : State) (state : Nat → TaskState) (exits : List (Nat × Int)) : Prop where
  state : ∀ t, (s'.tasks t).state = state t
  parent : ∀ t, (s'.tasks t).parent = (s.tasks t).parent
  children : ∀ t, (s'.tasks t).children = (s.tasks t).children
  sibling : ∀ t, (s'.tasks t).sibling = (s.tasks t).sibling
  ntasks : s'.ntasks = s.ntasks
  exits : s'.exits = exits

/-- The states as they are, with one task's replaced. -/
def State.withState (s : State) (t : Nat) (x : TaskState) : Nat → TaskState :=
  Function.update (fun u => (s.tasks u).state) t x

/-- What a step does to sleepers and their lists. -/
inductive Wakes (s s' : State) : Event → Prop
  /-- A new child of `current`, linked into the ring. -/
  | fork {stack : Nat} : ForkSpec s s' s.current → s'.ringInserts = s.ntasks :: s.ringInserts →
      Wakes s s' (.fork stack)
  /-- An exit under a waiting parent: it runs again. -/
  | exitWake {status : Int} {p : Nat} : (s.tasks s.current).parent = some p → p ≠ s.current →
      (s.tasks p).state = .waiting →
      Restates s s' (Function.update (s.withState s.current .zombie) p .running)
        ((s.current, status) :: s.exits) →
      s'.ringInserts = p :: s.ringInserts → s'.tty = s.tty → Wakes s s' (.exit status)
  /-- An exit under a parent that does not wait, or that is the exiting task itself. -/
  | exitQuiet {status : Int} {p : Nat} : (s.tasks s.current).parent = some p →
      (p ≠ s.current → (s.tasks p).state ≠ .waiting) →
      Restates s s' (s.withState s.current .zombie) ((s.current, status) :: s.exits) →
      s'.ringInserts = s.ringInserts → s'.tty = s.tty → Wakes s s' (.exit status)
  /-- A `do_wait` that finds no zombie. -/
  | sleep : findZombie s s.ntasks (s.tasks s.current).children = .ok none →
      Restates s s' (s.withState s.current .waiting) s.exits →
      s'.ringInserts = s.ringInserts → s'.tty = s.tty → Wakes s s' .wait
  /-- Every other call. Only a key press links a task, the terminal's reader, and only a read makes a
  reader, of `current`. -/
  | other {event : Event} : Restates s s' (fun t => (s.tasks t).state) s.exits →
      (s'.ringInserts = s.ringInserts ∨
        ∃ w, s.tty.waitingTask = some w ∧ s'.ringInserts = w :: s.ringInserts) →
      (∀ w, s'.tty.waitingTask = some w → w = s.current ∨ s.tty.waitingTask = some w) →
      Wakes s s' event

/-- A step that leaves the tree is a restating of the tasks' states. -/
theorem TreeSame.restates {state : Nat → TaskState} {exits : List (Nat × Int)}
    (same : TreeSame s s') (states : ∀ t, (s'.tasks t).state = state t)
    (recorded : s'.exits = exits) : Restates s s' state exits :=
  ⟨states, same.parent, same.children, same.sibling, same.ntasks, recorded⟩

/-- An exit wakes its waiting parent or nobody. -/
theorem doExit_wakes {status : Int} (h : doExit s s.current status = .ok s') :
    Wakes s s' (.exit status) := by
  have same := (doExit_quiet h).toTreeSame
  obtain ⟨p, parent, _, ⟨waiting, s₁, inserted, slept⟩ | ⟨other, slept⟩⟩ := doExit_inv h
  · have ne : p ≠ s.current := by
      rintro rfl
      simp [exiting] at waiting
    have asleep : (s.tasks p).state = .waiting := by simpa [exiting, ne] using waiting
    have insertedOnly := schedRrInsertProc_schedOnly inserted
    have sleptOnly := scheduleSleep_schedOnly slept
    have inserts := schedRrInsertProc_ringInserts inserted
    apply Wakes.exitWake parent ne asleep
    · apply same.restates
      · intro t
        rw [sleptOnly.state t, modifyTask_tasks]
        by_cases hp : t = p
        · simp [hp]
        · rw [if_neg hp, insertedOnly.state t, Function.update_of_ne hp, State.withState]
          by_cases hc : t = s.current <;> simp [hc, exiting]
      · rw [sleptOnly.exits]
        exact insertedOnly.exits
    · rw [scheduleSleep_ringInserts slept]
      exact inserts
    · rw [sleptOnly.tty]
      exact insertedOnly.tty
  · have sleptOnly := scheduleSleep_schedOnly slept
    have inserts := scheduleSleep_ringInserts slept
    apply Wakes.exitQuiet parent
    · intro ne
      simpa [exiting, ne] using other
    · apply same.restates
      · intro t
        rw [sleptOnly.state t, State.withState]
        by_cases hc : t = s.current <;> simp [hc, exiting]
      · exact sleptOnly.exits
    · exact inserts
    · exact sleptOnly.tty

/-- A wait wakes nobody. -/
theorem doWait_wakes (h : doWait s s.current = .ok s') : Wakes s s' .wait := by
  rcases doWait_inv h with ⟨none, slept⟩ | ⟨c, _, rfl⟩
  · have only := scheduleSleep_schedOnly slept
    have inserts := scheduleSleep_ringInserts slept
    have marked := quiet_modifyTask s s.current (f := fun x => { x with state := .waiting })
      fun _ => ⟨rfl, rfl, rfl, rfl⟩
    apply Wakes.sleep none
    · apply (marked.trans only.quiet).toTreeSame.restates
      · intro t
        rw [only.state t, State.withState]
        by_cases hc : t = s.current <;> simp [hc]
      · exact only.exits
    · exact inserts
    · exact only.tty
  · rw [taskFree_frame]
    apply Wakes.other
    · exact ⟨fun _ => rfl, fun _ => rfl, fun _ => rfl, fun _ => rfl, rfl, rfl⟩
    · exact .inl rfl
    · exact fun w hw => .inr hw

/-- A step that only schedules. -/
theorem SchedOnly.wakes {event : Event} (only : SchedOnly s s')
    (inserts : s'.ringInserts = s.ringInserts) : Wakes s s' event := by
  apply Wakes.other
  · exact only.quiet.toTreeSame.restates only.state only.exits
  · exact .inl inserts
  · intro w hw
    rw [only.tty] at hw
    exact .inr hw

/-- A read wakes nobody: it takes the line or sleeps. -/
theorem stdinRead_wakes (h : stdinRead s = .ok s') : Wakes s s' .read := by
  have same := (stdinRead_quiet h).toTreeSame
  obtain ⟨_, slept⟩ := stdinRead_inv h
  have only := scheduleSleep_schedOnly slept
  have inserts := scheduleSleep_ringInserts slept
  apply Wakes.other
  · exact same.restates only.state only.exits
  · exact .inl inserts
  · intro w hw
    rw [only.tty] at hw
    exact .inl (Option.some.inj hw).symm

/-- A key wakes the reader of the line it ends, if one sleeps. -/
theorem ttySendKey_wakes {pressed : Ps2Key} (h : ttySendKey s pressed = .ok s') :
    Wakes s s' (.key pressed) := by
  have same := (ttySendKey_quiet h).toTreeSame
  obtain ⟨tty, reads, rfl | ⟨w, s₁, reader, inserted, rfl⟩⟩ := ttySendKey_inv h
  · exact .other (same.restates (fun _ => rfl) rfl) (.inl rfl) fun w hw => .inr (reads ▸ hw)
  · have only := schedRrInsertProc_schedOnly inserted
    have inserts := schedRrInsertProc_ringInserts inserted
    apply Wakes.other
    · exact same.restates only.state only.exits
    · exact .inr ⟨w, reader, inserts⟩
    · intro w hw
      cases hw

theorem doOpen_wakes {ino mode : Nat} (h : doOpen s ino mode = .ok s') :
    Wakes s s' (.open_ ino mode) := by
  have same := (doOpen_spec h).toTreeSame
  obtain ⟨i, ops, _, rfl⟩ := doOpen_inv h
  apply Wakes.other
  · apply same.restates _ rfl
    intro t
    by_cases e : t = s.current <;> simp [State.modifyFile, e]
  · exact .inl rfl
  · exact fun w hw => .inr hw

theorem doClose_wakes {fd : Int} (h : doClose s fd = .ok s') : Wakes s s' (.close fd) := by
  obtain ⟨_, _, _, spec⟩ := doClose_spec h
  have same := spec.toTreeSame
  obtain ⟨i, f, _, _, rfl⟩ := doClose_inv h
  apply Wakes.other
  · apply same.restates _ rfl
    intro t
    by_cases e : t = s.current <;> simp [e]
  · exact .inl rfl
  · exact fun w hw => .inr hw

/-- Every event wakes the tasks its own call is said to wake. -/
theorem step_wakes {event : Event} (h : step event s = .ok s') : Wakes s s' event := by
  cases event with
  | fork stack => exact .fork (schedFork_spec h) (schedFork_ringInserts h)
  | exec =>
    cases h
    apply Wakes.other
    · apply (schedExec_quiet s s.current).toTreeSame.restates
      · intro t
        by_cases e : t = s.current <;> simp [schedExec, e]
      · rfl
    · exact .inl rfl
    · exact fun w hw => .inr hw
  | exit status => exact doExit_wakes h
  | wait => exact doWait_wakes h
  | read => exact stdinRead_wakes h
  | readResume n =>
    cases h
    apply Wakes.other
    · exact ⟨fun _ => rfl, fun _ => rfl, fun _ => rfl, fun _ => rfl, rfl, rfl⟩
    · exact .inl rfl
    · exact fun w hw => .inr hw
  | key pressed => exact ttySendKey_wakes h
  | tick => exact (schedMaybePreempt_schedOnly h).wakes (schedMaybePreempt_ringInserts h)
  | schedule => exact (schedule_schedOnly h).wakes (schedule_ringInserts h)
  | open_ ino mode => exact doOpen_wakes h
  | close fd => exact doClose_wakes h

/-! ## No lost wake-up -/

/-- A `do_wait` that finds no zombie has looked at every task on the list. -/
theorem findZombie_none {c : Nat} : ∀ {fuel : Nat} {p : Option Nat},
    findZombie s fuel p = .ok none → Reaches s c p → (s.tasks c).state ≠ .zombie
  | _, none, _, reaches => by cases reaches
  | 0, some _, found, _ => by cases found
  | fuel + 1, some q, found, reaches => by
    unfold findZombie at found
    obtain ⟨q', hq, found⟩ := bind_eq_ok.mp found
    obtain ⟨e, _⟩ := deref_eq_ok.mp hq
    cases e
    split at found
    · cases found
    · rename_i alive
      cases reaches with
      | here => exact alive
      | next rest => exact findZombie_none found rest

/-- The tasks a list comes past are the same when the links of the tasks below `n` are, if the list
stays among them. -/
theorem Reaches.old {n c : Nat} (closed : ∀ d < n, ∀ e, (s.tasks d).sibling = some e → e < n)
    (same : ∀ d < n, (s'.tasks d).sibling = (s.tasks d).sibling) {p : Option Nat}
    (h : Reaches s' c p) (start : ∀ d, p = some d → d < n) : Reaches s c p := by
  induction h with
  | here => exact .here
  | @next d _ ih =>
    have lt := start d rfl
    rw [same d lt] at ih
    exact .next (ih (closed d lt))

/-- A list that stays among the tasks below `n` comes past no other. -/
theorem Reaches.lt {n c : Nat} (closed : ∀ d < n, ∀ e, (s.tasks d).sibling = some e → e < n)
    {p : Option Nat} (h : Reaches s c p) (start : ∀ d, p = some d → d < n) : c < n := by
  induction h with
  | here => exact start c rfl
  | @next d _ ih => exact ih (closed d (start d rfl))

/-- The list of a task holds children of its, and while the task waits none of them is a zombie. -/
structure Wakeable (s : State) : Prop where
  ring : ∃ qs, RingInv s qs
  child : ∀ t < s.ntasks, ∀ c, (s.tasks t).children = some c →
    c < s.ntasks ∧ (s.tasks c).parent = some t
  sibling : ∀ c < s.ntasks, ∀ d, (s.tasks c).sibling = some d →
    d < s.ntasks ∧ (s.tasks d).parent = (s.tasks c).parent
  awake : ∀ p < s.ntasks, (s.tasks p).state = .waiting → ∀ c, Reaches s c (s.tasks p).children →
    (s.tasks c).state ≠ .zombie

namespace Wakeable

/-- Every task on a list has the list's owner as its parent. -/
theorem listed {t c : Nat} (inv : Wakeable s) (lt : t < s.ntasks)
    (reaches : Reaches s c (s.tasks t).children) : (s.tasks c).parent = some t := by
  have along : ∀ {q : Option Nat}, Reaches s c q →
      (∀ d, q = some d → d < s.ntasks ∧ (s.tasks d).parent = some t) →
      (s.tasks c).parent = some t := by
    intro q h
    induction h with
    | here => exact fun start => (start c rfl).2
    | @next d _ ih =>
      intro start
      apply ih
      intro e he
      obtain ⟨ltD, parentD⟩ := start d rfl
      obtain ⟨ltE, parentE⟩ := inv.sibling d ltD e he
      exact ⟨ltE, parentE.trans parentD⟩
  exact along reaches (inv.child t lt)

/-- The tree as it was, with other states. -/
theorem restate {state : Nat → TaskState} {exits : List (Nat × Int)} (inv : Wakeable s)
    (ring : ∃ qs, RingInv s' qs) (re : Restates s s' state exits)
    (awake : ∀ p < s.ntasks, state p = .waiting → ∀ c, Reaches s c (s.tasks p).children →
      state c ≠ .zombie) : Wakeable s' where
  ring := ring
  child := by
    intro t lt c hc
    rw [re.ntasks] at lt ⊢
    rw [re.children t] at hc
    rw [re.parent c]
    exact inv.child t lt c hc
  sibling := by
    intro c lt d hd
    rw [re.ntasks] at lt ⊢
    rw [re.sibling c] at hd
    rw [re.parent c, re.parent d]
    exact inv.sibling c lt d hd
  awake := by
    intro p lt waiting c reaches
    rw [re.ntasks] at lt
    rw [re.state p] at waiting
    rw [re.children p] at reaches
    rw [re.state c]
    apply awake p lt waiting c
    apply reaches.old (fun d ltD e he => (inv.sibling d ltD e he).1) fun d _ => re.sibling d
    exact fun d hd => (inv.child p lt d hd).1

/-- A fork keeps the invariant: its child is runnable and has no child. -/
theorem fork (inv : Wakeable s) (ring : ∃ qs, RingInv s' qs) (spec : ForkSpec s s' s.current) :
    Wakeable s' where
  ring := ring
  child := by
    intro t lt c hc
    rw [spec.ntasks] at lt ⊢
    by_cases new : t = s.ntasks
    · rw [new, spec.newChildren] at hc
      cases hc
    · rw [spec.children t new] at hc
      by_cases cur : t = s.current
      · rw [if_pos cur] at hc
        obtain rfl := Option.some.inj hc
        rw [spec.newParent, cur]
        exact ⟨Nat.lt_succ_self _, rfl⟩
      · rw [if_neg cur] at hc
        obtain ⟨ltC, parent⟩ := inv.child t (by omega) c hc
        rw [spec.parent c (Nat.ne_of_lt ltC)]
        exact ⟨Nat.lt_succ_of_lt ltC, parent⟩
  sibling := by
    intro c lt d hd
    rw [spec.ntasks] at lt ⊢
    by_cases new : c = s.ntasks
    · -- the new first child continues with what followed the old one
      subst new
      rw [spec.newSibling] at hd
      obtain ⟨b, hb, next⟩ := Option.bind_eq_some_iff.mp hd
      obtain ⟨ltB, parentB⟩ := inv.child s.current spec.exists_ b hb
      rw [if_neg (Nat.ne_of_lt ltB)] at next
      obtain ⟨ltD, parentD⟩ := inv.sibling b ltB d next
      rw [spec.newParent, spec.parent d (Nat.ne_of_lt ltD), parentD]
      exact ⟨Nat.lt_succ_of_lt ltD, parentB⟩
    · rw [spec.sibling c new] at hd
      obtain ⟨ltD, parent⟩ := inv.sibling c (by omega) d hd
      rw [spec.parent c new, spec.parent d (Nat.ne_of_lt ltD)]
      exact ⟨Nat.lt_succ_of_lt ltD, parent⟩
  awake := by
    intro p lt waiting c reaches
    rw [spec.ntasks] at lt
    have new : p ≠ s.ntasks := by
      rintro rfl
      rw [spec.newState] at waiting
      cases waiting
    have ltP : p < s.ntasks := by omega
    rw [spec.state p new] at waiting
    have cur : p ≠ s.current := by
      rintro rfl
      obtain ⟨qs, ringInv⟩ := inv.ring
      exact ringInv.current_runnable.2.2.2.1 waiting
    rw [spec.children p new, if_neg cur] at reaches
    have old : Reaches s c (s.tasks p).children := by
      apply reaches.old (fun d ltD e he => (inv.sibling d ltD e he).1)
      · exact fun d ltD => spec.sibling d (Nat.ne_of_lt ltD)
      · exact fun d hd => (inv.child p ltP d hd).1
    have notNew : c ≠ s.ntasks := by
      apply Nat.ne_of_lt
      apply old.lt fun d ltD e he => (inv.sibling d ltD e he).1
      exact fun d hd => (inv.child p ltP d hd).1
    rw [spec.state c notNew]
    exact inv.awake p ltP waiting c old

/-- Every event keeps the invariant. -/
theorem step {event : Event} (inv : Wakeable s) (h : Kernel.step event s = .ok s') :
    Wakeable s' := by
  obtain ⟨qs, ringInv⟩ := inv.ring
  have ring := ringInv.step h
  cases step_wakes h with
  | fork spec _ => exact inv.fork ring spec
  | @exitWake _ q parent _ _ re _ _ =>
    apply inv.restate ring re
    intro p lt waiting c reaches
    have notWoken : p ≠ q := by
      rintro rfl
      rw [Function.update_self] at waiting
      cases waiting
    rw [Function.update_of_ne notWoken] at waiting
    have notCurrent : p ≠ s.current := by
      rintro rfl
      rw [State.withState, Function.update_self] at waiting
      cases waiting
    rw [State.withState, Function.update_of_ne notCurrent] at waiting
    by_cases woken : c = q
    · rw [woken, Function.update_self]
      decide
    · rw [Function.update_of_ne woken, State.withState]
      -- the exiting task is on the list of the parent that was woken, and on no other
      have other : c ≠ s.current := by
        rintro rfl
        exact notWoken (Option.some.inj ((inv.listed lt reaches).symm.trans parent))
      rw [Function.update_of_ne other]
      exact inv.awake p lt waiting c reaches
  | @exitQuiet _ q parent quiet re _ _ =>
    apply inv.restate ring re
    intro p lt waiting c reaches
    have notCurrent : p ≠ s.current := by
      rintro rfl
      rw [State.withState, Function.update_self] at waiting
      cases waiting
    rw [State.withState, Function.update_of_ne notCurrent] at waiting
    have other : c ≠ s.current := by
      rintro rfl
      obtain rfl : p = q := Option.some.inj ((inv.listed lt reaches).symm.trans parent)
      exact quiet notCurrent waiting
    rw [State.withState, Function.update_of_ne other]
    exact inv.awake p lt waiting c reaches
  | sleep none re _ _ =>
    apply inv.restate ring re
    intro p lt waiting c reaches
    by_cases sleeper : c = s.current
    · rw [sleeper, State.withState, Function.update_self]
      decide
    · rw [State.withState, Function.update_of_ne sleeper]
      by_cases cur : p = s.current
      · exact findZombie_none none (cur ▸ reaches)
      · rw [State.withState, Function.update_of_ne cur] at waiting
        exact inv.awake p lt waiting c reaches
  | other re _ _ => exact inv.restate ring re inv.awake

/-- It holds at the start. -/
theorem start (stack : Nat) : Wakeable (startInit stack) where
  ring := ⟨[], RingInv.start stack⟩
  child := by
    intro t lt c hc
    obtain rfl := Nat.lt_one_iff.mp lt
    cases hc
  sibling := by
    intro c lt d hd
    obtain rfl := Nat.lt_one_iff.mp lt
    cases hd
  awake := by
    intro p lt waiting
    obtain rfl := Nat.lt_one_iff.mp lt
    cases waiting

/-- So it holds of every reachable state. -/
theorem reach {stack : Nat} {ok : Event → State → Prop}
    (reached : Reach Kernel.step ok (startInit stack) s) : Wakeable s :=
  reached.invariant Wakeable (start stack) fun _ _ _ inv _ taken => inv.step taken

end Wakeable

/-! ## No doubled wake-up -/

/-- A task in the state `x`, and not the terminal's reader. -/
structure Resting (s : State) (p : Nat) (x : TaskState) : Prop where
  lt : p < s.ntasks
  state : (s.tasks p).state = x
  reader : s.tty.waitingTask ≠ some p

variable {p : Nat} {x : TaskState} {event : Event} {events : List Event}

/-- Until it runs, a task keeps its state and is not linked into the ring; but a waiting one is, and
runs again, at the exit of a child of its. -/
theorem Resting.step (rest : Resting s p x) (ne : s.current ≠ p)
    (h : Kernel.step event s = .ok s') :
    (Resting s' p x ∧ s'.ringInserts.count p = s.ringInserts.count p ∧
      ∃ new, s'.exits = new ++ s.exits ∧
        (x = .waiting → ∀ e ∈ new, (s'.tasks e.1).parent ≠ some p)) ∨
    (x = .waiting ∧ Resting s' p .running ∧
      s'.ringInserts.count p = s.ringInserts.count p + 1 ∧
      ∃ status, s'.exits = (s.current, status) :: s.exits ∧
        (s'.tasks s.current).parent = some p) := by
  have here := rest.state
  cases step_wakes h with
  | fork spec inserts =>
    have old : p ≠ s.ntasks := Nat.ne_of_lt rest.lt
    refine .inl ⟨⟨?_, ?_, ?_⟩, ?_, [], spec.exits, by simp⟩
    · rw [spec.ntasks]
      exact Nat.lt_succ_of_lt rest.lt
    · rw [spec.state p old]
      exact here
    · rw [spec.tty]
      exact rest.reader
    · rw [inserts, List.count_cons_of_ne old.symm]
  | @exitWake status q parent _ waiting re inserts tty =>
    by_cases woken : q = p
    · subst woken
      refine .inr ⟨here.symm.trans waiting, ⟨re.ntasks ▸ rest.lt, ?_, tty ▸ rest.reader⟩, ?_,
        status, re.exits, (re.parent _).trans parent⟩
      · rw [re.state q, Function.update_self]
      · rw [inserts, List.count_cons_self]
    · refine .inl ⟨⟨re.ntasks ▸ rest.lt, ?_, tty ▸ rest.reader⟩, ?_, [(s.current, status)],
        re.exits, ?_⟩
      · rw [re.state p, Function.update_of_ne (Ne.symm woken), State.withState,
          Function.update_of_ne ne.symm]
        exact here
      · rw [inserts, List.count_cons_of_ne woken]
      · intro _ e he
        obtain rfl := List.mem_singleton.mp he
        rw [re.parent]
        exact fun same => woken (Option.some.inj (parent.symm.trans same))
  | @exitQuiet status q parent quiet re inserts tty =>
    refine .inl ⟨⟨re.ntasks ▸ rest.lt, ?_, tty ▸ rest.reader⟩, ?_, [(s.current, status)],
      re.exits, ?_⟩
    · rw [re.state p, State.withState, Function.update_of_ne ne.symm]
      exact here
    · rw [inserts]
    · intro waiting e he same
      obtain rfl := List.mem_singleton.mp he
      rw [re.parent] at same
      obtain rfl : q = p := Option.some.inj (parent.symm.trans same)
      exact quiet ne.symm (here.trans waiting)
  | sleep _ re inserts tty =>
    refine .inl ⟨⟨re.ntasks ▸ rest.lt, ?_, tty ▸ rest.reader⟩, ?_, [], re.exits, by simp⟩
    · rw [re.state p, State.withState, Function.update_of_ne ne.symm]
      exact here
    · rw [inserts]
  | other re inserts reader =>
    refine .inl ⟨⟨re.ntasks ▸ rest.lt, (re.state p).trans here, ?_⟩, ?_, [], re.exits, by simp⟩
    · intro hw
      rcases reader p hw with cur | old
      · exact ne cur.symm
      · exact rest.reader old
    · rcases inserts with same | ⟨w, hw, added⟩
      · rw [same]
      · have other : w ≠ p := by
          rintro rfl
          exact rest.reader hw
        rw [added, List.count_cons_of_ne other]

/-- A step changes no parent of a task that exists. -/
theorem step_parent {t : Nat} (h : step event s = .ok s') (lt : t < s.ntasks) :
    t < s'.ntasks ∧ (s'.tasks t).parent = (s.tasks t).parent := by
  rcases step_tree h with spec | ⟨c, _, _, reap⟩ | same
  · rw [spec.ntasks]
    exact ⟨Nat.lt_succ_of_lt lt, spec.parent t (Nat.ne_of_lt lt)⟩
  · rw [reap.tasks, reap.ntasks]
    exact ⟨lt, rfl⟩
  · rw [same.ntasks]
    exact ⟨lt, same.parent t⟩

/-- A task keeps its parent over every run. -/
theorem follow_parent {t : Nat} (run : follow step s events = .ok s') (lt : t < s.ntasks) :
    (s'.tasks t).parent = (s.tasks t).parent := by
  induction events generalizing s with
  | nil =>
    cases run
    rfl
  | cons event events ih =>
    unfold follow at run
    split at run
    · rename_i s₁ taken
      obtain ⟨lt₁, same⟩ := step_parent taken lt
      exact (ih run lt₁).trans same
    · cases run

/-- A task that is linked is not linked again until it has run. -/
theorem Resting.run (rest : Resting s p .running) (run : follow Kernel.step s events = .ok s')
    (before : Guarded Kernel.step (fun _ s => s.current ≠ p) s events) :
    Resting s' p .running ∧ s'.ringInserts.count p = s.ringInserts.count p ∧
      ∃ new, s'.exits = new ++ s.exits := by
  induction events generalizing s with
  | nil =>
    cases run
    exact ⟨rest, rfl, [], rfl⟩
  | cons event events ih =>
    unfold follow at run
    split at run
    · rename_i s₁ taken
      obtain ⟨ne, before⟩ := before s₁ taken
      rcases rest.step ne taken with ⟨rest₁, count₁, new₁, exits₁, _⟩ | ⟨waiting, _⟩
      · obtain ⟨rest', count', new', exits'⟩ := ih rest₁ run before
        refine ⟨rest', count'.trans count₁, new' ++ new₁, ?_⟩
        rw [exits', exits₁, List.append_assoc]
      · cases waiting
    · cases run

/-- A task that waits is linked once, if a child of its exits before it runs, and otherwise waits
on. -/
theorem Resting.wake (inv : Wakeable s) (rest : Resting s p .waiting)
    (run : follow Kernel.step s events = .ok s')
    (before : Guarded Kernel.step (fun _ s => s.current ≠ p) s events) :
    ∃ new, s'.exits = new ++ s.exits ∧
      (((∃ e ∈ new, (s'.tasks e.1).parent = some p) ∧ Resting s' p .running ∧
          s'.ringInserts.count p = s.ringInserts.count p + 1) ∨
        ((∀ e ∈ new, (s'.tasks e.1).parent ≠ some p) ∧ Resting s' p .waiting ∧
          s'.ringInserts.count p = s.ringInserts.count p)) := by
  induction events generalizing s with
  | nil =>
    cases run
    exact ⟨[], rfl, .inr ⟨by simp, rest, rfl⟩⟩
  | cons event events ih =>
    unfold follow at run
    split at run
    · rename_i s₁ taken
      obtain ⟨ne, before⟩ := before s₁ taken
      have inv₁ := inv.step taken
      obtain ⟨_, ring₁⟩ := inv₁.ring
      -- the parent of a task that has exited is the same in every later state
      have exited : ∀ e ∈ s₁.exits, (s'.tasks e.1).parent = (s₁.tasks e.1).parent :=
        fun e he => follow_parent run (ring₁.exited e he).1
      rcases rest.step ne taken with ⟨rest₁, count₁, new₁, exits₁, none⟩ |
        ⟨_, rest₁, count₁, status, exits₁, parent⟩
      · obtain ⟨new', exits', which⟩ := ih inv₁ rest₁ run before
        have quiet : ∀ e ∈ new₁, (s'.tasks e.1).parent ≠ some p := by
          intro e he
          rw [exited e (exits₁ ▸ List.mem_append_left _ he)]
          exact none rfl e he
        refine ⟨new' ++ new₁, by rw [exits', exits₁, List.append_assoc], ?_⟩
        rw [← count₁]
        rcases which with ⟨⟨e, he, parent⟩, rest'⟩ | ⟨none', rest'⟩
        · exact .inl ⟨⟨e, List.mem_append_left _ he, parent⟩, rest'⟩
        · refine .inr ⟨?_, rest'⟩
          intro e he
          rcases List.mem_append.mp he with he | he
          · exact none' e he
          · exact quiet e he
      · obtain ⟨rest', count', new', exits'⟩ := rest₁.run run before
        refine ⟨new' ++ [(s.current, status)], ?_, .inl ⟨⟨(s.current, status), ?_, ?_⟩, rest', ?_⟩⟩
        · rw [exits', exits₁, List.append_assoc, List.singleton_append]
        · simp
        · rw [exited (s.current, status) (exits₁ ▸ List.mem_cons_self)]
          exact parent
        · rw [count', count₁]
    · cases run

/-- How often a task stands on the ring: once if it runs, never while it waits. -/
theorem RingInv.count {qs : List Nat} (inv : RingInv s qs) :
    (Resting s p .running → (s.current :: qs).count p = 1) ∧
      (Resting s p .waiting → (s.current :: qs).count p = 0) := by
  constructor
  · intro rest
    have notFreed : p ∉ s.freed := by
      intro mem
      have zombie := (inv.freed p mem).2
      rw [rest.state] at zombie
      cases zombie
    have linked : p ∈ s.current :: qs := by
      rw [inv.runnable p]
      refine ⟨rest.lt, notFreed, ?_, ?_, rest.reader⟩
      · rw [rest.state]
        decide
      · rw [rest.state]
        decide
    exact List.count_eq_one_of_mem inv.ring.nodup linked
  · intro rest
    apply List.count_eq_zero_of_not_mem
    rw [inv.runnable p]
    exact fun run => run.2.2.2.1 rest.state

/-- **Wake-ups.** In every state that any sequence of calls reaches, a waiting task has no zombie on
its list. From there, over any calls taken before it runs again, it is linked into the ring exactly
once if a child of its exits among them, and not at all otherwise; and the ring has it once, or not. -/
theorem wakeups_exact (stack : Nat) (s : State)
    (reached : Reach step (fun _ _ => True) (startInit stack) s) :
    (∀ p < s.ntasks, (s.tasks p).state = .waiting → ∀ c, Reaches s c (s.tasks p).children →
      (s.tasks c).state ≠ .zombie) ∧
    ∀ p < s.ntasks, (s.tasks p).state = .waiting → ∀ events s',
      follow step s events = .ok s' → Guarded step (fun _ s => s.current ≠ p) s events →
      ∃ new qs, s'.exits = new ++ s.exits ∧ IsRing s'.nextOf s'.prevOf s'.current qs ∧
        ((∃ e ∈ new, (s'.tasks e.1).parent = some p) →
          s'.ringInserts.count p = s.ringInserts.count p + 1 ∧ (s'.current :: qs).count p = 1) ∧
        ((∀ e ∈ new, (s'.tasks e.1).parent ≠ some p) →
          s'.ringInserts.count p = s.ringInserts.count p ∧ (s'.current :: qs).count p = 0) := by
  have inv := Wakeable.reach reached
  refine ⟨inv.awake, ?_⟩
  intro p lt waiting events s' run before
  obtain ⟨_, ring⟩ := inv.ring
  have rest : Resting s p .waiting := by
    refine ⟨lt, waiting, ?_⟩
    exact fun reader => (ring.reader p reader).2.2 waiting
  obtain ⟨new, exits, which⟩ := rest.wake inv run before
  obtain ⟨qs, ring'⟩ := (Wakeable.reach (reached.of_follow (fun _ _ _ => trivial) run)).ring
  refine ⟨new, qs, exits, ring'.ring, ?_, ?_⟩
  · intro ⟨e, he, parent⟩
    rcases which with ⟨_, rest', count⟩ | ⟨none, _⟩
    · exact ⟨count, ring'.count.1 rest'⟩
    · exact absurd parent (none e he)
  · intro none
    rcases which with ⟨⟨e, he, parent⟩, _⟩ | ⟨_, rest', count⟩
    · exact absurd parent (none e he)
    · exact ⟨count, ring'.count.2 rest'⟩

/-- Init forks and waits, and the child exits: init is linked again, once. -/
theorem wakeups_exact_child : ∃ s s', follow step (startInit 0) [.fork 0, .wait] = .ok s ∧
    (s.tasks 0).state = .waiting ∧ follow step s [.exit 0] = .ok s' ∧
    s'.ringInserts.count 0 = s.ringInserts.count 0 + 1 := by
  obtain ⟨s, run, observed⟩ := follow_of_observed step (startInit 0) [.fork 0, .wait]
    (fun s => ((s.ntasks, s.current, (s.tasks 0).state), s.exits.map Prod.fst,
      (follow step s [.exit 0]).toOption.map fun s' =>
        (s'.exits.map Prod.fst, (s'.tasks 1).parent)))
    ((2, 1, .waiting), [], some ([1], some 0)) (by decide +kernel)
  simp only [Prod.mk.injEq] at observed
  obtain ⟨⟨ntasks, current, waiting⟩, exits, exited⟩ := observed
  cases child : follow step s [.exit 0] with
  | error e =>
    rw [child] at exited
    cases exited
  | ok s' =>
    rw [child] at exited
    obtain ⟨exits', parent⟩ := Prod.mk.inj (Option.some.inj exited)
    obtain ⟨_, once⟩ := wakeups_exact 0 s
      (Reach.start.of_follow (fun _ _ _ => trivial) run)
    have before : Guarded step (fun _ s => s.current ≠ 0) s [.exit 0] := by
      intro s₁ _
      refine ⟨?_, trivial⟩
      show s.current ≠ 0
      rw [current]
      decide
    obtain ⟨new, qs, split, _, woken, _⟩ := once 0 (by omega) waiting [.exit 0] s' child before
    rw [List.map_eq_nil_iff] at exits
    rw [exits, List.append_nil] at split
    rw [split] at exits'
    obtain ⟨e, he, task⟩ : ∃ e ∈ new, e.1 = 1 := by
      rw [← List.mem_map, exits']
      exact List.mem_cons_self
    exact ⟨s, s', run, waiting, child, (woken ⟨e, he, task ▸ parent⟩).1⟩

end Blackcomb.Kernel
