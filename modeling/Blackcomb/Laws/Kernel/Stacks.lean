import Blackcomb.Laws.Kernel.RunRing

/-!
# Kernel stacks

A timer interrupt starts at `__tss.rsp0`, and a preemption stores where it has come to as the task's
`sp`. `switch_to` installs that `sp` as the next `rsp0` of the task, not the top of its stack, so each
preemption begins `k` bytes below the one before: the frames that resuming has popped are never given
back. `along_iff_room` says for every run of timer interrupts exactly how far that goes: the stacks
hold as long as every task has room for `k` bytes per preemption it has taken.

A slice is eleven interrupts, because the tick is compared before it is counted.

**What it does not establish.** How many bytes a preemption takes is a parameter, what the frame and
the C code below it need. Stacks are followed through timer interrupts only; a system call begins at
the stack's top again.
-/

namespace Blackcomb.Kernel

open State Ring Run

/-- The interrupts between two preemptions. -/
def sliceTicks : Nat := preemptTickCount + 1

/-- The saved stack pointers of the tasks, and the `rsp0` of the running one, lie in their kernel
stacks. -/
structure StacksInside (ts : List Nat) (s : State) : Prop where
  sp : ∀ t ∈ ts, (s.tasks t).stackBottom ≤ (s.tasks t).sp ∧ (s.tasks t).sp ≤ (s.tasks t).stackTop
  rsp0 : (s.tasks s.current).stackBottom ≤ s.tssRsp0 ∧ s.tssRsp0 ≤ (s.tasks s.current).stackTop

/-- A state in which two or more tasks take turns: `current` and then `qs`, each started by `switch_to`
with a fresh slice. No stack is so low in the address space that `k` bytes below it would wrap. -/
structure Turning (k : Nat) (s : State) (qs : List Nat) : Prop where
  ring : IsRing s.nextOf s.prevOf s.current qs
  several : qs ≠ []
  made : ∀ t ∈ s.current :: qs, t < s.ntasks
  pids : (s.current :: qs).Pairwise fun t u => (s.tasks t).pid ≠ (s.tasks u).pid
  ticks : (s.tasks s.current).aliveTicks ≤ preemptTickCount
  rested : ∀ t ∈ qs, (s.tasks t).aliveTicks = 0
  installed : s.tssRsp0 = (s.tasks s.current).sp
  below : ∀ t ∈ s.current :: qs, (s.tasks t).sp ≤ (s.tasks t).stackTop
  low : ∀ t ∈ s.current :: qs, k ≤ (s.tasks t).stackBottom

/-- How often the task at place `i` of a ring with `n` others is preempted in the first `slices`
preemptions. -/
def preemptions (slices n i : Nat) : Nat := (slices + (n - i)) / (n + 1)

/-- Every task of the ring has room below its `sp` for the preemptions it takes in `n` interrupts. -/
def Room (k : Nat) (s : State) (qs : List Nat) (n : Nat) : Prop :=
  ∀ i t, (s.current :: qs)[i]? = some t →
    (s.tasks t).stackBottom +
      k * preemptions ((n + (s.tasks s.current).aliveTicks) / sliceTicks) qs.length i ≤
        (s.tasks t).sp

variable {k : Nat} {s s' : State} {qs : List Nat}

/-! ## One interrupt -/

/-- A tick within the slice is counted. -/
theorem schedMaybePreempt_early (early : (s.tasks s.current).aliveTicks < preemptTickCount) :
    ∃ s', schedMaybePreempt s = .ok s' ∧ s'.current = s.current ∧ s'.tssRsp0 = s.tssRsp0 ∧
      s'.ntasks = s.ntasks ∧ ∀ t, s'.tasks t =
        if t = s.current then { s.tasks t with aliveTicks := (s.tasks t).aliveTicks + 1 }
        else s.tasks t := by
  refine ⟨_, if_pos early, rfl, rfl, rfl, ?_⟩
  intro t
  by_cases e : t = s.current <;> simp [e]

/-- `switch_to` between two processes. -/
theorem switchTo_spec {t : Nat} (pid : (s.tasks s.current).pid ≠ (s.tasks t).pid) :
    ∃ s', switchTo s t = .ok s' ∧ s'.current = t ∧ s'.tssRsp0 = (s.tasks t).sp ∧
      s'.ntasks = s.ntasks ∧
      ∀ u, s'.tasks u = if u = s.current then { s.tasks u with sp := s.rsp } else s.tasks u := by
  refine ⟨_, if_neg pid, rfl, rfl, rfl, ?_⟩
  intro u
  by_cases e : u = s.current <;> simp [e]

/-- The tick that ends the slice stores the stack pointer in the task and goes on with the next task
at its own. -/
theorem schedMaybePreempt_late {q : Nat}
    (late : ¬ (s.tasks s.current).aliveTicks < preemptTickCount)
    (next : (s.tasks s.current).next = some q) (made : q < s.ntasks)
    (pid : (s.tasks s.current).pid ≠ (s.tasks q).pid) :
    ∃ s', schedMaybePreempt s = .ok s' ∧ s'.current = q ∧ s'.tssRsp0 = (s.tasks q).sp ∧
      s'.ntasks = s.ntasks ∧ ∀ t, s'.tasks t =
        if t = s.current then { s.tasks t with aliveTicks := 0, sp := s.rsp } else s.tasks t := by
  have ne : q ≠ s.current := by
    rintro rfl
    exact pid rfl
  have found : s.deref (some q) = .ok q := deref_eq_ok.mpr ⟨rfl, made⟩
  unfold schedMaybePreempt schedule
  simp only [late, if_false, modifyTask_current, modifyTask_tasks, if_true, next,
    Option.some.injEq, ne, deref_modifyTask]
  obtain ⟨s', switched, current, rsp0, ntasks, tasks⟩ := switchTo_spec
    (s := (s.modifyTask s.current
      fun x => { x with aliveTicks := (s.tasks s.current).aliveTicks + 1 }).modifyTask s.current
        fun x => { x with aliveTicks := 0 }) (t := q) (by simpa [ne] using pid)
  refine ⟨s', bind_eq_ok.mpr ⟨q, found, switched⟩, current, ?_, ntasks, ?_⟩
  · simpa [ne] using rsp0
  · intro t
    rw [tasks t]
    by_cases e : t = s.current
    · simp [e, State.modifyTask]
    · simp [e]

/-- A task alone on the ring goes on with a new slice. -/
theorem schedMaybePreempt_alone (late : ¬ (s.tasks s.current).aliveTicks < preemptTickCount)
    (next : (s.tasks s.current).next = some s.current) :
    ∃ s', schedMaybePreempt s = .ok s' ∧ s'.current = s.current ∧ s'.ntasks = s.ntasks ∧
      ∀ t, s'.tasks t = if t = s.current then { s.tasks t with aliveTicks := 0 } else s.tasks t := by
  unfold schedMaybePreempt schedule
  simp only [late, if_false, modifyTask_current, modifyTask_tasks, if_true, next]
  refine ⟨_, rfl, rfl, rfl, fun t => ?_⟩
  by_cases e : t = s.current <;> simp [e]

/-- The interrupt that ends the slice stores `rsp0 - k` as the task's `sp`. -/
theorem timerInterrupt_late {q : Nat} {rest : List Nat} (turning : Turning k s (q :: rest))
    (late : (s.tasks s.current).aliveTicks = preemptTickCount) :
    ∃ s', timerInterrupt k s = .ok s' ∧ s'.current = q ∧ s'.tssRsp0 = (s.tasks q).sp ∧
      s'.ntasks = s.ntasks ∧ ∀ t, s'.tasks t =
        if t = s.current then { s.tasks t with aliveTicks := 0, sp := s.tssRsp0 - k }
        else s.tasks t := by
  have pid : (s.tasks s.current).pid ≠ (s.tasks q).pid :=
    List.rel_of_pairwise_cons turning.pids List.mem_cons_self
  exact schedMaybePreempt_late (s := { s with rsp := s.tssRsp0 - k })
    (fun early => Nat.ne_of_lt early late) turning.ring.next_head (turning.made q (by simp)) pid

/-- Tasks that go on taking turns: the ring turned or not, and the records as they were but for the
ticks and the stack pointers. -/
theorem Turning.keep {qs' : List Nat} (turning : Turning k s qs)
    (same : ∀ t, s'.tasks t = { s.tasks t with
      aliveTicks := (s'.tasks t).aliveTicks, sp := (s'.tasks t).sp })
    (ntasks : s'.ntasks = s.ntasks) (ring : IsRing s.nextOf s.prevOf s'.current qs')
    (perm : (s'.current :: qs').Perm (s.current :: qs)) (several : qs' ≠ [])
    (ticks : (s'.tasks s'.current).aliveTicks ≤ preemptTickCount)
    (rested : ∀ t ∈ qs', (s'.tasks t).aliveTicks = 0)
    (installed : s'.tssRsp0 = (s'.tasks s'.current).sp)
    (below : ∀ t, (s'.tasks t).sp ≤ (s.tasks t).sp) : Turning k s' qs' where
  ring := by
    refine ring.congr (fun t _ => ?_) (fun t _ => ?_)
    · rw [State.nextOf, same t, State.nextOf]
    · rw [State.prevOf, same t, State.prevOf]
  several := several
  made := by
    intro t ht
    rw [ntasks]
    exact turning.made t (perm.mem_iff.mp ht)
  pids := by
    have pids : (s.current :: qs).Pairwise fun t u => (s'.tasks t).pid ≠ (s'.tasks u).pid := by
      refine turning.pids.imp ?_
      intro t u ne
      rwa [same t, same u]
    exact pids.perm perm.symm Ne.symm
  ticks := ticks
  rested := rested
  installed := installed
  below := by
    intro t ht
    have top : (s'.tasks t).stackTop = (s.tasks t).stackTop := by rw [same t]
    rw [top]
    exact (below t).trans (turning.below t (perm.mem_iff.mp ht))
  low := by
    intro t ht
    have bottom : (s'.tasks t).stackBottom = (s.tasks t).stackBottom := by rw [same t]
    rw [bottom]
    exact turning.low t (perm.mem_iff.mp ht)

theorem preemptions_head (slices n : Nat) :
    preemptions (slices + 1) n 0 = preemptions slices n n + 1 := by
  have regroup : slices + 1 + (n - 0) = slices + (n - n) + (n + 1) := by omega
  unfold preemptions
  rw [regroup, Nat.add_div_right _ (Nat.succ_pos n)]

theorem preemptions_tail {n i : Nat} (slices : Nat) (lt : i < n) :
    preemptions (slices + 1) n (i + 1) = preemptions slices n i := by
  unfold preemptions
  congr 1
  omega

theorem preemptions_zero (n i : Nat) : preemptions 0 n i = 0 := by
  unfold preemptions
  apply Nat.div_eq_of_lt
  omega

/-- Without an interrupt the room needed is the stack itself. -/
theorem Turning.room_zero (turning : Turning k s qs) :
    Room k s qs 0 ↔ StacksInside (s.current :: qs) s := by
  have slices : (0 + (s.tasks s.current).aliveTicks) / sliceTicks = 0 := by
    apply Nat.div_eq_of_lt
    have := turning.ticks
    unfold sliceTicks
    omega
  unfold Room
  rw [slices]
  simp only [preemptions_zero, Nat.mul_zero, Nat.add_zero]
  constructor
  · intro room
    have inside : ∀ t ∈ s.current :: qs, (s.tasks t).stackBottom ≤ (s.tasks t).sp := by
      intro t ht
      obtain ⟨i, hi⟩ := List.mem_iff_getElem?.mp ht
      exact room i t hi
    refine ⟨fun t ht => ⟨inside t ht, turning.below t ht⟩, ?_⟩
    rw [turning.installed]
    exact ⟨inside _ List.mem_cons_self, turning.below _ List.mem_cons_self⟩
  · intro inside i t hi
    exact (inside.sp t (List.mem_of_getElem? hi)).1

/-- More interrupts need more room. -/
theorem Room.mono {m n : Nat} (room : Room k s qs n) (le : m ≤ n) : Room k s qs m := by
  intro i t hi
  refine le_trans ?_ (room i t hi)
  have slices : (m + (s.tasks s.current).aliveTicks) / sliceTicks ≤
      (n + (s.tasks s.current).aliveTicks) / sliceTicks :=
    Nat.div_le_div_right (Nat.add_le_add_right le _)
  apply Nat.add_le_add_left
  apply Nat.mul_le_mul_left
  exact Nat.div_le_div_right (Nat.add_le_add_right slices _)

/-- The preempted task goes to the end of the ring with `k` bytes less, the others move up. -/
theorem Turning.room_late {q n : Nat} {rest : List Nat} (turning : Turning k s (q :: rest))
    (late : (s.tasks s.current).aliveTicks = preemptTickCount) (current : s'.current = q)
    (tasks : ∀ t, s'.tasks t = if t = s.current
      then { s.tasks t with aliveTicks := 0, sp := s.tssRsp0 - k } else s.tasks t) :
    Room k s' (rest ++ [s.current]) n ↔ Room k s (q :: rest) (n + 1) := by
  have unique := List.nodup_cons.mp turning.ring.nodup
  have ne : q ≠ s.current := fun e => unique.1 (e ▸ List.mem_cons_self)
  have slices : (n + 1 + (s.tasks s.current).aliveTicks) / sliceTicks = n / sliceTicks + 1 := by
    have regroup : n + 1 + (s.tasks s.current).aliveTicks = n + sliceTicks := by
      rw [late, sliceTicks]
      omega
    rw [regroup, Nat.add_div_right n (show 0 < sliceTicks by decide)]
  have rested : (s'.tasks s'.current).aliveTicks = 0 := by
    rw [current, tasks q, if_neg ne]
    exact turning.rested q List.mem_cons_self
  have length : (rest ++ [s.current]).length = (q :: rest).length := by simp
  have sunk : (s'.tasks s.current).sp = (s.tasks s.current).sp - k := by
    rw [tasks, if_pos rfl, turning.installed]
  have bottom : (s'.tasks s.current).stackBottom = (s.tasks s.current).stackBottom := by
    rw [tasks, if_pos rfl]
  have low := turning.low s.current List.mem_cons_self
  unfold Room
  rw [slices, rested, length, current, Nat.add_zero]
  constructor
  · intro room i t hi
    cases i with
    | zero =>
      obtain rfl : s.current = t := Option.some.inj hi
      have last := room (q :: rest).length s.current (by simp)
      rw [sunk, bottom] at last
      rw [preemptions_head, Nat.mul_add, Nat.mul_one]
      omega
    | succ i =>
      have hi : (q :: rest)[i]? = some t := hi
      have lt : i < (q :: rest).length := (List.getElem?_eq_some_iff.mp hi).1
      have other : t ≠ s.current := fun e => unique.1 (e ▸ List.mem_of_getElem? hi)
      have here := room i t (by rw [← List.cons_append, List.getElem?_append_left lt, hi])
      rw [tasks t, if_neg other] at here
      rw [preemptions_tail _ lt]
      exact here
  · intro room i t hi
    by_cases lt : i < (q :: rest).length
    · rw [← List.cons_append, List.getElem?_append_left lt] at hi
      have other : t ≠ s.current := fun e => unique.1 (e ▸ List.mem_of_getElem? hi)
      have here := room (i + 1) t hi
      rw [preemptions_tail _ lt] at here
      rw [tasks t, if_neg other]
      exact here
    · have last : i = (q :: rest).length := by
        have := (List.getElem?_eq_some_iff.mp hi).1
        simp at this lt ⊢
        omega
      subst last
      rw [← List.cons_append, List.getElem?_concat_length] at hi
      obtain rfl := Option.some.inj hi
      have here := room 0 s.current rfl
      rw [preemptions_head, Nat.mul_add, Nat.mul_one] at here
      rw [sunk, bottom]
      omega

/-- An interrupt before the task's time is up. -/
theorem Turning.turn_early (turning : Turning k s qs)
    (early : (s.tasks s.current).aliveTicks < preemptTickCount) :
    ∃ s', timerInterrupt k s = .ok s' ∧ Turning k s' qs ∧ s'.current = s.current ∧
      ∀ n, Room k s' qs n ↔ Room k s qs (n + 1) := by
  have unique := List.nodup_cons.mp turning.ring.nodup
  obtain ⟨s', taken, current, rsp0, ntasks, tasks⟩ := schedMaybePreempt_early (s := { s with rsp := s.tssRsp0 - k }) early
  have sp : ∀ t, (s'.tasks t).sp = (s.tasks t).sp := by
    intro t
    rw [tasks t]
    split <;> rfl
  have counted : (s'.tasks s.current).aliveTicks = (s.tasks s.current).aliveTicks + 1 := by
    rw [tasks, if_pos rfl]
  refine ⟨s', taken, ?_, current, ?_⟩
  · apply turning.keep
    · intro t
      rw [tasks t]
      split <;> rfl
    · exact ntasks
    · rw [current]
      exact turning.ring
    · rw [current]
    · exact turning.several
    · rw [current, counted]
      exact early
    · intro t ht
      have other : t ≠ s.current := fun e => unique.1 (e ▸ ht)
      rw [tasks t, if_neg other]
      exact turning.rested t ht
    · rw [rsp0, current, sp]
      exact turning.installed
    · exact fun t => Nat.le_of_eq (sp t)
  · intro n
    have bottom : ∀ t, (s'.tasks t).stackBottom = (s.tasks t).stackBottom := by
      intro t
      rw [tasks t]
      split <;> rfl
    have regroup : n + ((s.tasks s.current).aliveTicks + 1) =
        n + 1 + (s.tasks s.current).aliveTicks := by omega
    unfold Room
    simp only [current, sp, bottom, counted, regroup]

/-- The interrupt that ends a task's time: the next task's turn. -/
theorem Turning.turn_late {q : Nat} {rest : List Nat} (turning : Turning k s (q :: rest))
    (late : (s.tasks s.current).aliveTicks = preemptTickCount) :
    ∃ s', timerInterrupt k s = .ok s' ∧ Turning k s' (rest ++ [s.current]) ∧
      (s'.current :: (rest ++ [s.current])).Perm (s.current :: q :: rest) ∧
      ∀ n, Room k s' (rest ++ [s.current]) n ↔ Room k s (q :: rest) (n + 1) := by
  have unique := List.nodup_cons.mp turning.ring.nodup
  obtain ⟨s', taken, current, rsp0, ntasks, tasks⟩ := timerInterrupt_late turning late
  have ne : q ≠ s.current := fun e => unique.1 (e ▸ List.mem_cons_self)
  have turned : (s'.current :: (rest ++ [s.current])).Perm (s.current :: q :: rest) := by
    rw [current, ← List.cons_append]
    exact List.perm_append_singleton _ _
  refine ⟨s', taken, ?_, turned, fun n => turning.room_late late current tasks⟩
  apply turning.keep
  · intro t
    rw [tasks t]
    split <;> rfl
  · exact ntasks
  · rw [current]
    exact turning.ring.rotate
  · exact turned
  · simp
  · rw [current, tasks q, if_neg ne, turning.rested q List.mem_cons_self]
    exact Nat.zero_le _
  · intro t ht
    rw [tasks t]
    split
    · rfl
    · rename_i other
      have mem : t ∈ rest := by simpa [other] using ht
      exact turning.rested t (List.mem_cons_of_mem q mem)
  · rw [rsp0, current, tasks q, if_neg ne]
  · intro t
    rw [tasks t]
    split
    · rename_i e
      rw [e, turning.installed]
      exact Nat.sub_le _ _
    · exact Nat.le_refl _

/-- One interrupt: the tasks go on taking turns, and what room the rest of the run needs is what the
whole run needed. -/
theorem Turning.turn (turning : Turning k s qs) :
    ∃ s' qs', timerInterrupt k s = .ok s' ∧ Turning k s' qs' ∧
      (s'.current :: qs').Perm (s.current :: qs) ∧
      ∀ n, Room k s' qs' n ↔ Room k s qs (n + 1) := by
  rcases Nat.lt_or_eq_of_le turning.ticks with early | late
  · obtain ⟨s', taken, turning', current, room⟩ := turning.turn_early early
    exact ⟨s', qs, taken, turning', current ▸ .refl _, room⟩
  · obtain ⟨q, rest, rfl⟩ := List.exists_cons_of_ne_nil turning.several
    obtain ⟨s', taken, turning', turned, room⟩ := turning.turn_late late
    exact ⟨s', rest ++ [s.current], taken, turning', turned, room⟩

/-! ## Every run -/

/-- A task list that is a ring's, from any of its tasks. -/
theorem StacksInside.perm {ts us : List Nat} (inside : StacksInside ts s) (perm : ts.Perm us) :
    StacksInside us s :=
  ⟨fun t ht => inside.sp t (perm.mem_iff.mpr ht), inside.rsp0⟩

/-- The stacks hold along a run of interrupts exactly when there is room for its preemptions. -/
theorem Turning.along_iff_room {ts : List Nat} {n : Nat} (turning : Turning k s qs)
    (perm : ts.Perm (s.current :: qs)) :
    Along (fun _ : Unit => timerInterrupt k) (StacksInside ts) s (List.replicate n ()) ↔
      Room k s qs n := by
  induction n generalizing s qs with
  | zero =>
    rw [turning.room_zero]
    exact ⟨fun inside => inside.perm perm, fun inside => inside.perm perm.symm⟩
  | succ n ih =>
    rw [List.replicate_succ]
    obtain ⟨s', qs', taken, turning', turned, room⟩ := turning.turn
    constructor
    · intro along
      rw [← room n, ← ih turning' (perm.trans turned.symm)]
      exact along.2 s' taken
    · intro enough
      -- the state in front asks for no more than the run behind it
      refine ⟨(turning.room_zero.mp (enough.mono (Nat.zero_le _))).perm perm.symm, ?_⟩
      intro s₁ taken₁
      obtain rfl : s' = s₁ := Except.ok.inj (taken.symm.trans taken₁)
      rw [ih turning' (perm.trans turned.symm), room n]
      exact enough

/-- For every size of frame there is a run that leaves no room. -/
theorem room_exhausted (s : State) (qs : List Nat) (pos : 0 < k) : ∃ n, ¬ Room k s qs n := by
  refine ⟨sliceTicks * ((qs.length + 1) * ((s.tasks s.current).sp + 1)), ?_⟩
  intro room
  have here := room 0 s.current rfl
  have slices : (qs.length + 1) * ((s.tasks s.current).sp + 1) ≤
      (sliceTicks * ((qs.length + 1) * ((s.tasks s.current).sp + 1)) +
        (s.tasks s.current).aliveTicks) / sliceTicks := by
    rw [Nat.le_div_iff_mul_le (by decide), Nat.mul_comm]
    exact Nat.le_add_right _ _
  have taken : (s.tasks s.current).sp + 1 ≤ preemptions
      ((sliceTicks * ((qs.length + 1) * ((s.tasks s.current).sp + 1)) +
        (s.tasks s.current).aliveTicks) / sliceTicks) qs.length 0 := by
    unfold preemptions
    rw [Nat.le_div_iff_mul_le (Nat.succ_pos _), Nat.mul_comm]
    exact slices.trans (Nat.le_add_right _ _)
  have bytes := Nat.mul_le_mul pos taken
  omega

/-- **Kernel stacks.** Whatever `k` bytes an interrupt takes, along a run of `n` timer interrupts among
two or more tasks the saved stack pointers and the installed `rsp0` stay in their stacks exactly when
every task has room for the preemptions it takes in the run; and for every `k` there is a run for which
it has not. -/
theorem stacksInside_iff (k : Nat) (s : State) (qs : List Nat) (turning : Turning k s qs)
    (pos : 0 < k) :
    (∀ n, Along (fun _ : Unit => timerInterrupt k) (StacksInside (s.current :: qs)) s
      (List.replicate n ()) ↔ Room k s qs n) ∧
    ∃ n, ¬ Along (fun _ : Unit => timerInterrupt k) (StacksInside (s.current :: qs)) s
      (List.replicate n ()) := by
  refine ⟨fun n => turning.along_iff_room (.refl _), ?_⟩
  obtain ⟨n, full⟩ := room_exhausted s qs pos
  exact ⟨n, fun along => full ((turning.along_iff_room (.refl _)).mp along)⟩

/-- Init and the child it has forked, with their kernel stacks in the kernel heap. -/
def twoTasks : State :=
  ((follow step (startInit 0xFFFFC90000001000) [.fork 0xFFFFC90000004000]).toOption).getD
    (startInit 0xFFFFC90000001000)

theorem twoTasks_turning : Turning 256 twoTasks [1] where
  ring := by
    refine ⟨?_, by decide⟩
    simp only [List.cons_append, List.nil_append, List.isChain_cons_cons, List.isChain_singleton,
      Ring.Link, and_true]
    refine ⟨⟨rfl, rfl⟩, rfl, rfl⟩
  several := by simp
  made := by decide
  pids := by decide
  ticks := by decide
  rested := by decide
  installed := rfl
  below := by decide
  low := by decide

/-- With frames of 256 bytes the first 31 preemptions of either task are within its stack. -/
theorem stacksInside_iff_forked : Along (fun _ : Unit => timerInterrupt 256) (StacksInside [0, 1])
    twoTasks (List.replicate 692 ()) ↔ Room 256 twoTasks [1] 692 :=
  (stacksInside_iff 256 twoTasks [1] twoTasks_turning (by decide)).1 692

/-- The 32nd preemption of init, 693 interrupts after the fork, stores a stack pointer below the
stack. -/
theorem stacksInside_fails : follow step (startInit 0xFFFFC90000001000) [.fork 0xFFFFC90000004000] =
      .ok twoTasks ∧
    ¬ Along (fun _ : Unit => timerInterrupt 256) (StacksInside [0, 1]) twoTasks
      (List.replicate 693 ()) := by
  refine ⟨rfl, fun along => ?_⟩
  have room : Room 256 twoTasks [1] 693 := (twoTasks_turning.along_iff_room (.refl _)).mp along
  exact absurd (room 0 0 rfl) (by decide)

end Blackcomb.Kernel
