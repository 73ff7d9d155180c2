import Mathlib.Data.Nat.Periodic
import Blackcomb.Laws.Kernel.Stacks

/-!
# Taking turns

The tick of `sched_maybe_preempt` is compared before it is counted, so a task runs for eleven
interrupts, and leaving the processor sets its count back. Only the running task has ticks, in every
reachable state (`Rested`), so a window of interrupts may start anywhere in a slice: after `i` of
them, with `a` ticks counted before, the task at place `(a + i) / 11` of the ring runs
(`Window`). From that the shares are counted (`roundRobin_fair`).

A task that blocks switches to the next task of the ring whatever that is, itself included
(`blocking_iff`).

**What it does not establish.** Time is counted in timer interrupts. A window has nothing but ticks
in it: what a task does with its turn, and tasks that block in between, are in `RunRing`.
-/

namespace Blackcomb.Kernel

open State Ring Run

variable {s s' s'' : State} {qs : List Nat}

/-! ## Only the running task has ticks -/

/-- Nobody has been given the processor, and no tick was counted or taken back. -/
structure SameTicks (s s' : State) : Prop where
  current : s'.current = s.current
  ticks : ∀ t, (s'.tasks t).aliveTicks = (s.tasks t).aliveTicks

theorem SameTicks.trans (h : SameTicks s s') (k : SameTicks s' s'') : SameTicks s s'' where
  current := k.current.trans h.current
  ticks := fun t => (k.ticks t).trans (h.ticks t)

/-- Another field of a task is not its ticks. -/
theorem sameTicks_modifyTask (s : State) (t : Nat) {f : Task → Task}
    (own : ∀ x : Task, (f x).aliveTicks = x.aliveTicks) : SameTicks s (s.modifyTask t f) := by
  refine ⟨rfl, fun x => ?_⟩
  rw [modifyTask_tasks]
  split
  · rename_i e
    rw [e]
    exact own _
  · rfl

theorem sameTicks_recorded (s : State) (inserts : List Nat) :
    SameTicks s { s with ringInserts := inserts } :=
  ⟨rfl, fun _ => rfl⟩

/-- Inserting a task counts no tick. -/
theorem schedRrInsertProc_sameTicks {t : Nat} (h : schedRrInsertProc s t = .ok s') :
    SameTicks s s' := by
  unfold schedRrInsertProc at h
  simp only at h
  obtain ⟨n, _, h⟩ := bind_eq_ok.mp h
  cases h
  refine (sameTicks_modifyTask _ _ ?_).trans <| (sameTicks_modifyTask _ _ ?_).trans <|
    (sameTicks_modifyTask _ _ ?_).trans <| (sameTicks_modifyTask _ _ ?_).trans <|
    sameTicks_recorded _ _
  all_goals exact fun _ => rfl

/-- Removing a task counts no tick. -/
theorem schedRrRemoveProc_sameTicks {t : Nat} (h : schedRrRemoveProc s t = .ok s') :
    SameTicks s s' := by
  unfold schedRrRemoveProc at h
  simp only at h
  obtain ⟨p, _, h⟩ := bind_eq_ok.mp h
  obtain ⟨n, _, h⟩ := bind_eq_ok.mp h
  cases h
  refine (sameTicks_modifyTask _ _ ?_).trans <| (sameTicks_modifyTask _ _ ?_).trans <|
    (sameTicks_modifyTask _ _ ?_).trans (sameTicks_modifyTask _ _ ?_)
  all_goals exact fun _ => rfl

/-- Every task but `current` has no ticks, and `current` not more than a slice has. -/
structure Rested (s : State) : Prop where
  others : ∀ t, t ≠ s.current → (s.tasks t).aliveTicks = 0
  current : (s.tasks s.current).aliveTicks ≤ preemptTickCount

/-- Who rests still rests after a step that counts no tick. -/
theorem Rested.keep (rested : Rested s) (same : SameTicks s s') : Rested s' := by
  constructor
  · intro t ne
    rw [same.ticks]
    exact rested.others t (same.current ▸ ne)
  · rw [same.ticks, same.current]
    exact rested.current

/-- Nobody has ticks: `current` gives up the rest of its slice. -/
theorem Rested.clear (rested : Rested s) (t : Nat) :
    ((s.modifyTask s.current fun x => { x with aliveTicks := 0 }).tasks t).aliveTicks = 0 := by
  rw [modifyTask_tasks]
  split
  · rfl
  · rename_i other
    exact rested.others t other

theorem rested_of_zero (zero : ∀ t, (s.tasks t).aliveTicks = 0) : Rested s :=
  ⟨fun t _ => zero t, (zero _).trans_le (Nat.zero_le _)⟩

/-- Only the task switched to may have ticks. -/
theorem switchTo_rested {t : Nat} (zero : ∀ t, (s.tasks t).aliveTicks = 0)
    (h : switchTo s t = .ok s') : Rested s' := by
  unfold switchTo at h
  simp only at h
  split at h
  · cases h
  · cases h
    apply rested_of_zero
    intro x
    simp only [modifyTask_tasks]
    split
    · exact zero _
    · exact zero x

/-- `schedule` clears the ticks of the task it leaves. -/
theorem schedule_rested (rested : Rested s) (h : schedule s = .ok s') : Rested s' := by
  have zero := rested.clear
  unfold schedule at h
  simp only at h
  split at h
  · cases h
    exact rested_of_zero zero
  · obtain ⟨_, _, h⟩ := bind_eq_ok.mp h
    exact switchTo_rested zero h

/-- So does `schedule_sleep`. -/
theorem scheduleSleep_rested (rested : Rested s) (h : scheduleSleep s = .ok s') : Rested s' := by
  unfold scheduleSleep at h
  obtain ⟨s₁, removed, h⟩ := bind_eq_ok.mp h
  obtain ⟨_, _, h⟩ := bind_eq_ok.mp h
  refine switchTo_rested (fun t => ?_) h
  rw [(schedRrRemoveProc_sameTicks removed).ticks]
  exact rested.clear t

/-- A tick is the current task's. -/
theorem schedMaybePreempt_rested (rested : Rested s) (h : schedMaybePreempt s = .ok s') :
    Rested s' := by
  unfold schedMaybePreempt at h
  simp only at h
  split at h
  · rename_i early
    cases h
    constructor
    · intro t ne
      rw [modifyTask_current] at ne
      rw [modifyTask_tasks, if_neg ne]
      exact rested.others t ne
    · simpa using early
  · -- the count that has just gone over the slice is taken back before the next task runs
    unfold schedule at h
    have zero : ∀ t, (((s.modifyTask s.current fun x =>
        { x with aliveTicks := (s.tasks s.current).aliveTicks + 1 }).modifyTask s.current
          fun x => { x with aliveTicks := 0 }).tasks t).aliveTicks = 0 := by
      intro t
      by_cases e : t = s.current
      · simp [e]
      · simpa [e] using rested.others t e
    simp only at h
    split at h
    · cases h
      exact rested_of_zero zero
    · obtain ⟨_, _, h⟩ := bind_eq_ok.mp h
      exact switchTo_rested zero h

/-- A child starts without ticks. -/
theorem schedFork_rested {stack : Nat} (rested : Rested s)
    (h : schedFork s s.current stack = .ok s') : Rested s' := by
  obtain ⟨lt, s₁, s₂, forked, inserted, linked⟩ := schedFork_inv h
  obtain ⟨_, others, made, rest⟩ := doFork_spec lt forked
  obtain ⟨_, _, treeRest, tree⟩ := treeInsertProc_spec linked
  have ticks : ∀ t, (s₁.tasks t).aliveTicks =
      if t = s.ntasks then 0 else (s.tasks t).aliveTicks := by
    intro t
    split
    · rename_i new
      rw [new, made]
    · rename_i old
      rw [others t old]
  have current : s₁.current = s.current := by rw [rest]
  have forked : Rested s₁ := by
    constructor
    · intro t ne
      rw [ticks]
      split
      · rfl
      · exact rested.others t (current ▸ ne)
    · rw [current, ticks, if_neg (Nat.ne_of_lt lt)]
      exact rested.current
  have linked : SameTicks s₂ s' := by
    constructor
    · rw [treeRest]
    · intro t
      rw [tree]
  exact (forked.keep (schedRrInsertProc_sameTicks inserted)).keep linked

/-- After every event only the current task has ticks. -/
theorem Rested.step {event : Event} (rested : Rested s) (h : step event s = .ok s') :
    Rested s' := by
  cases event with
  | fork stack => exact schedFork_rested rested h
  | exec =>
    cases h
    have given := sameTicks_modifyTask s s.current (f := fun x => { x with mm := s.nmms })
      fun _ => rfl
    exact rested.keep ⟨rfl, given.ticks⟩
  | exit status =>
    have marked : SameTicks s (exiting s s.current status) := by
      have same := sameTicks_modifyTask s s.current (f := fun x =>
        { x with state := .zombie, exitStatus := status }) fun _ => rfl
      exact ⟨rfl, same.ticks⟩
    obtain ⟨p, _, _, ⟨_, s₁, inserted, slept⟩ | ⟨_, slept⟩⟩ := doExit_inv h
    · have woken := sameTicks_modifyTask s₁ p (f := fun x => { x with state := .running })
        fun _ => rfl
      exact scheduleSleep_rested
        (rested.keep (marked.trans ((schedRrInsertProc_sameTicks inserted).trans woken))) slept
    · exact scheduleSleep_rested (rested.keep marked) slept
  | wait =>
    rcases doWait_inv h with ⟨_, slept⟩ | ⟨c, _, rfl⟩
    · have marked := sameTicks_modifyTask s s.current (f := fun x => { x with state := .waiting })
        fun _ => rfl
      exact scheduleSleep_rested (rested.keep marked) slept
    · rw [taskFree_frame]
      exact rested.keep ⟨rfl, fun _ => rfl⟩
  | read =>
    apply scheduleSleep_rested _ (stdinRead_inv h).2
    exact rested.keep ⟨rfl, fun _ => rfl⟩
  | readResume n =>
    cases h
    exact rested.keep ⟨rfl, fun _ => rfl⟩
  | key pressed =>
    obtain ⟨tty, _, rfl | ⟨w, s₁, _, inserted, rfl⟩⟩ := ttySendKey_inv h
    · exact rested.keep ⟨rfl, fun _ => rfl⟩
    · have inserted := schedRrInsertProc_sameTicks inserted
      exact rested.keep ⟨inserted.current, inserted.ticks⟩
  | tick => exact schedMaybePreempt_rested rested h
  | schedule => exact schedule_rested rested h
  | open_ ino mode =>
    obtain ⟨i, ops, _, rfl⟩ := doOpen_inv h
    have filled := sameTicks_modifyTask s s.current (f := fun x =>
      { x with fdtab := Function.update x.fdtab i (some s.nfiles) }) fun _ => rfl
    exact rested.keep ⟨rfl, filled.ticks⟩
  | close fd =>
    obtain ⟨i, f, _, _, rfl⟩ := doClose_inv h
    have emptied := sameTicks_modifyTask s s.current (f := fun x =>
      { x with fdtab := Function.update x.fdtab i none }) fun _ => rfl
    exact rested.keep ⟨rfl, emptied.ticks⟩

/-- Nobody has ticks at the start. -/
theorem Rested.start (stack : Nat) : Rested (startInit stack) := by
  apply rested_of_zero
  intro t
  by_cases e : t = 0 <;> simp [startInit, createInit, e]

/-- In every reachable state only the current task has ticks. -/
theorem Rested.reach {stack : Nat} {ok : Event → State → Prop}
    (reached : Reach Kernel.step ok (startInit stack) s) : Rested s :=
  reached.invariant Rested (Rested.start stack) fun _ _ _ rested _ taken => rested.step taken

/-! ## A window of ticks -/

/-- A state `i` ticks after `s₀`: the records are those of `s₀` but for ticks and stack pointers, and
the slices used up since are the places the ring has turned. -/
structure Window (s₀ : State) (qs : List Nat) (i : Nat) (s : State) : Prop where
  same : ∀ t, s.tasks t =
    { s₀.tasks t with aliveTicks := (s.tasks t).aliveTicks, sp := (s.tasks t).sp }
  ntasks : s.ntasks = s₀.ntasks
  place : (s₀.current :: qs)[((s₀.tasks s₀.current).aliveTicks + i) / sliceTicks %
    (qs.length + 1)]? = some s.current
  ticks : (s.tasks s.current).aliveTicks =
    ((s₀.tasks s₀.current).aliveTicks + i) % sliceTicks
  rested : ∀ t, t ≠ s.current → (s.tasks t).aliveTicks = 0

namespace Window

variable {s₀ : State} {i : Nat}

theorem next (window : Window s₀ qs i s) (t : Nat) : (s.tasks t).next = (s₀.tasks t).next := by
  rw [window.same t]

theorem prev (window : Window s₀ qs i s) (t : Nat) : (s.tasks t).prev = (s₀.tasks t).prev := by
  rw [window.same t]

theorem pid (window : Window s₀ qs i s) (t : Nat) : (s.tasks t).pid = (s₀.tasks t).pid := by
  rw [window.same t]

/-- A tick within the slice. -/
theorem early (window : Window s₀ qs i s)
    (lt : (s.tasks s.current).aliveTicks < preemptTickCount) :
    ∃ s', schedMaybePreempt s = .ok s' ∧ Window s₀ qs (i + 1) s' := by
  obtain ⟨s', taken, current, _, ntasks, tasks⟩ := schedMaybePreempt_early lt
  rw [window.ticks] at lt
  generalize place : (s₀.tasks s₀.current).aliveTicks + i = x at *
  have slice : (x + 1) / sliceTicks = x / sliceTicks ∧
      (x + 1) % sliceTicks = x % sliceTicks + 1 := by
    simp only [sliceTicks, preemptTickCount] at *
    omega
  refine ⟨s', taken, ⟨fun t => ?_, ntasks.trans window.ntasks, ?_, ?_, fun t ne => ?_⟩⟩
  · rw [tasks, window.same t]
    split <;> rfl
  · rw [← Nat.add_assoc, place, slice.1, current, ← place]
    exact window.place
  · rw [← Nat.add_assoc, place, slice.2, current, tasks, if_pos rfl, ← place, ← window.ticks]
  · rw [current] at ne
    rw [tasks, if_neg ne]
    exact window.rested t ne

/-- The tick that ends the slice, when the task at the next place of the ring goes on. -/
theorem late {y : Nat} (window : Window s₀ qs i s)
    (ge : ¬ (s.tasks s.current).aliveTicks < preemptTickCount) (next : s₀.nextOf s.current = some y)
    (place : (s₀.current :: qs)[(((s₀.tasks s₀.current).aliveTicks + i) / sliceTicks %
      (qs.length + 1) + 1) % (qs.length + 1)]? = some y) (made : y < s₀.ntasks)
    (pids : y ≠ s.current → (s₀.tasks s.current).pid ≠ (s₀.tasks y).pid) :
    ∃ s', schedMaybePreempt s = .ok s' ∧ Window s₀ qs (i + 1) s' := by
  have next : (s.tasks s.current).next = some y := (window.next _).trans next
  -- whoever goes on, it has no ticks, and neither has anybody else
  have taken : ∃ s', schedMaybePreempt s = .ok s' ∧ s'.current = y ∧ s'.ntasks = s.ntasks ∧
      ∀ t, s'.tasks t = { s.tasks t with aliveTicks := 0, sp := (s'.tasks t).sp } := by
    by_cases alone : y = s.current
    · obtain ⟨s', taken, current, ntasks, tasks⟩ := schedMaybePreempt_alone ge (alone ▸ next)
      refine ⟨s', taken, current.trans alone.symm, ntasks, fun t => ?_⟩
      by_cases e : t = s.current
      · rw [tasks, if_pos e]
      · rw [tasks, if_neg e, ← window.rested t e]
    · have pid : (s.tasks s.current).pid ≠ (s.tasks y).pid := by
        rw [window.pid, window.pid]
        exact pids alone
      obtain ⟨s', taken, current, _, ntasks, tasks⟩ :=
        schedMaybePreempt_late ge next (window.ntasks ▸ made) pid
      refine ⟨s', taken, current, ntasks, fun t => ?_⟩
      by_cases e : t = s.current
      · rw [tasks, if_pos e]
      · rw [tasks, if_neg e, ← window.rested t e]
  obtain ⟨s', taken, current, ntasks, tasks⟩ := taken
  rw [window.ticks] at ge
  generalize begun : (s₀.tasks s₀.current).aliveTicks + i = x at *
  have slice : (x + 1) / sliceTicks = x / sliceTicks + 1 ∧ (x + 1) % sliceTicks = 0 := by
    simp only [sliceTicks, preemptTickCount] at *
    omega
  have zero : ∀ t, (s'.tasks t).aliveTicks = 0 := fun t => by rw [tasks]
  refine ⟨s', taken, ⟨fun t => ?_, ntasks.trans window.ntasks, ?_, ?_, fun t _ => zero t⟩⟩
  · rw [tasks, window.same t]
  · rw [← Nat.add_assoc, begun, slice.1, current, ← Nat.mod_add_mod]
    exact place
  · rw [← Nat.add_assoc, begun, slice.2]
    exact zero _

/-- The next tick. -/
theorem tick (window : Window s₀ qs i s) (ring : IsRing s₀.nextOf s₀.prevOf s₀.current qs)
    (made : ∀ t ∈ s₀.current :: qs, t < s₀.ntasks)
    (pids : (s₀.current :: qs).Pairwise fun t u => (s₀.tasks t).pid ≠ (s₀.tasks u).pid) :
    ∃ s', schedMaybePreempt s = .ok s' ∧ Window s₀ qs (i + 1) s' := by
  by_cases lt : (s.tasks s.current).aliveTicks < preemptTickCount
  · exact window.early lt
  · obtain ⟨y, place, link⟩ := ring.next_getElem? window.place
    have here := List.mem_of_getElem? window.place
    have there := List.mem_of_getElem? place
    have symm : Std.Symm fun t u => (s₀.tasks t).pid ≠ (s₀.tasks u).pid := ⟨fun _ _ => Ne.symm⟩
    exact window.late lt link.1 place (made y there) fun ne => pids.forall here there ne.symm

end Window

/-- The state after `i` ticks and nothing else. -/
def afterTicks (s : State) : Nat → Except Fault State
  | 0 => .ok s
  | i + 1 => do
    let s' ← afterTicks s i
    step .tick s'

/-- Every window of ticks is run through, from any point of a slice on. -/
theorem afterTicks_window (rested : Rested s) (ring : IsRing s.nextOf s.prevOf s.current qs)
    (made : ∀ t ∈ s.current :: qs, t < s.ntasks)
    (pids : (s.current :: qs).Pairwise fun t u => (s.tasks t).pid ≠ (s.tasks u).pid) (i : Nat) :
    ∃ s', afterTicks s i = .ok s' ∧ Window s qs i s' := by
  induction i with
  | zero =>
    have below : (s.tasks s.current).aliveTicks < sliceTicks := Nat.lt_succ_of_le rested.current
    refine ⟨s, rfl, ⟨fun _ => rfl, rfl, ?_, ?_, rested.others⟩⟩
    · rw [Nat.add_zero, Nat.div_eq_of_lt below]
      rfl
    · rw [Nat.add_zero, Nat.mod_eq_of_lt below]
  | succ i ih =>
    obtain ⟨s', taken, window⟩ := ih
    obtain ⟨s'', ticked, window'⟩ := window.tick ring made pids
    exact ⟨s'', bind_eq_ok.mpr ⟨s', taken, ticked⟩, window'⟩

/-- In `n` slices of `w` ticks, counted from any tick on, the place `k` has `w` of them. -/
theorem card_turns {w n k : Nat} (a : Nat) (pos : 0 < w) (lt : k < n) :
    ((Finset.range (w * n)).filter fun i => (a + i) / w % n = k).card = w := by
  have periodic : Function.Periodic (fun x => x / w % n = k) (w * n) := by
    intro x
    simp only [Nat.add_mul_div_left x n pos, Nat.add_mod_right]
  have moved : ((Finset.range (w * n)).filter fun i => (a + i) / w % n = k).card =
      ((Finset.Ico a (a + w * n)).filter fun x => x / w % n = k).card := by
    apply Finset.card_bij (fun i _ => a + i)
    · intro i mem
      rw [Finset.mem_filter, Finset.mem_range] at mem
      rw [Finset.mem_filter, Finset.mem_Ico]
      exact ⟨⟨Nat.le_add_right a i, Nat.add_lt_add_left mem.1 a⟩, mem.2⟩
    · exact fun i _ j _ => Nat.add_left_cancel
    · intro x mem
      rw [Finset.mem_filter, Finset.mem_Ico] at mem
      have back : a + (x - a) = x := Nat.add_sub_cancel' mem.1.1
      refine ⟨x - a, ?_, back⟩
      rw [Finset.mem_filter, Finset.mem_range, back]
      exact ⟨by omega, mem.2⟩
  have slice : (Finset.range (w * n)).filter (fun x => x / w % n = k) =
      Finset.Ico (w * k) (w * k + w) := by
    ext x
    rw [Finset.mem_filter, Finset.mem_range, Finset.mem_Ico]
    have above : x / w = k ↔ w * k ≤ x ∧ x < w * k + w := by
      rw [Nat.div_eq_iff pos, Nat.mul_comm k w]
      omega
    constructor
    · rintro ⟨below, place⟩
      rw [Nat.mod_eq_of_lt (Nat.div_lt_of_lt_mul below)] at place
      exact above.mp place
    · intro inside
      have place := above.mpr inside
      refine ⟨?_, by rw [place, Nat.mod_eq_of_lt lt]⟩
      calc x < w * k + w := inside.2
        _ = w * (k + 1) := (Nat.mul_succ w k).symm
        _ ≤ w * n := Nat.mul_le_mul_left w lt
  rw [moved, Nat.filter_Ico_card_eq_of_periodic a (w * n) _ periodic, Nat.count_eq_card_filter_range,
    slice, Nat.card_Ico, Nat.add_sub_cancel_left]

/-- **Round robin.** In every reachable state only `current` has ticks, ten at most. From there on,
when the runnable tasks have different pids, the ring and its order stay through any number of ticks,
the task at place `(a + i) / 11` of the ring runs after `i` of them, where `a` ticks were counted
before; in eleven ticks per task every task has eleven, and at their end `current` is the same. -/
theorem roundRobin_fair (stack : Nat) (s : State)
    (reached : Reach step (fun _ _ => True) (startInit stack) s) :
    (∀ t, t ≠ s.current → (s.tasks t).aliveTicks = 0) ∧
    (s.tasks s.current).aliveTicks ≤ preemptTickCount ∧
    ∃ qs, IsRing s.nextOf s.prevOf s.current qs ∧ (∀ t, t ∈ s.current :: qs ↔ s.Runnable t) ∧
      ((s.current :: qs).Pairwise (fun t u => (s.tasks t).pid ≠ (s.tasks u).pid) →
        (∀ i, ∃ s', afterTicks s i = .ok s' ∧ s'.nextOf = s.nextOf ∧ s'.prevOf = s.prevOf ∧
          (s.current :: qs)[((s.tasks s.current).aliveTicks + i) / 11 % (qs.length + 1)]? =
            some s'.current) ∧
        (∀ t ∈ s.current :: qs, ((Finset.range (11 * (qs.length + 1))).filter fun i =>
          (afterTicks s i).toOption.map State.current = some t).card = 11) ∧
        ∃ s', afterTicks s (11 * (qs.length + 1)) = .ok s' ∧ s'.current = s.current) := by
  have rested := Rested.reach reached
  obtain ⟨qs, inv⟩ := RingInv.reach reached
  refine ⟨rested.others, rested.current, qs, inv.ring, inv.runnable, fun pids => ?_⟩
  have made : ∀ t ∈ s.current :: qs, t < s.ntasks := fun t mem => ((inv.runnable t).mp mem).1
  have window := afterTicks_window rested inv.ring made pids
  refine ⟨fun i => ?_, fun t mem => ?_, ?_⟩
  · obtain ⟨s', taken, window⟩ := window i
    exact ⟨s', taken, funext window.next, funext window.prev, window.place⟩
  · obtain ⟨k, lt, here⟩ := List.mem_iff_getElem.mp mem
    refine (congrArg Finset.card (Finset.filter_congr fun i _ => ?_)).trans
      (card_turns (s.tasks s.current).aliveTicks (w := 11) (by decide) lt)
    obtain ⟨s', taken, window⟩ := window i
    -- a place of the ring is found from the task that has it
    have place := window.place
    have inside := Nat.mod_lt (((s.tasks s.current).aliveTicks + i) / sliceTicks)
      (Nat.succ_pos qs.length)
    rw [List.getElem?_eq_getElem (by simpa using inside), Option.some.injEq] at place
    rw [taken]
    simp only [Except.toOption, Option.map_some, Option.some.injEq]
    rw [← place, ← here, inv.ring.nodup.getElem_inj_iff]
    rfl
  · obtain ⟨s', taken, window⟩ := window (11 * (qs.length + 1))
    refine ⟨s', taken, ?_⟩
    have turned : ((s.tasks s.current).aliveTicks + 11 * (qs.length + 1)) / sliceTicks %
        (qs.length + 1) = 0 := by
      have below : (s.tasks s.current).aliveTicks < 11 := Nat.lt_succ_of_le rested.current
      show ((s.tasks s.current).aliveTicks + 11 * (qs.length + 1)) / 11 % (qs.length + 1) = 0
      rw [Nat.add_mul_div_left _ _ (by decide), Nat.div_eq_of_lt below, Nat.zero_add, Nat.mod_self]
    have place := window.place
    rw [turned] at place
    exact (Option.some.inj place).symm

/-- Init and the child it has forked: every other slice is the child's. -/
theorem roundRobin_fair_two : ∃ s, Reach step (fun _ _ => True) (startInit 0) s ∧ s.ntasks = 2 ∧
    (∀ t, t ≠ s.current → (s.tasks t).aliveTicks = 0) ∧
    (s.tasks s.current).aliveTicks ≤ preemptTickCount ∧
    ∃ qs, IsRing s.nextOf s.prevOf s.current qs ∧ (∀ t, t ∈ s.current :: qs ↔ s.Runnable t) ∧
      (∀ i, ∃ s', afterTicks s i = .ok s' ∧ s'.nextOf = s.nextOf ∧ s'.prevOf = s.prevOf ∧
        (s.current :: qs)[((s.tasks s.current).aliveTicks + i) / 11 % (qs.length + 1)]? =
          some s'.current) ∧
      (∀ t ∈ s.current :: qs, ((Finset.range (11 * (qs.length + 1))).filter fun i =>
        (afterTicks s i).toOption.map State.current = some t).card = 11) ∧
      ∃ s', afterTicks s (11 * (qs.length + 1)) = .ok s' ∧ s'.current = s.current := by
  obtain ⟨s, run, observed⟩ := follow_of_observed step (startInit 0) [.fork 0]
    (fun s => (s.ntasks, (s.tasks 0).pid, (s.tasks 1).pid)) (2, 1, 1000) (by decide +kernel)
  obtain ⟨ntasks, first, second⟩ : s.ntasks = 2 ∧ (s.tasks 0).pid = 1 ∧ (s.tasks 1).pid = 1000 := by
    simpa using observed
  have reached : Reach step (fun _ _ => True) (startInit 0) s :=
    Reach.of_follow .start (fun _ _ _ => trivial) run
  obtain ⟨others, current, qs, ring, runnable, fair⟩ := roundRobin_fair 0 s reached
  refine ⟨s, reached, ntasks, others, current, qs, ring, runnable, fair ?_⟩
  apply ring.nodup.imp_of_mem
  intro t u memT memU ne
  have ltT := ((runnable t).mp memT).1
  have ltU := ((runnable u).mp memU).1
  have two : t = 0 ∧ u = 1 ∨ t = 1 ∧ u = 0 := by omega
  rcases two with ⟨rfl, rfl⟩ | ⟨rfl, rfl⟩
  · rw [first, second]
    decide
  · rw [first, second]
    decide

/-! ## Blocking -/

/-- The panic of `switch_to`. -/
def sameProcess : Fault := .panic "kernel bug: switch to same process"

/-- The call puts `current` to sleep: a `do_wait` that finds no zombie, or a `stdin_read` when there is
no reader. -/
def Blocks (event : Event) (s : State) : Prop :=
  event = .wait ∧ findZombie s s.ntasks (s.tasks s.current).children = .ok none ∨
    event = .read ∧ s.tty.waitingTask = none

/-- Unlinking `current` follows its two links, and both lead to tasks. -/
theorem schedRrRemoveProc_returns {n : Nat} (ring : IsRing s.nextOf s.prevOf s.current qs)
    (made : ∀ t ∈ s.current :: qs, t < s.ntasks) (next : (s.tasks s.current).next = some n)
    (there : n < s.ntasks) : ∃ s', schedRrRemoveProc s s.current = .ok s' := by
  obtain ⟨p, mem, prev⟩ := ring.prev_mem
  have before : s.deref (s.tasks s.current).prev = .ok p := deref_eq_ok.mpr ⟨prev, made p mem⟩
  have after : s.deref (some n) = .ok n := deref_eq_ok.mpr ⟨rfl, there⟩
  unfold schedRrRemoveProc
  simp only [before, ok_bind, deref_modifyTask, modifyTask_tasks, next]
  split
  · simp only [after, ok_bind]
    exact ⟨_, rfl⟩
  · simp only [next, after, ok_bind]
    exact ⟨_, rfl⟩

/-- `schedule_sleep` goes to the next task of the ring, and panics exactly when its pid is that of
`current`. -/
theorem scheduleSleep_panics_iff {n : Nat} (ring : IsRing s.nextOf s.prevOf s.current qs)
    (made : ∀ t ∈ s.current :: qs, t < s.ntasks) (next : (s.tasks s.current).next = some n) :
    scheduleSleep s = .error sameProcess ↔ (s.tasks n).pid = (s.tasks s.current).pid := by
  have there : n < s.ntasks := by
    obtain ⟨y, mem, link⟩ := ring.next_of_mem List.mem_cons_self
    obtain rfl : n = y := Option.some.inj (next.symm.trans link)
    exact made n mem
  have cleared : IsRing (s.modifyTask s.current fun x => { x with aliveTicks := 0 }).nextOf
      (s.modifyTask s.current fun x => { x with aliveTicks := 0 }).prevOf s.current qs := by
    refine ring.congr (fun t _ => ?_) (fun t _ => ?_)
    all_goals by_cases e : t = s.current <;> simp [State.nextOf, State.prevOf, e]
  have only := SchedOnly.modifyTask s s.current (f := fun x => { x with aliveTicks := 0 })
    fun _ => rfl
  obtain ⟨s₁, removed⟩ := schedRrRemoveProc_returns
    (s := s.modifyTask s.current fun x => { x with aliveTicks := 0 }) cleared made
    (by simpa using next) there
  have only := only.trans (schedRrRemoveProc_schedOnly removed)
  have current : s₁.current = s.current := (schedRrRemoveProc_sameTicks removed).current
  have found : s₁.deref (some n) = .ok n := deref_eq_ok.mpr ⟨rfl, only.ntasks ▸ there⟩
  have slept : scheduleSleep s = switchTo s₁ n := by
    unfold scheduleSleep
    simp only [modifyTask_tasks, modifyTask_current, if_true, next] at removed ⊢
    rw [removed, ok_bind, found, ok_bind]
  rw [slept, switchTo]
  simp only [current, only.pid]
  by_cases same : (s.tasks s.current).pid = (s.tasks n).pid
  · simp [same, sameProcess]
  · simp only [same, if_false, reduceCtorEq, false_iff]
    exact fun e => same e.symm

/-- **Blocking.** In every reachable state a call that puts `current` to sleep reaches the panic of
`switch_to`, unless another task is runnable and the next one on the ring has another pid. -/
theorem blocking_iff (stack : Nat) (s : State) (event : Event)
    (reached : Reach step (fun _ _ => True) (startInit stack) s) (blocks : Blocks event s) :
    step event s ≠ .error sameProcess ↔
      (∃ t, s.Runnable t ∧ t ≠ s.current) ∧
        ∀ n, (s.tasks s.current).next = some n → (s.tasks n).pid ≠ (s.tasks s.current).pid := by
  obtain ⟨qs, inv⟩ := RingInv.reach reached
  have made : ∀ t ∈ s.current :: qs, t < s.ntasks := fun t mem => ((inv.runnable t).mp mem).1
  obtain ⟨n, mem, next⟩ := inv.ring.next_of_mem List.mem_cons_self
  have next : (s.tasks s.current).next = some n := next
  have panics : step event s = .error sameProcess ↔
      (s.tasks n).pid = (s.tasks s.current).pid := by
    rcases blocks with ⟨rfl, none⟩ | ⟨rfl, free⟩
    · have marked : IsRing (s.modifyTask s.current fun x => { x with state := .waiting }).nextOf
          (s.modifyTask s.current fun x => { x with state := .waiting }).prevOf s.current qs := by
        refine inv.ring.congr (fun t _ => ?_) (fun t _ => ?_)
        all_goals by_cases e : t = s.current <;> simp [State.nextOf, State.prevOf, e]
      have slept : step .wait s =
          scheduleSleep (s.modifyTask s.current fun x => { x with state := .waiting }) := by
        rw [step, doWait, none, ok_bind]
      rw [slept, scheduleSleep_panics_iff
        (s := s.modifyTask s.current fun x => { x with state := .waiting }) marked made
        (by simpa using next)]
      by_cases alone : n = s.current <;> simp [alone]
    · have slept : step .read s =
          scheduleSleep { s with tty := { s.tty with waitingTask := some s.current } } := by
        rw [step, stdinRead, if_neg (not_not.mpr free)]
      rw [slept, scheduleSleep_panics_iff
        (s := { s with tty := { s.tty with waitingTask := some s.current } }) inv.ring made next]
  rw [ne_eq, panics]
  constructor
  · intro other
    refine ⟨⟨n, (inv.runnable n).mp mem, ?_⟩, fun m link => ?_⟩
    · rintro rfl
      exact other rfl
    · obtain rfl : n = m := Option.some.inj (next.symm.trans link)
      exact other
  · exact fun other => other.2 n next

/-- With a child on the ring, init can wait for it. -/
theorem blocking_iff_child : ∃ s, Reach step (fun _ _ => True) (startInit 0) s ∧ s.ntasks = 2 ∧
    Blocks .wait s ∧ (step .wait s ≠ .error sameProcess ↔
      (∃ t, s.Runnable t ∧ t ≠ s.current) ∧
        ∀ n, (s.tasks s.current).next = some n → (s.tasks n).pid ≠ (s.tasks s.current).pid) := by
  obtain ⟨s, run, observed⟩ := follow_of_observed step (startInit 0) [.fork 0]
    (fun s => (s.ntasks, (findZombie s s.ntasks (s.tasks s.current).children).toOption))
    (2, some none) (by decide +kernel)
  obtain ⟨ntasks, none⟩ := Prod.mk.inj observed
  have reached : Reach step (fun _ _ => True) (startInit 0) s :=
    Reach.of_follow .start (fun _ _ _ => trivial) run
  have blocks : Blocks .wait s := by
    refine .inl ⟨rfl, ?_⟩
    cases found : findZombie s s.ntasks (s.tasks s.current).children with
    | error e =>
      rw [found] at none
      cases none
    | ok c =>
      rw [found] at none
      exact congrArg Except.ok (Option.some.inj none)
  exact ⟨s, reached, ntasks, blocks, blocking_iff 0 s .wait reached blocks⟩

/-- Init alone reads from the terminal: there is nobody to switch to. -/
theorem blocking_fails : Reach step (fun _ _ => True) (startInit 0) (startInit 0) ∧
    Blocks .read (startInit 0) ∧ step .read (startInit 0) = .error sameProcess :=
  ⟨.start, .inr ⟨rfl, rfl⟩, rfl⟩

end Blackcomb.Kernel
