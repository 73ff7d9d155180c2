import Blackcomb.Lib.Ring
import Blackcomb.Lib.Simulation
import Blackcomb.Laws.Kernel.Steps

/-!
# The run ring

The blocked state of a task is kept in three places: its `state` field, the terminal's reader slot,
and its absence from the ring. `RingInv` says that the three agree, and every call of the system
keeps it. What each call does to the ring is one of three edits of the circular list (`Lib.Ring`),
always at `current`: link a task in after it, unlink it, or move it on.

The main result is `runRing_exact`: from `startInit`, in every state that any sequence
of calls reaches, the ring through `current` is exactly the runnable tasks.

**What it does not establish.** A call is one step, from the entry to where it switches tasks, as
interrupts are masked. Ring and states agree between the steps, and nothing is said of the inside of
one.
-/

namespace Blackcomb.Kernel

open State Ring Run

/-- The `next` fields, as the ring reads them. -/
def State.nextOf (s : State) (t : Nat) : Option Nat := (s.tasks t).next

/-- The `prev` fields, as the ring reads them. -/
def State.prevOf (s : State) (t : Nat) : Option Nat := (s.tasks t).prev

/-- A task that has not been reaped and is not blocked: neither exited, nor asleep in `do_wait`,
nor the terminal's reader. -/
def State.Runnable (s : State) (t : Nat) : Prop :=
  t < s.ntasks ∧ t ∉ s.freed ∧ (s.tasks t).state ≠ .zombie ∧ (s.tasks t).state ≠ .waiting ∧
    s.tty.waitingTask ≠ some t

/-! ## The ring edits of the scheduler -/

/-- The inserted task comes right after the current one, and the ring is closed again. -/
theorem schedRrInsertProc_ring {s s' : State} {x : Nat} {qs : List Nat}
    (ring : IsRing s.nextOf s.prevOf s.current qs) (fresh : x ∉ s.current :: qs)
    (h : schedRrInsertProc s x = .ok s') :
    s'.current = s.current ∧ IsRing s'.nextOf s'.prevOf s.current (x :: qs) := by
  unfold schedRrInsertProc at h
  simp only [modifyTask_current] at h
  obtain ⟨n, hn, h⟩ := bind_eq_ok.mp h
  cases h
  have cx : s.current ≠ x := fun e => fresh (e ▸ List.mem_cons_self)
  have old : s.nextOf s.current = some n := by
    have := (deref_eq_ok.mp hn).1
    simpa [cx, State.nextOf] using this
  obtain ⟨z, zmem, hz⟩ := ring.next_of_mem List.mem_cons_self
  obtain rfl : n = z := Option.some.inj (old.symm.trans hz)
  have nx : n ≠ x := fun e => fresh (e ▸ zmem)
  refine ⟨rfl, ring.insert fresh old ?_ ?_ ?_ ?_ ?_ ?_⟩
  · simp [State.nextOf]
  · simpa [State.nextOf, cx.symm, nx.symm] using old
  · simp [State.prevOf, cx.symm, nx.symm]
  · by_cases e : n = s.current <;> simp [State.prevOf, e]
  · intro y yc yx
    by_cases e : y = n
    · subst e
      simp [State.nextOf, yc, yx]
    · simp [State.nextOf, yc, yx, e]
  · intro y yn yx
    by_cases e : y = s.current
    · subst e
      simp [State.prevOf, cx, yn]
    · simp [State.prevOf, yn, yx, e]

/-- `schedule_sleep` unlinks `current` and moves on to the next task. In a ring of one it panics:
the task it would switch to is the one that sleeps. -/
theorem scheduleSleep_ring {s s' : State} {qs : List Nat}
    (ring : IsRing s.nextOf s.prevOf s.current qs) (h : scheduleSleep s = .ok s') :
    ∃ q rest, qs = q :: rest ∧ s'.current = q ∧ IsRing s'.nextOf s'.prevOf q rest := by
  unfold scheduleSleep schedRrRemoveProc at h
  simp only [modifyTask_current] at h
  obtain ⟨s₁, removed, h⟩ := bind_eq_ok.mp h
  obtain ⟨p, hp, removed⟩ := bind_eq_ok.mp removed
  obtain ⟨n, hn, removed⟩ := bind_eq_ok.mp removed
  cases removed
  obtain ⟨n', hn', h⟩ := bind_eq_ok.mp h
  have back : s.prevOf s.current = some p := by
    simpa [State.prevOf] using (deref_eq_ok.mp hp).1
  have forth : s.nextOf s.current = some n' := by
    simpa [State.nextOf] using (deref_eq_ok.mp hn').1
  unfold switchTo at h
  simp only at h
  split at h
  · cases h
  rename_i distinct
  cases qs with
  | nil =>
    -- the only task of the ring would switch to itself
    have self : n' = s.current := Option.some.inj (forth.symm.trans ring.next_self)
    exact absurd (by rw [self]; rfl) distinct
  | cons q rest =>
    cases h
    obtain rfl : n' = q := Option.some.inj (forth.symm.trans ring.next_head)
    have cn : s.current ≠ n' := fun e =>
      (List.nodup_cons.mp ring.nodup).1 (e ▸ List.mem_cons_self)
    obtain ⟨init, last, split, hlast, link⟩ := ring.prev_head
    obtain rfl : p = last := Option.some.inj (back.symm.trans hlast)
    have cp : s.current ≠ p := fun e =>
      (List.nodup_cons.mp ring.nodup).1 (split ▸ e ▸ List.mem_append_right _ List.mem_cons_self)
    have nn : n = n' := by
      have := (deref_eq_ok.mp hn).1
      simp only [modifyTask_tasks, if_neg cp, if_true] at this
      exact Option.some.inj (this.symm.trans forth)
    subst nn
    have forth' : (s.tasks s.current).next = some n := forth
    have back' : (s.tasks s.current).prev = some p := back
    refine ⟨n, rest, rfl, rfl, ring.remove back ?_ ?_ ?_ ?_⟩
    · by_cases e : p = n
      · subst e
        simp [State.nextOf, cp.symm, forth']
      · simp [State.nextOf, cp.symm, e, forth']
    · simp [State.prevOf, cn.symm, cp, back']
    · intro y yp yc
      by_cases e : y = n
      · subst e
        simp [State.nextOf, yc, yp]
      · simp [State.nextOf, yc, yp, e]
    · intro y yn yc
      by_cases e : y = p
      · subst e
        simp [State.prevOf, yc, yn]
      · simp [State.prevOf, yc, yn, e]

/-- `schedule` moves `current` on by one, or leaves it where it is in a ring of one. The ring is
the same cycle of tasks. -/
theorem schedule_ring {s s' : State} {qs : List Nat}
    (ring : IsRing s.nextOf s.prevOf s.current qs) (h : schedule s = .ok s') :
    ∃ qs', IsRing s'.nextOf s'.prevOf s'.current qs' ∧
      ∀ x, x ∈ s'.current :: qs' ↔ x ∈ s.current :: qs := by
  unfold schedule at h
  simp only at h
  split at h
  · cases h
    refine ⟨qs, ring.congr ?_ ?_, fun x => Iff.rfl⟩
    · intro x _
      by_cases e : x = s.current <;> simp [State.nextOf, e]
    · intro x _
      by_cases e : x = s.current <;> simp [State.prevOf, e]
  · rename_i other
    obtain ⟨n, hn, h⟩ := bind_eq_ok.mp h
    have forth : s.nextOf s.current = some n := by
      simpa [State.nextOf] using (deref_eq_ok.mp hn).1
    unfold switchTo at h
    simp only at h
    split at h
    · cases h
    cases h
    cases qs with
    | nil =>
      have self : (s.tasks s.current).next = some s.current := ring.next_self
      exact absurd (by simpa using self) other
    | cons q rest =>
      obtain rfl : n = q := Option.some.inj (forth.symm.trans ring.next_head)
      refine ⟨rest ++ [s.current], ring.rotate.congr ?_ ?_, fun x => mem_rotate⟩
      · intro x _
        by_cases e : x = s.current <;> simp [State.nextOf, e]
      · intro x _
        by_cases e : x = s.current <;> simp [State.prevOf, e]

/-! ## The invariant -/

/-- What the calls need to know of blocked tasks: a reaped or exited task is a zombie for good, and
the terminal's reader is a live task that is not asleep in `do_wait`. -/
structure Blocked (s : State) : Prop where
  freed : ∀ t ∈ s.freed, t < s.ntasks ∧ (s.tasks t).state = .zombie
  exited : ∀ e ∈ s.exits, e.1 < s.ntasks ∧ (s.tasks e.1).state = .zombie
  reader : ∀ w, s.tty.waitingTask = some w →
    w < s.ntasks ∧ (s.tasks w).state ≠ .zombie ∧ (s.tasks w).state ≠ .waiting

/-- The three records of a blocked task agree: the ring through `current` is exactly the runnable
tasks. -/
structure RingInv (s : State) (qs : List Nat) : Prop extends Blocked s where
  ring : IsRing s.nextOf s.prevOf s.current qs
  runnable : ∀ t, t ∈ s.current :: qs ↔ s.Runnable t

/-- The same with `current` about to sleep: it is still linked and no longer runnable. -/
structure Dozing (s : State) (qs : List Nat) : Prop extends Blocked s where
  ring : IsRing s.nextOf s.prevOf s.current qs
  runnable : ∀ t, t ∈ qs ↔ s.Runnable t

variable {s s' : State} {qs : List Nat}

/-- `Blocked` reads the states of tasks, the reader slot, and which tasks were made, reaped or
exited. -/
theorem Blocked.congr (inv : Blocked s) (state : ∀ t, (s'.tasks t).state = (s.tasks t).state)
    (ntasks : s'.ntasks = s.ntasks) (freed : s'.freed = s.freed) (exits : s'.exits = s.exits)
    (reader : s'.tty.waitingTask = s.tty.waitingTask) : Blocked s' where
  freed := by
    intro t ht
    rw [freed] at ht
    rw [ntasks, state]
    exact inv.freed t ht
  exited := by
    intro e he
    rw [exits] at he
    rw [ntasks, state]
    exact inv.exited e he
  reader := by
    intro w hw
    rw [reader] at hw
    rw [ntasks, state]
    exact inv.reader w hw

/-- Who is blocked is not the scheduler's to say. -/
theorem Blocked.of_schedOnly (inv : Blocked s) (only : SchedOnly s s') : Blocked s' :=
  inv.congr only.state only.ntasks only.freed only.exits (by rw [only.tty])

theorem runnable_of_schedOnly (only : SchedOnly s s') (t : Nat) : s'.Runnable t ↔ s.Runnable t := by
  simp only [Runnable, only.ntasks, only.freed, only.state, only.tty]

/-- Unlinking the sleeper restores the invariant. -/
theorem Dozing.sleep (inv : Dozing s qs) (h : scheduleSleep s = .ok s') :
    ∃ qs', RingInv s' qs' := by
  have only := scheduleSleep_schedOnly h
  obtain ⟨q, rest, rfl, cur, ring⟩ := scheduleSleep_ring inv.ring h
  refine ⟨rest, inv.toBlocked.of_schedOnly only, cur ▸ ring, fun t => ?_⟩
  rw [cur, inv.runnable t, runnable_of_schedOnly only]

/-- Waking a parent that is asleep in `do_wait`, while the exiting child is still linked. -/
theorem Dozing.wake {p : Nat} {s₁ : State} (inv : Dozing s qs) (lt : p < s.ntasks)
    (linked : p ≠ s.current) (waiting : (s.tasks p).state = .waiting)
    (h : schedRrInsertProc s p = .ok s₁) :
    Dozing (s₁.modifyTask p fun x => { x with state := .running }) (p :: qs) := by
  have only := schedRrInsertProc_schedOnly h
  have notFreed : p ∉ s.freed := fun mem => by
    have := (inv.freed p mem).2
    rw [waiting] at this
    cases this
  have notReader : s.tty.waitingTask ≠ some p := fun e => (inv.reader p e).2.2 waiting
  have off : p ∉ s.current :: qs := by
    rw [List.mem_cons, inv.runnable p, not_or]
    exact ⟨linked, fun run => run.2.2.2.1 waiting⟩
  obtain ⟨cur, ring⟩ := schedRrInsertProc_ring inv.ring off h
  have state : ∀ x, ((s₁.modifyTask p fun y => { y with state := .running }).tasks x).state =
      if x = p then .running else (s.tasks x).state := by
    intro x
    by_cases e : x = p <;> simp [e, only.state]
  refine ⟨⟨fun t ht => ?_, fun e he => ?_, fun w hw => ?_⟩, ?_, fun t => ?_⟩
  · rw [modifyTask_freed, only.freed] at ht
    have tp : t ≠ p := fun e => notFreed (e ▸ ht)
    rw [state, if_neg tp, modifyTask_ntasks, only.ntasks]
    exact inv.freed t ht
  · rw [modifyTask_exits, only.exits] at he
    have ep : e.1 ≠ p := by
      intro same
      have := (inv.exited e he).2
      rw [same, waiting] at this
      cases this
    rw [state, if_neg ep, modifyTask_ntasks, only.ntasks]
    exact inv.exited e he
  · rw [modifyTask_tty, only.tty] at hw
    have wp : w ≠ p := by
      rintro rfl
      exact notReader hw
    rw [state, if_neg wp, modifyTask_ntasks, only.ntasks]
    exact inv.reader w hw
  · rw [modifyTask_current, cur]
    refine ring.congr (fun x _ => ?_) (fun x _ => ?_)
    · by_cases e : x = p <;> simp [State.nextOf, e]
    · by_cases e : x = p <;> simp [State.prevOf, e]
  · have := inv.runnable t
    unfold Runnable at this ⊢
    rw [state, List.mem_cons, this]
    simp only [modifyTask_ntasks, modifyTask_freed, modifyTask_tty, only.ntasks, only.freed,
      only.tty]
    by_cases e : t = p
    · subst e
      simp [lt, notFreed, notReader]
    · simp [e]

namespace RingInv

/-- The current task is runnable. -/
theorem current_runnable (inv : RingInv s qs) : s.Runnable s.current :=
  (inv.runnable s.current).mp List.mem_cons_self

/-- `current` as a sleeper sees the ring: the other tasks are the runnable ones that are not
`current`. -/
theorem mem_tail (inv : RingInv s qs) (t : Nat) : t ∈ qs ↔ s.Runnable t ∧ t ≠ s.current := by
  rw [← inv.runnable t, List.mem_cons]
  have unique := (List.nodup_cons.mp inv.ring.nodup).1
  constructor
  · intro mem
    exact ⟨.inr mem, fun e => unique (e ▸ mem)⟩
  · rintro ⟨e | mem, ne⟩
    · exact absurd e ne
    · exact mem

/-- Moving within the ring keeps the invariant. -/
theorem of_schedOnly (inv : RingInv s qs) {qs' : List Nat} (only : SchedOnly s s')
    (ring : IsRing s'.nextOf s'.prevOf s'.current qs')
    (mem : ∀ x, x ∈ s'.current :: qs' ↔ x ∈ s.current :: qs) : RingInv s' qs' where
  toBlocked := inv.toBlocked.of_schedOnly only
  ring := ring
  runnable := fun t => by rw [mem t, inv.runnable t, runnable_of_schedOnly only]

/-- A call that changes no link, no state, neither `current` nor the reader slot, and makes,
reaps and exits no task keeps the invariant. -/
theorem congr (inv : RingInv s qs) (next : ∀ t, (s'.tasks t).next = (s.tasks t).next)
    (prev : ∀ t, (s'.tasks t).prev = (s.tasks t).prev)
    (state : ∀ t, (s'.tasks t).state = (s.tasks t).state) (current : s'.current = s.current)
    (ntasks : s'.ntasks = s.ntasks) (freed : s'.freed = s.freed) (exits : s'.exits = s.exits)
    (reader : s'.tty.waitingTask = s.tty.waitingTask) : RingInv s' qs where
  toBlocked := inv.toBlocked.congr state ntasks freed exits reader
  ring := by
    rw [current]
    exact inv.ring.congr (fun x _ => next x) (fun x _ => prev x)
  runnable := by
    intro t
    rw [current, inv.runnable t]
    simp only [Runnable, ntasks, freed, state, reader]

/-! ## Every call keeps the invariant -/

/-- A tick keeps the ring, turned by one task or not. -/
theorem tick (inv : RingInv s qs) (h : schedMaybePreempt s = .ok s') : ∃ qs', RingInv s' qs' := by
  have only := schedMaybePreempt_schedOnly h
  unfold schedMaybePreempt at h
  simp only at h
  have counted : IsRing
      (s.modifyTask s.current fun x =>
        { x with aliveTicks := (s.tasks s.current).aliveTicks + 1 }).nextOf
      (s.modifyTask s.current fun x =>
        { x with aliveTicks := (s.tasks s.current).aliveTicks + 1 }).prevOf s.current qs := by
    refine inv.ring.congr (fun x _ => ?_) (fun x _ => ?_)
    · by_cases e : x = s.current <;> simp [State.nextOf, e]
    · by_cases e : x = s.current <;> simp [State.prevOf, e]
  split at h
  · cases h
    exact ⟨qs, inv.of_schedOnly only counted fun x => Iff.rfl⟩
  · obtain ⟨qs', ring, mem⟩ := schedule_ring counted h
    exact ⟨qs', inv.of_schedOnly only ring mem⟩

/-- A fork puts its child into the ring. -/
theorem fork {t stack : Nat} (inv : RingInv s qs) (h : schedFork s t stack = .ok s') :
    ∃ qs', RingInv s' qs' := by
  have spec := schedFork_spec h
  obtain ⟨lt, s₁, s₂, forked, inserted, linked⟩ := schedFork_inv h
  obtain ⟨_, others, _, rest⟩ := doFork_spec lt forked
  obtain ⟨_, _, _, tree⟩ := treeInsertProc_spec linked
  have cur₁ : s₁.current = s.current := by rw [rest]
  have old : ∀ x ∈ s.current :: qs, x ≠ s.ntasks := fun x hx =>
    Nat.ne_of_lt ((inv.runnable x).mp hx).1
  have ring₁ : IsRing s₁.nextOf s₁.prevOf s₁.current qs := by
    rw [cur₁]
    refine inv.ring.congr (fun x hx => ?_) (fun x hx => ?_)
    · rw [State.nextOf, others x (old x hx), State.nextOf]
    · rw [State.prevOf, others x (old x hx), State.prevOf]
  have fresh : s.ntasks ∉ s₁.current :: qs := by
    rw [cur₁]
    exact fun mem => old _ mem rfl
  obtain ⟨_, ring₂⟩ := schedRrInsertProc_ring ring₁ fresh inserted
  refine ⟨s.ntasks :: qs, ⟨fun x hx => ?_, fun e he => ?_, fun w hw => ?_⟩, ?_, fun x => ?_⟩
  · rw [spec.freed] at hx
    obtain ⟨lt, zombie⟩ := inv.freed x hx
    rw [spec.ntasks, spec.state x (Nat.ne_of_lt lt)]
    exact ⟨Nat.lt_succ_of_lt lt, zombie⟩
  · rw [spec.exits] at he
    obtain ⟨lt, zombie⟩ := inv.exited e he
    rw [spec.ntasks, spec.state e.1 (Nat.ne_of_lt lt)]
    exact ⟨Nat.lt_succ_of_lt lt, zombie⟩
  · rw [spec.tty] at hw
    obtain ⟨lt, other⟩ := inv.reader w hw
    rw [spec.ntasks, spec.state w (Nat.ne_of_lt lt)]
    exact ⟨Nat.lt_succ_of_lt lt, other⟩
  · rw [spec.current, ← cur₁]
    refine ring₂.congr (fun x _ => ?_) (fun x _ => ?_)
    · rw [State.nextOf, tree x, State.nextOf]
    · rw [State.prevOf, tree x, State.prevOf]
  · rw [spec.current]
    by_cases hx : x = s.ntasks
    · subst hx
      have notFreed : s.ntasks ∉ s.freed := fun mem => Nat.lt_irrefl _ (inv.freed _ mem).1
      have notReader : s.tty.waitingTask ≠ some s.ntasks := fun e =>
        Nat.lt_irrefl _ (inv.reader _ e).1
      simp [Runnable, spec.ntasks, spec.freed, spec.tty, spec.newState, notFreed, notReader]
    · have := inv.runnable x
      simp only [List.mem_cons, Runnable, hx, false_or] at this ⊢
      rw [this, spec.ntasks, spec.freed, spec.tty, spec.state x hx]
      simp only [Nat.lt_succ_iff_lt_or_eq, hx, or_false]

/-- `current` as `do_exit` marks it. -/
theorem exiting_dozing (inv : RingInv s qs) (status : Int) :
    Dozing (exiting s s.current status) qs := by
  obtain ⟨curLt, _, _, _, curReader⟩ := inv.current_runnable
  have state : ∀ x, ((exiting s s.current status).tasks x).state =
      if x = s.current then .zombie else (s.tasks x).state := by
    intro x
    by_cases e : x = s.current <;> simp [exiting, e]
  refine ⟨⟨fun t ht => ?_, fun e he => ?_, fun w hw => ?_⟩, ?_, fun t => ?_⟩
  · obtain ⟨lt, zombie⟩ := inv.freed t ht
    refine ⟨lt, ?_⟩
    rw [state]
    split
    · rfl
    · exact zombie
  · rw [state]
    rcases List.mem_cons.mp he with rfl | he
    · exact ⟨curLt, if_pos rfl⟩
    · obtain ⟨lt, zombie⟩ := inv.exited e he
      refine ⟨lt, ?_⟩
      split
      · rfl
      · exact zombie
  · have ne : w ≠ s.current := by
      rintro rfl
      exact curReader hw
    rw [state, if_neg ne]
    exact inv.reader w hw
  · show IsRing _ _ s.current _
    refine inv.ring.congr (fun x _ => ?_) (fun x _ => ?_)
    · by_cases e : x = s.current <;> simp [State.nextOf, exiting, e]
    · by_cases e : x = s.current <;> simp [State.prevOf, exiting, e]
  · rw [inv.mem_tail t, Runnable, Runnable, state]
    by_cases e : t = s.current <;> simp [e, exiting]

/-- An exit takes the task out, and may put its parent in. -/
theorem exit {status : Int} (inv : RingInv s qs) (h : doExit s s.current status = .ok s') :
    ∃ qs', RingInv s' qs' := by
  obtain ⟨p, parent, lt, cases⟩ := doExit_inv h
  have dozing := inv.exiting_dozing status
  rcases cases with ⟨waiting, s₁, inserted, slept⟩ | ⟨_, slept⟩
  · have linked : p ≠ s.current := by
      rintro rfl
      simp [exiting] at waiting
    exact (dozing.wake lt linked waiting inserted).sleep slept
  · exact dozing.sleep slept

/-- `current` as `do_wait` marks it before it sleeps. -/
theorem waiting_dozing (inv : RingInv s qs) :
    Dozing (s.modifyTask s.current fun x => { x with state := .waiting }) qs := by
  obtain ⟨_, curFreed, curZombie, _, curReader⟩ := inv.current_runnable
  have state : ∀ x, ((s.modifyTask s.current fun y => { y with state := .waiting }).tasks x).state =
      if x = s.current then .waiting else (s.tasks x).state := by
    intro x
    by_cases e : x = s.current <;> simp [e]
  refine ⟨⟨fun t ht => ?_, fun e he => ?_, fun w hw => ?_⟩, ?_, fun t => ?_⟩
  · have ne : t ≠ s.current := fun e => curFreed (e ▸ ht)
    rw [state, if_neg ne]
    exact inv.freed t ht
  · have ne : e.1 ≠ s.current := fun same => curZombie (same ▸ (inv.exited e he).2)
    rw [state, if_neg ne]
    exact inv.exited e he
  · have ne : w ≠ s.current := by
      rintro rfl
      exact curReader hw
    rw [state, if_neg ne]
    exact inv.reader w hw
  · refine inv.ring.congr (fun x _ => ?_) (fun x _ => ?_)
    · by_cases e : x = s.current <;> simp [State.nextOf, e]
    · by_cases e : x = s.current <;> simp [State.prevOf, e]
  · rw [inv.mem_tail t, Runnable, Runnable, state]
    by_cases e : t = s.current <;> simp [e]

/-- A wait takes the task out, or leaves the ring as it is. -/
theorem wait (inv : RingInv s qs) (h : doWait s s.current = .ok s') : ∃ qs', RingInv s' qs' := by
  rcases doWait_inv h with ⟨_, slept⟩ | ⟨c, found, rfl⟩
  · exact inv.waiting_dozing.sleep slept
  · -- the reaped child is a zombie, so it was not runnable before either
    obtain ⟨lt, zombie⟩ := findZombie_zombie found
    rw [taskFree_frame]
    refine ⟨qs, ⟨fun t ht => ?_, inv.exited, inv.reader⟩, inv.ring, fun t => ?_⟩
    · rcases List.mem_cons.mp ht with rfl | ht
      · exact ⟨lt, zombie⟩
      · exact inv.freed t ht
    · have := inv.runnable t
      simp only [Runnable, List.mem_cons, not_or] at this ⊢
      rw [this]
      constructor
      · rintro ⟨lt, notFreed, alive, rest⟩
        exact ⟨lt, ⟨fun e => alive (e ▸ zombie), notFreed⟩, alive, rest⟩
      · rintro ⟨lt, ⟨_, notFreed⟩, rest⟩
        exact ⟨lt, notFreed, rest⟩

theorem read (inv : RingInv s qs) (h : stdinRead s = .ok s') : ∃ qs', RingInv s' qs' := by
  obtain ⟨free, slept⟩ := stdinRead_inv h
  obtain ⟨curLt, _, curZombie, curWaiting, _⟩ := inv.current_runnable
  have dozing : Dozing { s with tty := { s.tty with waitingTask := some s.current } } qs := by
    refine ⟨⟨inv.freed, inv.exited, fun w hw => ?_⟩, inv.ring, fun t => ?_⟩
    · obtain rfl : s.current = w := Option.some.inj hw
      exact ⟨curLt, curZombie, curWaiting⟩
    · rw [inv.mem_tail t]
      simp only [Runnable, free, ne_eq, reduceCtorEq, not_false_eq_true, and_true,
        Option.some.injEq]
      tauto
  exact dozing.sleep slept

/-- A key may put one task in. -/
theorem key {pressed : Ps2Key} (inv : RingInv s qs) (h : ttySendKey s pressed = .ok s') :
    ∃ qs', RingInv s' qs' := by
  obtain ⟨tty, reads, rfl | ⟨w, s₁, hw, inserted, rfl⟩⟩ := ttySendKey_inv h
  · exact ⟨qs, inv.congr (fun _ => rfl) (fun _ => rfl) (fun _ => rfl) rfl rfl rfl rfl reads⟩
  · -- Enter, with a reader asleep: the reader goes back on the ring
    obtain ⟨lt, zombie, waiting⟩ := inv.reader w hw
    have notFreed : w ∉ s.freed := fun mem => zombie (inv.freed w mem).2
    have off : w ∉ s.current :: qs := by
      rw [inv.runnable w]
      exact fun run => run.2.2.2.2 hw
    have only := schedRrInsertProc_schedOnly inserted
    obtain ⟨cur, ring⟩ := schedRrInsertProc_ring (s := { s with tty := tty }) inv.ring off inserted
    refine ⟨w :: qs, ⟨fun t ht => ?_, fun e he => ?_, fun x hx => by cases hx⟩, ?_, fun t => ?_⟩
    · rw [only.ntasks, only.state]
      exact inv.freed t (only.freed ▸ ht)
    · rw [only.ntasks, only.state]
      exact inv.exited e (only.exits ▸ he)
    · rw [cur]
      exact ring
    · have := inv.runnable t
      simp only [Runnable, List.mem_cons, only.ntasks, only.freed, only.state, cur, ne_eq,
        reduceCtorEq, not_false_eq_true, and_true, hw, Option.some.injEq] at this ⊢
      by_cases e : t = w
      · subst e
        simp [lt, notFreed, zombie, waiting]
      · have ne : ¬ w = t := fun h => e h.symm
        simp only [e, false_or, this, ne, not_false_eq_true, and_true]

/-- The calls that only touch descriptors, address spaces or the terminal's buffer. -/
theorem exec (inv : RingInv s qs) (t : Nat) : RingInv (schedExec s t) qs := by
  refine inv.congr (fun x => ?_) (fun x => ?_) (fun x => ?_) rfl rfl rfl rfl rfl
  all_goals by_cases e : x = t <;> simp [schedExec, e]

theorem open_ {ino mode : Nat} (inv : RingInv s qs) (h : doOpen s ino mode = .ok s') :
    RingInv s' qs := by
  obtain ⟨i, ops, _, rfl⟩ := doOpen_inv h
  refine inv.congr (fun x => ?_) (fun x => ?_) (fun x => ?_) rfl rfl rfl rfl rfl
  all_goals by_cases e : x = s.current <;> simp [State.modifyFile, e]

theorem close {fd : Int} (inv : RingInv s qs) (h : doClose s fd = .ok s') : RingInv s' qs := by
  obtain ⟨i, f, _, _, rfl⟩ := doClose_inv h
  refine inv.congr (fun x => ?_) (fun x => ?_) (fun x => ?_) rfl rfl rfl rfl rfl
  all_goals by_cases e : x = s.current <;> simp [e]

/-- Every call of the system keeps the invariant. -/
theorem step (inv : RingInv s qs) {event : Event} (h : Kernel.step event s = .ok s') :
    ∃ qs', RingInv s' qs' := by
  cases event with
  | fork stack => exact inv.fork h
  | exec =>
    cases h
    exact ⟨qs, inv.exec s.current⟩
  | exit status => exact inv.exit h
  | wait => exact inv.wait h
  | read => exact inv.read h
  | readResume n =>
    cases h
    exact ⟨qs, inv.congr (fun _ => rfl) (fun _ => rfl) (fun _ => rfl) rfl rfl rfl rfl rfl⟩
  | key pressed => exact inv.key h
  | tick => exact inv.tick h
  | schedule =>
    obtain ⟨qs', ring, mem⟩ := schedule_ring inv.ring h
    exact ⟨qs', inv.of_schedOnly (schedule_schedOnly h) ring mem⟩
  | open_ ino mode => exact ⟨qs, inv.open_ h⟩
  | close fd => exact ⟨qs, inv.close h⟩

/-- `init` alone on its ring. -/
theorem start (stack : Nat) : RingInv (startInit stack) [] := by
  refine ⟨⟨fun t ht => ?_, fun e he => ?_, fun w hw => ?_⟩, ?_, ?_⟩
  · cases ht
  · cases he
  · cases hw
  · refine ⟨?_, List.nodup_singleton _⟩
    rw [List.nil_append, List.isChain_cons_cons]
    exact ⟨⟨rfl, rfl⟩, List.isChain_singleton _⟩
  · intro t
    show t ∈ [0] ↔ _
    simp only [List.mem_singleton, Runnable, startInit]
    constructor
    · rintro rfl
      simp [createInit]
    · rintro ⟨lt, _⟩
      exact Nat.lt_one_iff.mp lt

/-- The invariant in every state of every run. -/
theorem reach {stack : Nat} {ok : Event → State → Prop} {s : State}
    (reached : Reach Kernel.step ok (startInit stack) s) : ∃ qs, RingInv s qs :=
  reached.invariant (fun s => ∃ qs, RingInv s qs) ⟨[], start stack⟩
    fun _ _ _ ⟨_, inv⟩ _ taken => inv.step taken

end RingInv

/-! ## Exits -/

/-- An exit is recorded with its status. -/
theorem doExit_exits {s s' : State} {t : Nat} {status : Int} (h : doExit s t status = .ok s') :
    s'.exits = (t, status) :: s.exits := by
  obtain ⟨p, _, _, ⟨_, s₁, inserted, slept⟩ | ⟨_, slept⟩⟩ := doExit_inv h
  · rw [(scheduleSleep_schedOnly slept).exits, modifyTask_exits,
      (schedRrInsertProc_schedOnly inserted).exits]
    rfl
  · exact (scheduleSleep_schedOnly slept).exits

/-- Only `do_exit` adds to the record of exits, and it adds the call. -/
theorem step_exits {s s' : State} {event : Event} (h : step event s = .ok s') :
    (∃ status, event = .exit status ∧ s'.exits = (s.current, status) :: s.exits) ∨
      s'.exits = s.exits := by
  cases event with
  | fork stack => exact .inr (schedFork_spec h).exits
  | exec =>
    cases h
    exact .inr rfl
  | exit status => exact .inl ⟨status, rfl, doExit_exits h⟩
  | wait =>
    rcases doWait_inv h with ⟨_, slept⟩ | ⟨c, _, rfl⟩
    · exact .inr (scheduleSleep_schedOnly slept).exits
    · rw [taskFree_frame]
      exact .inr rfl
  | read => exact .inr (scheduleSleep_schedOnly (stdinRead_inv h).2).exits
  | readResume n =>
    cases h
    exact .inr rfl
  | key pressed =>
    obtain ⟨tty, _, rfl | ⟨w, s₁, _, inserted, rfl⟩⟩ := ttySendKey_inv h
    · exact .inr rfl
    · exact .inr (schedRrInsertProc_schedOnly inserted).exits
  | tick => exact .inr (schedMaybePreempt_schedOnly h).exits
  | schedule => exact .inr (schedule_schedOnly h).exits
  | open_ ino mode =>
    obtain ⟨i, ops, _, rfl⟩ := doOpen_inv h
    exact .inr rfl
  | close fd =>
    obtain ⟨i, f, _, _, rfl⟩ := doClose_inv h
    exact .inr rfl

/-- A task that called `do_exit` is on the record from then on. -/
theorem recorded_of_exit {s s₁ s₂ : State} {status : Int} (exited : step (.exit status) s₁ = .ok s₂)
    (later : Reach step (fun _ _ => True) s₂ s) : (s₁.current, status) ∈ s.exits := by
  refine later.invariant (fun s => (s₁.current, status) ∈ s.exits) ?_ fun event s s' kept _ taken => ?_
  · rw [doExit_exits exited]
    exact List.mem_cons_self
  · rcases step_exits taken with ⟨_, _, record⟩ | same
    · rw [record]
      exact List.mem_cons_of_mem _ kept
    · rwa [same]

/-- **The run ring.** In every state that any sequence of calls reaches from `start_init`,
following `next` from `current` is a finite cycle, `prev` undoes it, no task is on it twice, and the
tasks on it are exactly the runnable ones. No task that called `do_exit` is on it, `current`
included, however long ago the call was, and neither is the child that a `do_wait` would now pass to
`task_free`. -/
theorem runRing_exact (stack : Nat) (s : State)
    (reached : Reach step (fun _ _ => True) (startInit stack) s) :
    ∃ qs, IsRing s.nextOf s.prevOf s.current qs ∧
      (∀ t, t ∈ s.current :: qs ↔ s.Runnable t) ∧
      (∀ e ∈ s.exits, e.1 ∉ s.current :: qs) ∧
      (∀ s₁ status s₂, step (.exit status) s₁ = .ok s₂ → Reach step (fun _ _ => True) s₂ s →
        s₁.current ∉ s.current :: qs) ∧
      ∀ c, findZombie s s.ntasks (s.tasks s.current).children = .ok (some c) →
        c ∉ s.current :: qs := by
  obtain ⟨qs, inv⟩ := RingInv.reach reached
  have gone : ∀ e ∈ s.exits, e.1 ∉ s.current :: qs := fun e he mem =>
    ((inv.runnable e.1).mp mem).2.2.1 (inv.exited e he).2
  refine ⟨qs, inv.ring, inv.runnable, gone, fun s₁ status s₂ exited later => ?_, fun c found mem => ?_⟩
  · exact gone _ (recorded_of_exit exited later)
  · exact ((inv.runnable c).mp mem).2.2.1 (findZombie_zombie found).2

/-- Init forks two children, the second exits with status seven, and init reaps it: the ring holds init and
the first child. -/
theorem runRing_exact_reaped : ∃ s, Reach step (fun _ _ => True) (startInit 0) s ∧
    s.exits = [(2, 7)] ∧ s.freed = [2] ∧ ∃ qs, IsRing s.nextOf s.prevOf s.current qs ∧
      0 ∈ s.current :: qs ∧ 1 ∈ s.current :: qs ∧ 2 ∉ s.current :: qs := by
  obtain ⟨s, ran, observed⟩ := follow_of_observed step (startInit 0)
    ([.fork 0, .fork 0, .schedule] ++ ([.exit 7] ++ [.schedule, .wait]))
    (fun s => ((s.exits, s.freed), (s.ntasks, s.tty.waitingTask), [(s.tasks 0).state, (s.tasks 1).state]))
    (([(2, 7)], [2]), (3, none), [.running, .running]) (by decide +kernel)
  simp only [Prod.mk.injEq, List.cons.injEq, and_true] at observed
  obtain ⟨⟨exits, freed⟩, ⟨three, reader⟩, running₀, running₁⟩ := observed
  -- the call of `do_exit`, and the run after it
  obtain ⟨s₁, before, after⟩ := follow_append.mp ran
  obtain ⟨s₂, exited, later⟩ := follow_append.mp after
  have taken : step (.exit 7) s₁ = .ok s₂ := by
    rw [follow] at exited
    split at exited
    · rename_i taken
      cases exited
      exact taken
    · cases exited
  obtain ⟨s₁', before', current⟩ := follow_of_observed step (startInit 0) [.fork 0, .fork 0, .schedule]
    (fun s => s.current) 2 (by decide +kernel)
  obtain rfl : s₁ = s₁' := Except.ok.inj (before.symm.trans before')
  have all : ∀ event s, (fun (_ : Event) (_ : State) => True) event s := fun _ _ => trivial
  have reached : Reach step (fun _ _ => True) (startInit 0) s :=
    Reach.of_follow .start (fun event _ => all event) ran
  obtain ⟨qs, ring, runnable, _, gone, _⟩ := runRing_exact 0 s reached
  refine ⟨s, reached, exits, freed, qs, ring, (runnable 0).mpr ?_, (runnable 1).mpr ?_, ?_⟩
  · simp [Runnable, freed, three, reader, running₀]
  · simp [Runnable, freed, three, reader, running₁]
  · exact current ▸ gone s₁ 7 s₂ taken (Reach.of_follow .start (fun event _ => all event) later)

end Blackcomb.Kernel
