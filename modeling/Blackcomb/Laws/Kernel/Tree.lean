import Mathlib.Data.List.Count
import Blackcomb.Laws.Kernel.RunRing

/-!
# The process tree

`parent`, `children` and `sibling` are meant to hold the tree of processes, and `do_wait` to take a
reaped child out of it. Three things go wrong, each in one place:

* `tree_insert_proc` gives a new child the sibling of the first child, not the first child, so the
  list of a parent is never longer than one (`schedForks_children`);
* `do_wait` frees the child it returns and leaves it linked (`reapsNothing_iff`);
* `do_exit` keeps the exiting task's children as they are, so a reaped task can still be a parent
  (`reapsLeaf_iff`).

For each, the runs on which the intended property holds are found exactly.

**What it does not establish.** The conditions are about runs as a whole. What a task that was
reaped twice leaves behind in the heap is not followed: `free` of a pointer that is free already has
no meaning in `Mm.Clients`.
-/

namespace Blackcomb.Kernel

open State Run

/-! ## The sibling list -/

/-- Following `sibling` from the pointer `p` visits the tasks of the list in order and ends. -/
def SiblingList (s : State) : Option Nat → List Nat → Prop
  | p, [] => p = none
  | p, c :: cs => p = some c ∧ SiblingList s (s.tasks c).sibling cs

/-- Following `sibling` from the pointer `p` comes past the task `d`. -/
inductive Reaches (s : State) (d : Nat) : Option Nat → Prop
  | here : Reaches s d (some d)
  | next {c : Nat} : Reaches s d (s.tasks c).sibling → Reaches s d (some c)

/-- A sequence of `sched_fork` calls: who forks, and the address of the new kernel stack. -/
def schedForks : State → List (Nat × Nat) → Except Fault State
  | s, [] => .ok s
  | s, (t, stack) :: calls => do
    let s ← schedFork s t stack
    schedForks s calls

/-- The tasks that `t` forks in a sequence of calls, when the first new task is named `n`. -/
def forkedBy (t n : Nat) : List (Nat × Nat) → List Nat
  | [] => []
  | (u, _) :: calls =>
    if u = t then n :: forkedBy t (n + 1) calls else forkedBy t (n + 1) calls

/-- The sibling list of `t` holds each of the tasks once, and no other. -/
def HoldsChildren (s : State) (t : Nat) (forked : List Nat) : Prop :=
  ∃ cs, SiblingList s (s.tasks t).children cs ∧ cs.Perm forked

/-- A list of siblings is determined by its head. -/
theorem SiblingList.unique {s : State} : ∀ {cs ds : List Nat} {p : Option Nat},
    SiblingList s p cs → SiblingList s p ds → cs = ds
  | [], [], _, _, _ => rfl
  | [], _ :: _, _, h, k => by
    have := h.symm.trans k.1
    cases this
  | _ :: _, [], _, h, k => by
    have := k.symm.trans h.1
    cases this
  | c :: cs, d :: ds, _, h, k => by
    obtain rfl : c = d := Option.some.inj (h.1.symm.trans k.1)
    rw [SiblingList.unique h.2 k.2]

/-- As many children as calls. -/
theorem length_forkedBy (t : Nat) : ∀ (n : Nat) (calls : List (Nat × Nat)),
    (forkedBy t n calls).length = (calls.map Prod.fst).count t
  | _, [] => rfl
  | n, (u, _) :: calls => by
    have ih := length_forkedBy t (n + 1) calls
    by_cases e : u = t
    · simp [forkedBy, e, ih]
    · simp [forkedBy, e, ih]

/-- The children pointer of `t`, when its whole list is one task or none. -/
def OnlyChild (s : State) (t : Nat) (p : Option Nat) : Prop :=
  (s.tasks t).children = p ∧ ∀ c, p = some c → c < s.ntasks ∧ (s.tasks c).sibling = none

/-- What a sequence of forks leaves as the list of `t`: the last task it forked, alone. -/
theorem schedForks_children {t : Nat} : ∀ {calls : List (Nat × Nat)} {s s' : State}
    {p : Option Nat}, OnlyChild s t p → t < s.ntasks → schedForks s calls = .ok s' →
    OnlyChild s' t ((forkedBy t s.ntasks calls).getLast?.or p)
  | [], s, s', p, only, _, h => by
    cases h
    simpa [forkedBy] using only
  | (u, stack) :: calls, s, s', p, only, lt, h => by
    obtain ⟨s₁, forked, h⟩ := bind_eq_ok.mp h
    have spec := schedFork_spec forked
    obtain ⟨children, alone⟩ := only
    have lt₁ : t < s₁.ntasks := spec.ntasks ▸ Nat.lt_succ_of_lt lt
    have old : ∀ c, p = some c → c ≠ s.ntasks ∧ (s.tasks c).sibling = none := fun c hc =>
      ⟨Nat.ne_of_lt (alone c hc).1, (alone c hc).2⟩
    by_cases e : u = t
    · subst e
      have only₁ : OnlyChild s₁ u (some s.ntasks) := by
        refine ⟨?_, ?_⟩
        · rw [spec.children u (Nat.ne_of_lt lt), if_pos rfl]
        · rintro c ⟨⟩
          refine ⟨spec.ntasks ▸ Nat.lt_succ_self _, ?_⟩
          -- the sibling of the new first child is read from the old first child, which has none
          rw [spec.newSibling, children]
          cases hp : p with
          | none => rfl
          | some c => simp [old c hp]
      have rest := schedForks_children only₁ lt₁ h
      rw [spec.ntasks] at rest
      rw [forkedBy, if_pos rfl, List.getLast?_cons, Option.some_or]
      simpa using rest
    · have only₁ : OnlyChild s₁ t p := by
        refine ⟨?_, fun c hc => ?_⟩
        · rw [spec.children t (Nat.ne_of_lt lt), if_neg (Ne.symm e), children]
        · rw [spec.ntasks, spec.sibling c (old c hc).1]
          exact ⟨Nat.lt_succ_of_lt (alone c hc).1, (old c hc).2⟩
      have rest := schedForks_children only₁ lt₁ h
      rw [spec.ntasks] at rest
      rwa [forkedBy, if_neg e]

/-- **The sibling list.** A task without children that takes part in any sequence of forks has
them all on its list exactly when it forked at most once. -/
theorem holdsChildren_iff (s s' : State) (t : Nat) (calls : List (Nat × Nat)) (lt : t < s.ntasks)
    (childless : (s.tasks t).children = none) (forks : schedForks s calls = .ok s') :
    HoldsChildren s' t (forkedBy t s.ntasks calls) ↔ (calls.map Prod.fst).count t ≤ 1 := by
  have only : OnlyChild s t none := ⟨childless, fun _ hc => (by cases hc)⟩
  obtain ⟨children, alone⟩ := schedForks_children only lt forks
  rw [Option.or_none] at children alone
  rw [← length_forkedBy t s.ntasks calls]
  generalize forkedBy t s.ntasks calls = forked at *
  have list : SiblingList s' (s'.tasks t).children forked.getLast?.toList := by
    rw [children]
    cases last : forked.getLast? with
    | none => exact rfl
    | some c => exact ⟨rfl, (alone c last).2⟩
  constructor
  · rintro ⟨cs, visits, perm⟩
    rw [← perm.length_eq, visits.unique list]
    cases forked.getLast? <;> simp
  · intro short
    refine ⟨_, list, ?_⟩
    match forked, short with
    | [], _ => exact .refl _
    | [c], _ => exact .refl _

/-- Init forks once, and its child twice. -/
theorem holdsChildren_iff_others : ∃ s', schedForks (startInit 0) [(0, 0), (1, 0), (1, 0)] = .ok s' ∧
    forkedBy 0 1 [(0, 0), (1, 0), (1, 0)] = [1] ∧ HoldsChildren s' 0 [1] := by
  have returns : (schedForks (startInit 0) [(0, 0), (1, 0), (1, 0)]).toOption.isSome := by decide +kernel
  cases forks : schedForks (startInit 0) [(0, 0), (1, 0), (1, 0)] with
  | error e =>
    rw [forks] at returns
    cases returns
  | ok s' =>
    exact ⟨s', rfl, rfl, (holdsChildren_iff (startInit 0) s' 0 [(0, 0), (1, 0), (1, 0)] Nat.one_pos rfl
      forks).mpr (by decide)⟩

/-- Init forks twice: its list is the second child alone. -/
theorem holdsChildren_fails : ∃ s', schedForks (startInit 0) [(0, 0), (0, 0)] = .ok s' ∧
    forkedBy 0 1 [(0, 0), (0, 0)] = [1, 2] ∧ SiblingList s' (s'.tasks 0).children [2] ∧
    ¬ HoldsChildren s' 0 (forkedBy 0 1 [(0, 0), (0, 0)]) := by
  refine ⟨_, rfl, rfl, ⟨rfl, rfl⟩, ?_⟩
  rintro ⟨cs, visits, perm⟩
  have lone : cs = [2] := visits.unique ⟨rfl, rfl⟩
  have : cs.length = 2 := perm.length_eq
  rw [lone] at this
  cases this

/-! ## Reaping -/

/-- What a reaping `do_wait` leaves of the tree: the records as they were, and the child freed. -/
structure ReapSpec (s s' : State) (c : Nat) : Prop where
  tasks : s'.tasks = s.tasks
  ntasks : s'.ntasks = s.ntasks
  freed : s'.freed = c :: s.freed
  waits : ∃ ret : WaitReturn, ret.child = c ∧ s'.waits = ret :: s.waits

/-- A wait that finds a zombie frees it. -/
theorem doWait_reap {s s' : State} {t c : Nat} (h : doWait s t = .ok s')
    (found : findZombie s s.ntasks (s.tasks t).children = .ok (some c)) : ReapSpec s s' c := by
  rcases doWait_inv h with ⟨none, _⟩ | ⟨d, found', rfl⟩
  · rw [none] at found
    cases found
  · rw [found'] at found
    cases found
    rw [taskFree_frame]
    exact ⟨rfl, rfl, rfl, _, rfl, rfl⟩

/-- What a step does to the tree: a fork, a reaping `do_wait`, or nothing. -/
theorem step_tree {s s' : State} {event : Event} (h : step event s = .ok s') :
    ForkSpec s s' s.current ∨
    (∃ c, event = .wait ∧
      findZombie s s.ntasks (s.tasks s.current).children = .ok (some c) ∧ ReapSpec s s' c) ∨
    TreeSame s s' := by
  rcases step_cases h with ⟨_, _, spec⟩ | ⟨c, rfl, found, _⟩ | ⟨_, _, _, spec⟩ |
    ⟨_, _, _, spec⟩ | quiet
  · exact .inl spec
  · exact .inr (.inl ⟨c, rfl, found, doWait_reap h found⟩)
  · exact .inr (.inr spec.toTreeSame)
  · exact .inr (.inr spec.toTreeSame)
  · exact .inr (.inr quiet.toTreeSame)

/-- `do_wait` finds its zombie on the list it walks. -/
theorem findZombie_reaches {s : State} : ∀ {fuel : Nat} {p : Option Nat} {c : Nat},
    findZombie s fuel p = .ok (some c) → Reaches s c p
  | 0, none, _, h => by cases h
  | 0, some _, _, h => by cases h
  | _ + 1, none, _, h => by cases h
  | fuel + 1, some q, c, h => by
    unfold findZombie at h
    obtain ⟨q', hq, h⟩ := bind_eq_ok.mp h
    obtain ⟨e, _⟩ := deref_eq_ok.mp hq
    cases e
    split at h
    · cases h
      exact .here
    · exact .next (findZombie_reaches h)

/-- Who is reached depends on the tasks only. -/
theorem Reaches.congr {s s' : State} {d : Nat} (tasks : s'.tasks = s.tasks) {p : Option Nat}
    (h : Reaches s d p) : Reaches s' d p := by
  induction h with
  | here => exact .here
  | next _ ih => exact .next (tasks ▸ ih)

/-- No task is reaped twice: no child is returned by two `do_wait` calls, none is passed to
`task_free` twice, and none that was returned is still on the list of an unfreed task. -/
structure ReapedOnce (s : State) : Prop where
  freed : s.freed.Nodup
  returned : (s.waits.map WaitReturn.child).Nodup
  unlinked : ∀ c ∈ s.waits.map WaitReturn.child, ∀ t < s.ntasks, t ∉ s.freed →
    ¬ Reaches s c (s.tasks t).children

/-- A `do_wait` taken in this state finds no zombie on its caller's list. -/
def ReapsNothing (event : Event) (s : State) : Prop :=
  event = .wait → ∀ c, findZombie s s.ntasks (s.tasks s.current).children ≠ .ok (some c)

/-- Nothing has been reaped. -/
structure Unreaped (s : State) : Prop where
  freed : s.freed = []
  waits : s.waits = []
  ring : ∃ qs, RingInv s qs

/-- Every event that reaps nothing keeps the invariant. -/
theorem Unreaped.step {event : Event} {s s' : State} (inv : Unreaped s)
    (guard : ReapsNothing event s) (h : Kernel.step event s = .ok s') : Unreaped s' := by
  obtain ⟨qs, ring⟩ := inv.ring
  have ring' := ring.step h
  rcases step_tree h with spec | ⟨c, wait, found, _⟩ | same
  · exact ⟨spec.freed.trans inv.freed, spec.waits.trans inv.waits, ring'⟩
  · exact absurd found (guard wait c)
  · exact ⟨same.freed.trans inv.freed, same.waits.trans inv.waits, ring'⟩

/-- While nothing was reaped, nothing was reaped twice. -/
theorem Unreaped.reapedOnce {s : State} (inv : Unreaped s) : ReapedOnce s := by
  refine ⟨?_, ?_, ?_⟩
  · rw [inv.freed]
    exact List.nodup_nil
  · rw [inv.waits]
    exact List.nodup_nil
  · rw [inv.waits]
    rintro c ⟨⟩

/-- The caller of a reaping `do_wait` is not the child it reaps: one runs, the other is a zombie. -/
theorem RingInv.current_ne_zombie {s : State} {qs : List Nat} {fuel c : Nat} {p : Option Nat}
    (inv : RingInv s qs) (found : findZombie s fuel p = .ok (some c)) : s.current ≠ c := by
  intro e
  exact inv.current_runnable.2.2.1 (e ▸ (findZombie_zombie found).2)

/-- A reaped child stays on its parent's list. -/
theorem Unreaped.breach {event : Event} {s s' : State} (inv : Unreaped s)
    (h : Kernel.step event s = .ok s') (unmet : ¬ ReapsNothing event s) : ¬ ReapedOnce s' := by
  intro once
  unfold ReapsNothing at unmet
  push Not at unmet
  obtain ⟨rfl, c, found⟩ := unmet
  obtain ⟨qs, ring⟩ := inv.ring
  obtain ⟨lt, notFreed, _⟩ := ring.current_runnable
  have reap := doWait_reap h found
  obtain ⟨ret, child, waits⟩ := reap.waits
  have linked : Reaches s' c (s'.tasks s.current).children := by
    rw [reap.tasks]
    exact (findZombie_reaches found).congr reap.tasks
  refine once.unlinked c ?_ s.current (reap.ntasks ▸ lt) ?_ linked
  · rw [waits, List.map_cons, child]
    exact List.mem_cons_self
  · rw [reap.freed, List.mem_cons, not_or]
    exact ⟨ring.current_ne_zombie found, notFreed⟩

/-- **Reaping.** No zombie is reaped twice, and none stays linked, in exactly the runs in which no
`do_wait` reaps at all. -/
theorem reapsNothing_iff (stack : Nat) (events : List Event) :
    Along step ReapedOnce (startInit stack) events ↔
      Guarded step ReapsNothing (startInit stack) events :=
  guarded_iff_along (fun _ _ _ => Unreaped.step) (fun _ => Unreaped.reapedOnce)
    (fun _ _ _ => Unreaped.breach) ⟨rfl, rfl, [], RingInv.start stack⟩

/-- Init forks, the child exits, and init waits twice: both calls return the same child, and it
is passed to `task_free` twice. -/
theorem reapedOnce_fails : ∃ s', follow step (startInit 0)
      [.fork 0, .schedule, .exit 0, .wait, .wait] = .ok s' ∧
    s'.freed = [1, 1] ∧ s'.waits.map WaitReturn.child = [1, 1] ∧
    ¬ Along step ReapedOnce (startInit 0) [.fork 0, .schedule, .exit 0, .wait, .wait] := by
  obtain ⟨s', run, observed⟩ := follow_of_observed step (startInit 0)
    [.fork 0, .schedule, .exit 0, .wait, .wait]
    (fun s => (s.freed, s.waits.map WaitReturn.child)) ([1, 1], [1, 1]) (by decide +kernel)
  obtain ⟨freed, returned⟩ := Prod.mk.inj observed
  refine ⟨s', run, freed, returned, fun along => ?_⟩
  have once := (along.follow run).freed
  rw [freed] at once
  exact absurd once (by decide)

/-! ## Orphans -/

/-- Every unfreed task but init has an unfreed parent, and so does `current` when `do_exit` follows
its parent pointer. -/
structure ParentsLive (s : State) : Prop where
  parent : ∀ t < s.ntasks, t ∉ s.freed → t ≠ 0 →
    ∃ p < s.ntasks, (s.tasks t).parent = some p ∧ p ∉ s.freed
  exiting : ∀ p, (s.tasks s.current).parent = some p → p ∉ s.freed

/-- A `do_wait` taken in this state reaps no task that another unfreed task has as its parent. -/
def ReapsLeaf (event : Event) (s : State) : Prop :=
  event = .wait → ∀ c, findZombie s s.ntasks (s.tasks s.current).children = .ok (some c) →
    ∀ t < s.ntasks, t ∉ s.freed → t ≠ c → (s.tasks t).parent ≠ some c

/-- `ParentsLive` with what its preservation needs. -/
structure Rooted (s : State) : Prop where
  parent : ∀ t < s.ntasks, t ∉ s.freed → t ≠ 0 →
    ∃ p < s.ntasks, (s.tasks t).parent = some p ∧ p ∉ s.freed
  root : (s.tasks 0).parent = none
  made : 0 < s.ntasks
  ring : ∃ qs, RingInv s qs

/-- In a tree rooted at `init` every parent lives. -/
theorem Rooted.parentsLive {s : State} (inv : Rooted s) : ParentsLive s where
  parent := inv.parent
  exiting := by
    intro p hp
    obtain ⟨qs, ring⟩ := inv.ring
    obtain ⟨lt, notFreed, _⟩ := ring.current_runnable
    have ne : s.current ≠ 0 := by
      intro e
      rw [e, inv.root] at hp
      cases hp
    obtain ⟨q, _, hq, live⟩ := inv.parent s.current lt notFreed ne
    obtain rfl : q = p := Option.some.inj (hq.symm.trans hp)
    exact live

/-- Every event that reaps a leaf or nothing keeps the tree rooted. -/
theorem Rooted.step {event : Event} {s s' : State} (inv : Rooted s)
    (guard : ReapsLeaf event s) (h : Kernel.step event s = .ok s') : Rooted s' := by
  obtain ⟨qs, ring⟩ := inv.ring
  have ring' := ring.step h
  rcases step_tree h with spec | ⟨c, wait, found, tasks, ntasks, freed, _⟩ | same
  · -- a fork: the new task's parent is the caller, which runs
    refine ⟨fun t lt live ne => ?_, ?_, ?_, ring'⟩
    · rw [spec.ntasks] at lt ⊢
      rw [spec.freed] at live ⊢
      rcases Nat.lt_succ_iff_lt_or_eq.mp lt with lt | rfl
      · obtain ⟨p, plt, hp, alive⟩ := inv.parent t lt live ne
        exact ⟨p, Nat.lt_succ_of_lt plt, (spec.parent t (Nat.ne_of_lt lt)).trans hp, alive⟩
      · exact ⟨s.current, Nat.lt_succ_of_lt spec.exists_, spec.newParent,
          ring.current_runnable.2.1⟩
    · rw [spec.parent 0 (Nat.ne_of_lt inv.made)]
      exact inv.root
    · rw [spec.ntasks]
      exact Nat.succ_pos _
  · refine ⟨fun t lt live ne => ?_, tasks ▸ inv.root, ntasks ▸ inv.made, ring'⟩
    rw [ntasks] at lt ⊢
    rw [freed, List.mem_cons, not_or] at live
    obtain ⟨p, plt, hp, alive⟩ := inv.parent t lt live.2 ne
    refine ⟨p, plt, tasks ▸ hp, ?_⟩
    rw [freed, List.mem_cons, not_or]
    refine ⟨?_, alive⟩
    rintro rfl
    exact guard wait p found t lt live.2 live.1 hp
  · refine ⟨fun t lt live ne => ?_, (same.parent 0).trans inv.root, same.ntasks ▸ inv.made, ring'⟩
    rw [same.ntasks] at lt ⊢
    rw [same.freed] at live ⊢
    rw [same.parent t]
    exact inv.parent t lt live ne

/-- A task whose parent was reaped is an orphan. -/
theorem Rooted.breach {event : Event} {s s' : State} (inv : Rooted s)
    (h : Kernel.step event s = .ok s') (unmet : ¬ ReapsLeaf event s) : ¬ ParentsLive s' := by
  intro live
  unfold ReapsLeaf at unmet
  push Not at unmet
  obtain ⟨rfl, c, found, t, lt, notFreed, ne, parent⟩ := unmet
  have root : t ≠ 0 := by
    rintro rfl
    rw [inv.root] at parent
    cases parent
  have reap := doWait_reap h found
  have unfreed : t ∉ s'.freed := by
    rw [reap.freed, List.mem_cons, not_or]
    exact ⟨ne, notFreed⟩
  obtain ⟨p, _, hp, alive⟩ := live.parent t (reap.ntasks ▸ lt) unfreed root
  rw [reap.tasks] at hp
  obtain rfl : p = c := Option.some.inj (hp.symm.trans parent)
  rw [reap.freed] at alive
  exact alive List.mem_cons_self

/-- `init` is the tree. -/
theorem Rooted.start (stack : Nat) : Rooted (startInit stack) := by
  refine ⟨fun t lt _ ne => ?_, rfl, Nat.one_pos, [], RingInv.start stack⟩
  exact absurd (Nat.lt_one_iff.mp lt) ne

/-- **Parent pointers.** Every unfreed task but init has an unfreed parent, and `do_exit` follows
no dangling one, along exactly the runs in which every task that `do_wait` reaps is nobody's
parent. -/
theorem reapsLeaf_iff (stack : Nat) (events : List Event) :
    Along step ParentsLive (startInit stack) events ↔
      Guarded step ReapsLeaf (startInit stack) events :=
  guarded_iff_along (fun _ _ _ => Rooted.step) (fun _ => Rooted.parentsLive)
    (fun _ _ _ => Rooted.breach) (Rooted.start stack)

/-- Init forks a child, the child forks a grandchild and exits, and init reaps the child: the
grandchild's parent has been freed. -/
theorem parentsLive_fails : ∃ s', follow step (startInit 0)
      [.fork 0, .schedule, .fork 0, .exit 0, .schedule, .wait] = .ok s' ∧
    s'.freed = [1] ∧ (s'.tasks 2).parent = some 1 ∧ (s'.tasks 2).state = .running ∧
    ¬ Along step ParentsLive (startInit 0)
      [.fork 0, .schedule, .fork 0, .exit 0, .schedule, .wait] := by
  obtain ⟨s', run, observed⟩ := follow_of_observed step (startInit 0)
    [.fork 0, .schedule, .fork 0, .exit 0, .schedule, .wait]
    (fun s => (s.ntasks, s.freed, (s.tasks 2).parent, (s.tasks 2).state))
    (3, [1], some 1, .running) (by decide +kernel)
  obtain ⟨ntasks, freed, parent, state⟩ :
      s'.ntasks = 3 ∧ s'.freed = [1] ∧ (s'.tasks 2).parent = some 1 ∧
        (s'.tasks 2).state = .running := by
    simpa using observed
  refine ⟨s', run, freed, parent, state, fun along => ?_⟩
  obtain ⟨p, _, hp, alive⟩ := (along.follow run).parent 2 (by omega) (by simp [freed])
    (by decide)
  obtain rfl : p = 1 := Option.some.inj (hp.symm.trans parent)
  simp [freed] at alive

end Blackcomb.Kernel
