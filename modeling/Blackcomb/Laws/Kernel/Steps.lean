import Mathlib.Data.List.FinRange
import Blackcomb.Laws.Kernel.Frame

/-!
# What each call does

One lemma per call, read by every invariant instead of the call's own text: which records it
makes or changes, and what it leaves alone. The loops over the sixteen descriptor slots are
followed once here, as folds.
-/

namespace Blackcomb.Kernel

open State

/-! ## Fork -/

/-- One descriptor slot of `do_fork` touches the new task's table and one file. -/
theorem forkFd_frame (t new : Nat) (s : State) (i : Fin taskFileMax) :
    (forkFd t new s i) = { s with
      tasks := (forkFd t new s i).tasks
      files := (forkFd t new s i).files } ∧
    ∀ x, (forkFd t new s i).tasks x =
      { s.tasks x with fdtab := ((forkFd t new s i).tasks x).fdtab } := by
  unfold forkFd
  split
  · refine ⟨rfl, fun x => ?_⟩
    simp only [modifyTask_tasks]
    split
    · rename_i e
      rw [e]
      exact rfl
    · exact rfl
  · exact ⟨rfl, fun x => rfl⟩

/-- The slots of `do_fork` one after the other. -/
theorem foldl_forkFd_frame (t new : Nat) : ∀ (is : List (Fin taskFileMax)) (s : State),
    is.foldl (forkFd t new) s = { s with
      tasks := (is.foldl (forkFd t new) s).tasks
      files := (is.foldl (forkFd t new) s).files } ∧
    ∀ x, (is.foldl (forkFd t new) s).tasks x =
      { s.tasks x with fdtab := ((is.foldl (forkFd t new) s).tasks x).fdtab }
  | [], _ => ⟨rfl, fun _ => rfl⟩
  | i :: is, s => by
    obtain ⟨here, hereTasks⟩ := forkFd_frame t new s i
    obtain ⟨rest, restTasks⟩ := foldl_forkFd_frame t new is (forkFd t new s i)
    rw [List.foldl_cons]
    constructor
    · rw [rest, here]
    · intro x
      rw [restTasks x, hereTasks x]

/-- A slot of `do_fork` writes the new task's entry and no other. -/
theorem forkFd_fdtab (t new : Nat) (s : State) (i : Fin taskFileMax) (x : Nat)
    (j : Fin taskFileMax) :
    ((forkFd t new s i).tasks x).fdtab j =
      if x = new ∧ j = i ∧ (s.tasks t).fdtab i ≠ none then (s.tasks t).fdtab i
      else (s.tasks x).fdtab j := by
  unfold forkFd
  cases slot : (s.tasks t).fdtab i with
  | none => simp
  | some f =>
    simp only [modifyTask_tasks, State.modifyFile, ne_eq, reduceCtorEq, not_false_eq_true, and_true]
    by_cases hx : x = new
    · subst hx
      simp only [if_true, true_and, Function.update_apply]
    · simp [hx]

/-- What the loop of `do_fork` leaves in every descriptor table: the slots it has passed are
copied to the new task. -/
theorem foldl_forkFd_fdtab (t new : Nat) (ne : t ≠ new) : ∀ (is : List (Fin taskFileMax))
    (s : State) (x : Nat) (j : Fin taskFileMax),
    ((is.foldl (forkFd t new) s).tasks x).fdtab j =
      if x = new ∧ j ∈ is ∧ (s.tasks t).fdtab j ≠ none then (s.tasks t).fdtab j
      else (s.tasks x).fdtab j
  | [], s, x, j => by simp
  | i :: is, s, x, j => by
    have same : ∀ j, ((forkFd t new s i).tasks t).fdtab j = (s.tasks t).fdtab j := by
      intro j
      rw [forkFd_fdtab]
      simp [ne]
    rw [List.foldl_cons, foldl_forkFd_fdtab t new ne is]
    simp only [same, List.mem_cons]
    rw [forkFd_fdtab]
    by_cases hx : x = new
    · by_cases hj : j = i
      · subst hj
        by_cases hn : (s.tasks t).fdtab j = none <;> simp [hx, hn]
      · simp [hx, hj]
    · simp [hx]

/-- `do_fork` makes one task, a copy of the parent's descriptors, and changes no other record. -/
theorem doFork_spec {s s' : State} {t stack new : Nat} (exists_ : t < s.ntasks)
    (h : doFork s t stack = (new, s')) :
    new = s.ntasks ∧
    (∀ x, x ≠ new → s'.tasks x = s.tasks x) ∧
    s'.tasks new = { (s'.tasks new) with
      pid := s.nextPid, state := .running, exitStatus := 0, mm := s.nmms,
      next := none, prev := none, parent := none, children := none, sibling := none,
      fdtab := (s.tasks t).fdtab, aliveTicks := 0 } ∧
    s' = { s with
      tasks := s'.tasks, files := s'.files, ntasks := s.ntasks + 1, nmms := s.nmms + 1,
      nextPid := (s.nextPid + 1) % 2 ^ 32 } := by
  have hne : t ≠ s.ntasks := Nat.ne_of_lt exists_
  unfold doFork at h
  simp only [Prod.mk.injEq] at h
  obtain ⟨rfl, rfl⟩ := h
  have before : ∀ x, x ≠ s.ntasks → (forkTask s).tasks x = s.tasks x := by
    intro x hx
    simp [forkTask, State.modifyTask, hx]
  have made : (forkTask s).tasks s.ntasks =
      { state := .running, mm := s.nmms, pid := s.nextPid } := by
    simp [forkTask, State.modifyTask]
  obtain ⟨rest, tasks⟩ := foldl_forkFd_frame t s.ntasks (List.finRange taskFileMax) (forkTask s)
  have slots := foldl_forkFd_fdtab t s.ntasks hne (List.finRange taskFileMax) (forkTask s)
  refine ⟨rfl, fun x hx => ?_, ?_, ?_⟩
  · simp only [initTaskStack, modifyTask_tasks, if_neg hx]
    have table : ((List.foldl (forkFd t s.ntasks) (forkTask s)
        (List.finRange taskFileMax)).tasks x).fdtab = ((forkTask s).tasks x).fdtab := by
      funext j
      rw [slots x j]
      simp [hx]
    rw [tasks x, table, before x hx]
  · have table : ((List.foldl (forkFd t s.ntasks) (forkTask s)
        (List.finRange taskFileMax)).tasks s.ntasks).fdtab = (s.tasks t).fdtab := by
      funext j
      rw [slots s.ntasks j, before t hne, made]
      by_cases hn : (s.tasks t).fdtab j = none <;> simp [hn, List.mem_finRange]
    simp only [initTaskStack, modifyTask_tasks, if_true]
    rw [tasks s.ntasks, table, made]
  · simp only [initTaskStack, State.modifyTask]
    rw [rest]
    rfl

/-- `tree_insert_proc` puts the task in front of its parent's list, in the place of the first
child: its `sibling` is what follows that child. -/
theorem treeInsertProc_spec {s s' : State} {parent t : Nat}
    (h : treeInsertProc s parent t = .ok s') :
    ∃ sib, sib = (s.tasks parent).children.bind (fun c => (s.tasks c).sibling) ∧
      s' = { s with tasks := s'.tasks } ∧
      ∀ x, s'.tasks x = { s.tasks x with
        parent := if x = t then some parent else (s.tasks x).parent
        sibling := if x = t then sib else (s.tasks x).sibling
        children := if x = parent then some t else (s.tasks x).children } := by
  unfold treeInsertProc at h
  simp only at h
  obtain ⟨sib, found, h⟩ := bind_eq_ok.mp h
  cases h
  refine ⟨sib, ?_, rfl, fun x => ?_⟩
  · simp only [insertSibling, modifyTask_tasks] at found
    have kept : (if parent = t then { s.tasks t with parent := some parent }
        else s.tasks parent).children = (s.tasks parent).children := by
      split
      · rename_i e
        rw [e]
      · rfl
    rw [kept] at found
    cases hc : (s.tasks parent).children with
    | none =>
      rw [hc] at found
      cases found
      rfl
    | some c =>
      rw [hc] at found
      obtain ⟨c', hc', found⟩ := bind_eq_ok.mp found
      obtain ⟨e, _⟩ := deref_eq_ok.mp hc'
      cases e
      cases found
      simp only [Option.bind_some]
      split
      · rename_i e
        rw [e]
      · rfl
  · simp only [modifyTask_tasks]
    by_cases hp : x = parent
    · by_cases ht : x = t
      · subst hp
        simp [ht]
      · subst hp
        simp [ht]
    · by_cases ht : x = t
      · subst ht
        simp [hp]
      · simp [hp, ht]

/-- A fork that returns: the new task, linked into the ring and into the tree. -/
theorem schedFork_inv {s s' : State} {t stack : Nat} (h : schedFork s t stack = .ok s') :
    t < s.ntasks ∧ ∃ s₁ s₂, doFork s t stack = (s.ntasks, s₁) ∧
      schedRrInsertProc s₁ s.ntasks = .ok s₂ ∧ treeInsertProc s₂ t s.ntasks = .ok s' := by
  unfold schedFork at h
  obtain ⟨t', ht, h⟩ := bind_eq_ok.mp h
  obtain ⟨e, lt⟩ := deref_eq_ok.mp ht
  cases e
  refine ⟨lt, ?_⟩
  generalize forked : doFork s t stack = pair at h
  obtain ⟨new, s₁⟩ := pair
  obtain ⟨rfl, _⟩ := doFork_spec lt forked
  obtain ⟨s₂, inserted, h⟩ := bind_eq_ok.mp h
  exact ⟨s₁, s₂, rfl, inserted, h⟩

/-- What a fork by `t` does to everything but the ring links: one new running task with the
parent's descriptors, at the front of the parent's children. -/
structure ForkSpec (s s' : State) (t : Nat) : Prop where
  exists_ : t < s.ntasks
  ntasks : s'.ntasks = s.ntasks + 1
  freed : s'.freed = s.freed
  exits : s'.exits = s.exits
  waits : s'.waits = s.waits
  freedFiles : s'.freedFiles = s.freedFiles
  nfiles : s'.nfiles = s.nfiles
  tty : s'.tty = s.tty
  current : s'.current = s.current
  state : ∀ x, x ≠ s.ntasks → (s'.tasks x).state = (s.tasks x).state
  fdtab : ∀ x, x ≠ s.ntasks → (s'.tasks x).fdtab = (s.tasks x).fdtab
  parent : ∀ x, x ≠ s.ntasks → (s'.tasks x).parent = (s.tasks x).parent
  sibling : ∀ x, x ≠ s.ntasks → (s'.tasks x).sibling = (s.tasks x).sibling
  children : ∀ x, x ≠ s.ntasks →
    (s'.tasks x).children = if x = t then some s.ntasks else (s.tasks x).children
  newState : (s'.tasks s.ntasks).state = .running
  newFdtab : (s'.tasks s.ntasks).fdtab = (s.tasks t).fdtab
  newParent : (s'.tasks s.ntasks).parent = some t
  newChildren : (s'.tasks s.ntasks).children = none
  newSibling : (s'.tasks s.ntasks).sibling =
    (s.tasks t).children.bind fun c => if c = s.ntasks then none else (s.tasks c).sibling

/-- Inserting a task does not switch. -/
theorem schedRrInsertProc_current {s s' : State} {t : Nat} (h : schedRrInsertProc s t = .ok s') :
    s'.current = s.current := by
  unfold schedRrInsertProc at h
  simp only at h
  obtain ⟨n, _, h⟩ := bind_eq_ok.mp h
  cases h
  rfl

/-- What a fork writes, field by field. -/
theorem schedFork_spec {s s' : State} {t stack : Nat} (h : schedFork s t stack = .ok s') :
    ForkSpec s s' t := by
  obtain ⟨lt, s₁, s₂, forked, inserted, linked⟩ := schedFork_inv h
  obtain ⟨_, others, made, rest⟩ := doFork_spec lt forked
  obtain ⟨sib, hsib, treeRest, tree⟩ := treeInsertProc_spec linked
  have only := schedRrInsertProc_schedOnly inserted
  have ne : s.ntasks ≠ t := (Nat.ne_of_lt lt).symm
  constructor
  case exists_ => exact lt
  case ntasks => rw [treeRest]; show s₂.ntasks = _; rw [only.ntasks, rest]
  case freed => rw [treeRest]; show s₂.freed = _; rw [only.freed, rest]
  case exits => rw [treeRest]; show s₂.exits = _; rw [only.exits, rest]
  case waits => rw [treeRest]; show s₂.waits = _; rw [only.waits, rest]
  case freedFiles => rw [treeRest]; show s₂.freedFiles = _; rw [only.freedFiles, rest]
  case nfiles => rw [treeRest]; show s₂.nfiles = _; rw [only.nfiles, rest]
  case tty => rw [treeRest]; show s₂.tty = _; rw [only.tty, rest]
  case current =>
    rw [treeRest]; show s₂.current = _; rw [schedRrInsertProc_current inserted, rest]
  case state =>
    intro x hx
    rw [tree x]; show (s₂.tasks x).state = _; rw [only.state, others x hx]
  case fdtab =>
    intro x hx
    rw [tree x]; show (s₂.tasks x).fdtab = _; rw [only.fdtab, others x hx]
  case parent =>
    intro x hx
    rw [tree x]
    simp only [if_neg hx]
    rw [only.parent, others x hx]
  case sibling =>
    intro x hx
    rw [tree x]
    simp only [if_neg hx]
    rw [only.sibling, others x hx]
  case children =>
    intro x hx
    rw [tree x]
    simp only
    rw [only.children, others x hx]
  case newState => rw [tree]; show (s₂.tasks _).state = _; rw [only.state, made]
  case newFdtab => rw [tree]; show (s₂.tasks _).fdtab = _; rw [only.fdtab, made]
  case newParent => rw [tree]; simp only [if_true]
  case newChildren =>
    rw [tree]
    simp only [if_neg ne]
    rw [only.children, made]
  case newSibling =>
    rw [tree]
    simp only [if_true]
    rw [hsib, only.children, others t ne.symm]
    congr 1
    funext c
    rw [only.sibling]
    split
    · rename_i e
      rw [e, made]
    · rename_i e
      rw [others c e]

/-! ## Exit and wait -/

/-- One slot of `task_free` touches one file. -/
theorem freeFd_frame (t : Nat) (s : State) (i : Fin taskFileMax) :
    freeFd t s i = { s with
      files := (freeFd t s i).files
      freedFiles := (freeFd t s i).freedFiles } := by
  unfold freeFd
  split
  · simp only
    split <;> rfl
  · rfl

/-- Closing a task's descriptors changes the files and what was freed of them. -/
theorem foldl_freeFd_frame (t : Nat) : ∀ (is : List (Fin taskFileMax)) (s : State),
    is.foldl (freeFd t) s = { s with
      files := (is.foldl (freeFd t) s).files
      freedFiles := (is.foldl (freeFd t) s).freedFiles }
  | [], _ => rfl
  | i :: is, s => by
    have here := freeFd_frame t s i
    have rest := foldl_freeFd_frame t is (freeFd t s i)
    rw [List.foldl_cons, rest, here]

/-- `task_free` drops the task's references and remembers the call; no task record changes. -/
theorem taskFree_frame (s : State) (t : Nat) : taskFree s t = { s with
    files := (taskFree s t).files
    freedFiles := (taskFree s t).freedFiles
    freedMms := (s.tasks t).mm :: s.freedMms
    freed := t :: s.freed } := by
  unfold taskFree
  simp only
  rw [foldl_freeFd_frame t _ { s with freedMms := (s.tasks t).mm :: s.freedMms }]

/-- What `do_wait` finds is a zombie, and a task that exists. -/
theorem findZombie_zombie {s : State} : ∀ {fuel : Nat} {p : Option Nat} {c : Nat},
    findZombie s fuel p = .ok (some c) → c < s.ntasks ∧ (s.tasks c).state = .zombie
  | 0, none, _, h => by cases h
  | 0, some _, _, h => by cases h
  | _ + 1, none, _, h => by cases h
  | fuel + 1, some q, c, h => by
    unfold findZombie at h
    obtain ⟨q', hq, h⟩ := bind_eq_ok.mp h
    obtain ⟨e, lt⟩ := deref_eq_ok.mp hq
    cases e
    split at h
    · rename_i zombie
      cases h
      exact ⟨lt, zombie⟩
    · exact findZombie_zombie h

/-- A turn of `do_wait` either sleeps, the caller marked as waiting, or reaps a zombie it found. -/
theorem doWait_inv {s s' : State} {t : Nat} (h : doWait s t = .ok s') :
    (findZombie s s.ntasks (s.tasks t).children = .ok none ∧
      scheduleSleep (s.modifyTask s.current fun x => { x with state := .waiting }) = .ok s') ∨
    ∃ c, findZombie s s.ntasks (s.tasks t).children = .ok (some c) ∧
      s' = taskFree { s with
        waits := ⟨t, c, (s.tasks c).pid, (s.tasks t).exitStatus⟩ :: s.waits } c := by
  unfold doWait at h
  obtain ⟨found, hf, h⟩ := bind_eq_ok.mp h
  cases found with
  | none => exact .inl ⟨hf, h⟩
  | some c =>
    cases h
    exact .inr ⟨c, hf, rfl⟩

/-- The state in which `do_exit` looks at the parent. -/
def exiting (s : State) (t : Nat) (status : Int) : State :=
  { s.modifyTask t (fun x => { x with state := .zombie, exitStatus := status }) with
    exits := (t, status) :: s.exits }

/-- `do_exit` marks the task, wakes a waiting parent, and goes to sleep for good. -/
theorem doExit_inv {s s' : State} {t : Nat} {status : Int} (h : doExit s t status = .ok s') :
    ∃ p, (s.tasks t).parent = some p ∧ p < s.ntasks ∧
      ((((exiting s t status).tasks p).state = .waiting ∧
          ∃ s₁, schedRrInsertProc (exiting s t status) p = .ok s₁ ∧
            scheduleSleep (s₁.modifyTask p fun x => { x with state := .running }) = .ok s') ∨
        (((exiting s t status).tasks p).state ≠ .waiting ∧
          scheduleSleep (exiting s t status) = .ok s')) := by
  unfold doExit at h
  simp only at h
  obtain ⟨p, hp, h⟩ := bind_eq_ok.mp h
  obtain ⟨parent, lt⟩ := deref_eq_ok.mp hp
  have kept : (s.tasks t).parent = some p := by simpa using parent
  refine ⟨p, kept, lt, ?_⟩
  obtain ⟨s₁, woken, h⟩ := bind_eq_ok.mp h
  unfold wakeParent at woken
  split at woken
  · rename_i waiting
    obtain ⟨s₂, inserted, e⟩ := bind_eq_ok.mp woken
    cases e
    exact .inl ⟨waiting, s₂, inserted, h⟩
  · rename_i other
    cases woken
    exact .inr ⟨other, h⟩

/-! ## The terminal and the descriptor table -/

/-- `stdin_read` takes the reader slot and goes to sleep. -/
theorem stdinRead_inv {s s' : State} (h : stdinRead s = .ok s') :
    s.tty.waitingTask = none ∧
      scheduleSleep { s with tty := { s.tty with waitingTask := some s.current } } = .ok s' := by
  unfold stdinRead at h
  split at h
  · cases h
  · rename_i free
    exact ⟨not_not.mp free, h⟩

/-- A key goes into the buffer, and Enter puts the sleeping reader back on the ring. -/
theorem ttySendKey_inv {s s' : State} {pressed : Ps2Key} (h : ttySendKey s pressed = .ok s') :
    ∃ tty : Tty, tty.waitingTask = s.tty.waitingTask ∧
      (s' = { s with tty := tty } ∨
        ∃ w s₁, s.tty.waitingTask = some w ∧
          schedRrInsertProc { s with tty := tty } w = .ok s₁ ∧
          s' = { s₁ with tty := { s₁.tty with waitingTask := none } }) := by
  unfold ttySendKey at h
  split at h
  · cases h
  refine ⟨{ s.tty with
    buf := Function.update s.tty.buf s.tty.bufi (keyMap pressed)
    bufi := s.tty.bufi + 1 }, rfl, ?_⟩
  simp only at h
  split at h
  · split at h
    · rename_i w reader
      obtain ⟨s₁, inserted, h⟩ := bind_eq_ok.mp h
      cases h
      exact .inr ⟨w, s₁, reader, inserted, rfl⟩
    · cases h
      exact .inl rfl
  · cases h
    exact .inl rfl

/-- `do_open` fills an empty slot of `current` with the new file, and gives the file its operations. -/
theorem doOpen_inv {s s' : State} {ino mode : Nat} (h : doOpen s ino mode = .ok s') :
    ∃ i ops, (s.tasks s.current).fdtab i = none ∧
      s' = (({ s with
        nfiles := s.nfiles + 1
        files := Function.update s.files s.nfiles { ino := ino } } : State).modifyTask s.current
          fun x => { x with fdtab := Function.update x.fdtab i (some s.nfiles) }).modifyFile s.nfiles
            fun x => { x with ops := ops } := by
  unfold doOpen at h
  simp only at h
  split at h
  · cases h
  rename_i i free
  have empty : (s.tasks s.current).fdtab i = none := by
    have := List.find?_some free
    simpa using this
  split at h
  · cases h
    exact ⟨i, _, empty, rfl⟩
  · split at h
    · cases h
      exact ⟨i, _, empty, rfl⟩
    · cases h

/-- `do_close` frees the file of a slot of `current` and empties the slot. -/
theorem doClose_inv {s s' : State} {fd : Int} (h : doClose s fd = .ok s') :
    ∃ (i : Fin taskFileMax) (f : Nat), fd = i.val ∧ (s.tasks s.current).fdtab i = some f ∧
      s' = ({ s with freedFiles := f :: s.freedFiles } : State).modifyTask s.current
        fun x => { x with fdtab := Function.update x.fdtab i none } := by
  unfold doClose at h
  split at h
  · rename_i bound
    split at h
    · cases h
    · rename_i f slot
      cases h
      exact ⟨⟨fd.toNat, bound.2⟩, f, (Int.toNat_of_nonneg bound.1).symm, slot, rfl⟩
  · cases h

/-! ## What a step of the system does

Every step is a fork, a reaping `do_wait`, a `do_open`, a `do_close`, or leaves the process tree
and the descriptor tables as they are. -/

/-- The process tree and the reaping history are the same. -/
structure TreeSame (s s' : State) : Prop where
  parent : ∀ t, (s'.tasks t).parent = (s.tasks t).parent
  children : ∀ t, (s'.tasks t).children = (s.tasks t).children
  sibling : ∀ t, (s'.tasks t).sibling = (s.tasks t).sibling
  ntasks : s'.ntasks = s.ntasks
  freed : s'.freed = s.freed
  waits : s'.waits = s.waits

/-- The process tree, the descriptor tables and the files are the same. -/
structure Quiet (s s' : State) : Prop extends TreeSame s s' where
  fdtab : ∀ t, (s'.tasks t).fdtab = (s.tasks t).fdtab
  files : s'.files = s.files
  nfiles : s'.nfiles = s.nfiles
  freedFiles : s'.freedFiles = s.freedFiles

/-- `do_open` fills an empty slot of `current` with a new file whose `refcnt` is zero. -/
structure OpenSpec (s s' : State) : Prop extends TreeSame s s' where
  slot : ∃ i, (s.tasks s.current).fdtab i = none ∧ ∀ t, (s'.tasks t).fdtab =
    if t = s.current then Function.update (s.tasks t).fdtab i (some s.nfiles) else (s.tasks t).fdtab
  nfiles : s'.nfiles = s.nfiles + 1
  refcnt : (s'.files s.nfiles).refcnt = 0
  files : ∀ f, f ≠ s.nfiles → s'.files f = s.files f
  freedFiles : s'.freedFiles = s.freedFiles

/-- `do_close` frees the file of a slot of `current` and empties the slot. -/
structure CloseSpec (s s' : State) (i : Fin taskFileMax) (f : Nat) : Prop extends
    TreeSame s s' where
  slot : (s.tasks s.current).fdtab i = some f
  fdtab : ∀ t, (s'.tasks t).fdtab =
    if t = s.current then Function.update (s.tasks t).fdtab i none else (s.tasks t).fdtab
  files : s'.files = s.files
  nfiles : s'.nfiles = s.nfiles
  freedFiles : s'.freedFiles = f :: s.freedFiles

/-- The scheduler's own steps are quiet. -/
theorem SchedOnly.quiet {s s' : State} (only : SchedOnly s s') : Quiet s s' where
  parent := only.parent
  children := only.children
  sibling := only.sibling
  ntasks := only.ntasks
  freed := only.freed
  waits := only.waits
  fdtab := only.fdtab
  files := only.files
  nfiles := only.nfiles
  freedFiles := only.freedFiles

/-- Two quiet steps in a row are one. -/
theorem Quiet.trans {s s' s'' : State} (h : Quiet s s') (k : Quiet s' s'') : Quiet s s'' where
  parent := fun t => (k.parent t).trans (h.parent t)
  children := fun t => (k.children t).trans (h.children t)
  sibling := fun t => (k.sibling t).trans (h.sibling t)
  ntasks := k.ntasks.trans h.ntasks
  freed := k.freed.trans h.freed
  waits := k.waits.trans h.waits
  fdtab := fun t => (k.fdtab t).trans (h.fdtab t)
  files := k.files.trans h.files
  nfiles := k.nfiles.trans h.nfiles
  freedFiles := k.freedFiles.trans h.freedFiles

/-- Assigning a task's state, status or address space is quiet. -/
theorem quiet_modifyTask (s : State) (t : Nat) {f : Task → Task}
    (own : ∀ x : Task, (f x).parent = x.parent ∧ (f x).children = x.children ∧
      (f x).sibling = x.sibling ∧ (f x).fdtab = x.fdtab) : Quiet s (s.modifyTask t f) := by
  refine ⟨⟨fun x => ?_, fun x => ?_, fun x => ?_, rfl, rfl, rfl⟩, fun x => ?_, rfl, rfl, rfl⟩
  all_goals
    rw [modifyTask_tasks]
    split
    · rename_i e
      rw [e]
      simp only [own]
    · rfl

/-- An exit creates, frees and reparents nobody. -/
theorem doExit_quiet {s s' : State} {t : Nat} {status : Int} (h : doExit s t status = .ok s') :
    Quiet s s' := by
  have marked : Quiet s (exiting s t status) := by
    have := quiet_modifyTask s t (f := fun x => { x with state := .zombie, exitStatus := status })
      fun _ => ⟨rfl, rfl, rfl, rfl⟩
    exact ⟨⟨this.parent, this.children, this.sibling, rfl, rfl, rfl⟩, this.fdtab, rfl, rfl, rfl⟩
  obtain ⟨p, _, _, ⟨_, s₁, inserted, slept⟩ | ⟨_, slept⟩⟩ := doExit_inv h
  · exact marked.trans <| (schedRrInsertProc_schedOnly inserted).quiet.trans <|
      (quiet_modifyTask _ _ (f := fun x => { x with state := .running })
        fun _ => ⟨rfl, rfl, rfl, rfl⟩).trans (scheduleSleep_schedOnly slept).quiet
  · exact marked.trans (scheduleSleep_schedOnly slept).quiet

theorem stdinRead_quiet {s s' : State} (h : stdinRead s = .ok s') : Quiet s s' := by
  have only := (scheduleSleep_schedOnly (stdinRead_inv h).2).quiet
  exact ⟨⟨only.parent, only.children, only.sibling, only.ntasks, only.freed, only.waits⟩,
    only.fdtab, only.files, only.nfiles, only.freedFiles⟩

theorem ttySendKey_quiet {s s' : State} {pressed : Ps2Key} (h : ttySendKey s pressed = .ok s') :
    Quiet s s' := by
  have same : ∀ tty, Quiet s { s with tty := tty } := fun tty =>
    ⟨⟨fun _ => rfl, fun _ => rfl, fun _ => rfl, rfl, rfl, rfl⟩, fun _ => rfl, rfl, rfl, rfl⟩
  obtain ⟨tty, _, rfl | ⟨w, s₁, _, inserted, rfl⟩⟩ := ttySendKey_inv h
  · exact same tty
  · have only := (same tty).trans (schedRrInsertProc_schedOnly inserted).quiet
    exact ⟨⟨only.parent, only.children, only.sibling, only.ntasks, only.freed, only.waits⟩,
      only.fdtab, only.files, only.nfiles, only.freedFiles⟩

/-- What opening a file writes. -/
theorem doOpen_spec {s s' : State} {ino mode : Nat} (h : doOpen s ino mode = .ok s') :
    OpenSpec s s' := by
  obtain ⟨i, ops, empty, rfl⟩ := doOpen_inv h
  refine ⟨⟨fun t => ?_, fun t => ?_, fun t => ?_, rfl, rfl, rfl⟩, ⟨i, empty, fun t => ?_⟩, rfl,
    ?_, fun f hf => ?_, rfl⟩
  · by_cases e : t = s.current <;> simp [State.modifyFile, e]
  · by_cases e : t = s.current <;> simp [State.modifyFile, e]
  · by_cases e : t = s.current <;> simp [State.modifyFile, e]
  · by_cases e : t = s.current <;> simp [State.modifyFile, e]
  · simp [State.modifyTask]
  · simp [State.modifyTask, hf]

/-- What closing one writes; a descriptor out of range does not come this far. -/
theorem doClose_spec {s s' : State} {fd : Int} (h : doClose s fd = .ok s') :
    ∃ (i : Fin taskFileMax) (f : Nat), fd = i.val ∧ CloseSpec s s' i f := by
  obtain ⟨i, f, index, slot, rfl⟩ := doClose_inv h
  refine ⟨i, f, index, ⟨⟨fun t => ?_, fun t => ?_, fun t => ?_, rfl, rfl, rfl⟩, slot, fun t => ?_,
    rfl, rfl, rfl⟩⟩
  all_goals by_cases e : t = s.current <;> simp [e]

theorem schedExec_quiet (s : State) (t : Nat) : Quiet s (schedExec s t) := by
  have := quiet_modifyTask s t (f := fun x => { x with mm := s.nmms }) fun _ => ⟨rfl, rfl, rfl, rfl⟩
  exact ⟨⟨this.parent, this.children, this.sibling, rfl, rfl, rfl⟩, this.fdtab, rfl, rfl, rfl⟩

/-- The cases of a step. -/
theorem step_cases {s s' : State} {event : Event} (h : step event s = .ok s') :
    (∃ stack, event = .fork stack ∧ ForkSpec s s' s.current) ∨
    (∃ c, event = .wait ∧
      findZombie s s.ntasks (s.tasks s.current).children = .ok (some c) ∧
      s' = taskFree { s with
        waits := ⟨s.current, c, (s.tasks c).pid, (s.tasks s.current).exitStatus⟩ :: s.waits } c) ∨
    (∃ ino mode, event = .open_ ino mode ∧ OpenSpec s s') ∨
    (∃ i f, event = .close (i : Fin taskFileMax).val ∧ CloseSpec s s' i f) ∨
    Quiet s s' := by
  cases event with
  | fork stack => exact .inl ⟨stack, rfl, schedFork_spec h⟩
  | exec =>
    cases h
    exact .inr (.inr (.inr (.inr (schedExec_quiet s s.current))))
  | exit status => exact .inr (.inr (.inr (.inr (doExit_quiet h))))
  | wait =>
    rcases doWait_inv h with ⟨_, slept⟩ | ⟨c, found, rfl⟩
    · have marked := quiet_modifyTask s s.current (f := fun x => { x with state := .waiting })
        fun _ => ⟨rfl, rfl, rfl, rfl⟩
      exact .inr (.inr (.inr (.inr (marked.trans (scheduleSleep_schedOnly slept).quiet))))
    · exact .inr (.inl ⟨c, rfl, found, rfl⟩)
  | read => exact .inr (.inr (.inr (.inr (stdinRead_quiet h))))
  | readResume n =>
    cases h
    refine .inr (.inr (.inr (.inr ⟨⟨?_, ?_, ?_, rfl, rfl, rfl⟩, ?_, rfl, rfl, rfl⟩)))
    all_goals exact fun _ => rfl
  | key pressed => exact .inr (.inr (.inr (.inr (ttySendKey_quiet h))))
  | tick => exact .inr (.inr (.inr (.inr (schedMaybePreempt_schedOnly h).quiet)))
  | schedule => exact .inr (.inr (.inr (.inr (schedule_schedOnly h).quiet)))
  | open_ ino mode => exact .inr (.inr (.inl ⟨ino, mode, rfl, doOpen_spec h⟩))
  | close fd =>
    obtain ⟨i, f, rfl, spec⟩ := doClose_spec h
    exact .inr (.inr (.inr (.inl ⟨i, f, rfl, spec⟩)))

end Blackcomb.Kernel
