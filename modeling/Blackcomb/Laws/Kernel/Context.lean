import Blackcomb.Laws.Mm.Reclaim
import Blackcomb.Laws.Kernel.KernelHalf
import Blackcomb.Laws.Kernel.Tree

/-!
# The context of the running task

`current`, `cr3` and `__current_task_stack` are assigned in different places, and `sched_exec` takes the
space it runs on away from under the task. `Context` says that the three belong together, and
every call keeps it: what changes `current` goes through `switch_to`, which sets all of them, and
what changes the space of a task loads the new one before it returns.

A space is freed in two places. `sched_exec` frees the old one under `kernel_mm`; `task_free` frees
the space of a zombie, and the zombie is not the task that runs (`Context.unloaded`). In terms of
physical memory, as long as frames do not run out: none of the frames of the space that is freed is a table
or a page of the one that is loaded, or a page of the kernel heap, in which the kernel's stacks are
(`Coupled.freeing`).

**What it does not establish.** The boot stack, which `start_init` runs on, is no task's: `cr3` and the
stack are compared from `init` on. What the processor keeps of a p4 that was loaded before is not modelled.
-/

namespace Blackcomb.Kernel

open State Run Memory Fs Mm

variable {s s' : State}

/-! ## The calls of `mm_free` -/

/-- `sched_exec` when it calls `mm_free`: the task has its new space, and `kernel_mm` is loaded. -/
def schedExecFreeing (s : State) (t : Nat) : State :=
  let s := s.modifyTask t fun x => { x with mm := s.nmms }
  { s with nmms := s.nmms + 1, cr3 := 0 }

/-- What is left of `sched_exec` then. -/
theorem schedExec_eq (s : State) (t : Nat) : schedExec s t = { schedExecFreeing s t with
    freedMms := (s.tasks t).mm :: s.freedMms
    cr3 := ((schedExecFreeing s t).tasks t).mm } := rfl

/-- The calls of `mm_free` that a step makes: the space to free, and the state it is freed in. The
first thing `task_free` does is to free the space. -/
def mmFreeCalls (event : Event) (s : State) : List (Nat × State) :=
  match event with
  | .exec => [((s.tasks s.current).mm, schedExecFreeing s s.current)]
  | .wait =>
    match findZombie s s.ntasks (s.tasks s.current).children with
    | .ok (some c) =>
      [((s.tasks c).mm, { s with
        waits := ⟨s.current, c, (s.tasks c).pid, (s.tasks s.current).exitStatus⟩ :: s.waits })]
    | _ => []
  | _ => []

/-! ## What the calls leave of the processor -/

/-- The processor has the context of `current`. -/
structure Installed (s : State) : Prop where
  cr3 : s.cr3 = (s.tasks s.current).mm
  stack : s.currentTaskStack = (s.tasks s.current).stackTop

/-- The processor's registers and what they are compared with are the same. -/
structure SameContext (s s' : State) : Prop where
  current : s'.current = s.current
  cr3 : s'.cr3 = s.cr3
  stack : s'.currentTaskStack = s.currentTaskStack
  mm : (s'.tasks s.current).mm = (s.tasks s.current).mm
  stackTop : (s'.tasks s.current).stackTop = (s.tasks s.current).stackTop
  freedMms : s'.freedMms = s.freedMms

/-- A loaded context stays loaded while neither the task nor its fields change. -/
theorem Installed.keep (installed : Installed s) (same : SameContext s s') : Installed s' := by
  constructor
  · rw [same.cr3, same.current, same.mm]
    exact installed.cr3
  · rw [same.stack, same.current, same.stackTop]
    exact installed.stack

/-- Another field of a task is not its context. -/
theorem sameContext_modifyTask (s : State) (t : Nat) {f : Task → Task}
    (own : ∀ x : Task, (f x).mm = x.mm ∧ (f x).stackTop = x.stackTop) :
    SameContext s (s.modifyTask t f) := by
  refine ⟨rfl, rfl, rfl, ?_, ?_, rfl⟩
  all_goals
    rw [modifyTask_tasks]
    split
    · rename_i e
      rw [e]
      simp only [own]
    · rfl

/-- `switch_to` installs the context of the task it switches to. -/
theorem switchTo_installed {t : Nat} (h : switchTo s t = .ok s') : Installed s' := by
  unfold switchTo at h
  simp only at h
  split at h
  · cases h
  · rename_i pid
    cases h
    have ne : t ≠ s.current := by
      rintro rfl
      exact pid rfl
    constructor <;> simp [ne]

/-- `schedule_sleep` loads the context of the task it switches to. -/
theorem scheduleSleep_installed (h : scheduleSleep s = .ok s') : Installed s' := by
  unfold scheduleSleep at h
  obtain ⟨_, _, h⟩ := bind_eq_ok.mp h
  obtain ⟨_, _, h⟩ := bind_eq_ok.mp h
  exact switchTo_installed h

/-- So does `schedule`, or it switches to nobody. -/
theorem schedule_installed (installed : Installed s) (h : schedule s = .ok s') : Installed s' := by
  unfold schedule at h
  simp only at h
  split at h
  · cases h
    exact installed.keep (sameContext_modifyTask s s.current fun _ => ⟨rfl, rfl⟩)
  · obtain ⟨_, _, h⟩ := bind_eq_ok.mp h
    exact switchTo_installed h

theorem schedMaybePreempt_installed (installed : Installed s) (h : schedMaybePreempt s = .ok s') :
    Installed s' := by
  have counted := installed.keep (sameContext_modifyTask s s.current
    (f := fun x => { x with aliveTicks := (s.tasks s.current).aliveTicks + 1 })
    fun _ => ⟨rfl, rfl⟩)
  unfold schedMaybePreempt at h
  simp only at h
  split at h
  · cases h
    exact counted
  · exact schedule_installed counted h

/-- Inserting a task loads nothing. -/
theorem schedRrInsertProc_sameContext {t : Nat} (h : schedRrInsertProc s t = .ok s') :
    SameContext s s' := by
  have only := schedRrInsertProc_schedOnly h
  have mm : (s'.tasks s.current).mm = (s.tasks s.current).mm := by rw [only.task]
  have stackTop : (s'.tasks s.current).stackTop = (s.tasks s.current).stackTop := by rw [only.task]
  unfold schedRrInsertProc at h
  simp only at h
  obtain ⟨_, _, h⟩ := bind_eq_ok.mp h
  cases h
  exact ⟨rfl, rfl, rfl, mm, stackTop, rfl⟩

theorem SameContext.trans {s'' : State} (h : SameContext s s') (k : SameContext s' s'') :
    SameContext s s'' where
  current := k.current.trans h.current
  cr3 := k.cr3.trans h.cr3
  stack := k.stack.trans h.stack
  mm := (h.current ▸ k.mm).trans h.mm
  stackTop := (h.current ▸ k.stackTop).trans h.stackTop
  freedMms := k.freedMms.trans h.freedMms

/-- A fork leaves the parent's context loaded. -/
theorem schedFork_sameContext {stack : Nat} (h : schedFork s s.current stack = .ok s') :
    SameContext s s' := by
  obtain ⟨lt, s₁, s₂, forked, inserted, linked⟩ := schedFork_inv h
  obtain ⟨_, others, _, rest⟩ := doFork_spec lt forked
  obtain ⟨_, _, treeRest, tree⟩ := treeInsertProc_spec linked
  have old := others s.current (Nat.ne_of_lt lt)
  have forked : SameContext s s₁ := by
    refine ⟨?_, ?_, ?_, by rw [old], by rw [old], ?_⟩
    all_goals rw [rest]
  have linked : SameContext s₂ s' := by
    refine ⟨?_, ?_, ?_, by rw [tree], by rw [tree], ?_⟩
    all_goals rw [treeRest]
  exact (forked.trans (schedRrInsertProc_sameContext inserted)).trans linked

/-- A key leaves the current task's context loaded. -/
theorem ttySendKey_sameContext {pressed : Ps2Key} (h : ttySendKey s pressed = .ok s') :
    SameContext s s' := by
  have same : ∀ tty, SameContext s { s with tty := tty } := fun tty => ⟨rfl, rfl, rfl, rfl, rfl, rfl⟩
  obtain ⟨tty, _, rfl | ⟨w, s₁, _, inserted, rfl⟩⟩ := ttySendKey_inv h
  · exact same tty
  · have inner := (same tty).trans (schedRrInsertProc_sameContext inserted)
    exact ⟨inner.current, inner.cr3, inner.stack, inner.mm, inner.stackTop, inner.freedMms⟩

theorem doOpen_sameContext {ino mode : Nat} (h : doOpen s ino mode = .ok s') : SameContext s s' := by
  obtain ⟨i, ops, _, rfl⟩ := doOpen_inv h
  have filled := sameContext_modifyTask s s.current (f := fun x =>
    { x with fdtab := Function.update x.fdtab i (some s.nfiles) }) fun _ => ⟨rfl, rfl⟩
  exact ⟨rfl, rfl, rfl, filled.mm, filled.stackTop, rfl⟩

theorem doClose_sameContext {fd : Int} (h : doClose s fd = .ok s') : SameContext s s' := by
  obtain ⟨i, f, _, _, rfl⟩ := doClose_inv h
  have emptied := sameContext_modifyTask s s.current (f := fun x =>
    { x with fdtab := Function.update x.fdtab i none }) fun _ => ⟨rfl, rfl⟩
  exact ⟨rfl, rfl, rfl, emptied.mm, emptied.stackTop, rfl⟩

/-- Every step ends with the context of the task that goes on. -/
theorem Installed.step {event : Event} (installed : Installed s) (h : step event s = .ok s') :
    Installed s' := by
  cases event with
  | fork stack => exact installed.keep (schedFork_sameContext h)
  | exec =>
    cases h
    constructor
    · rfl
    · simpa [schedExec] using installed.stack
  | exit status =>
    obtain ⟨_, _, _, ⟨_, _, _, slept⟩ | ⟨_, slept⟩⟩ := doExit_inv h
    · exact scheduleSleep_installed slept
    · exact scheduleSleep_installed slept
  | wait =>
    rcases doWait_inv h with ⟨_, slept⟩ | ⟨c, _, rfl⟩
    · exact scheduleSleep_installed slept
    · rw [taskFree_frame]
      exact ⟨installed.cr3, installed.stack⟩
  | read => exact scheduleSleep_installed (stdinRead_inv h).2
  | readResume n =>
    cases h
    exact ⟨installed.cr3, installed.stack⟩
  | key pressed => exact installed.keep (ttySendKey_sameContext h)
  | tick => exact schedMaybePreempt_installed installed h
  | schedule => exact schedule_installed installed h
  | open_ ino mode => exact installed.keep (doOpen_sameContext h)
  | close fd => exact installed.keep (doClose_sameContext h)

/-! ## What is freed -/

/-- The steps call `mm_free` as `mmFreeCalls` says. -/
theorem mmFreeCalls_history {event : Event} (h : step event s = .ok s') :
    s'.freedMms = (mmFreeCalls event s).map Prod.fst ++ s.freedMms := by
  cases event with
  | fork stack => exact (schedFork_sameContext h).freedMms
  | exec =>
    cases h
    rfl
  | exit status =>
    obtain ⟨p, _, _, ⟨_, s₁, inserted, slept⟩ | ⟨_, slept⟩⟩ := doExit_inv h
    · have inserted := (schedRrInsertProc_schedOnly inserted).freedMms
      exact (scheduleSleep_schedOnly slept).freedMms.trans inserted
    · exact (scheduleSleep_schedOnly slept).freedMms
  | wait =>
    rcases doWait_inv h with ⟨found, slept⟩ | ⟨c, found, rfl⟩
    · simp only [mmFreeCalls, found]
      exact (scheduleSleep_schedOnly slept).freedMms
    · rw [taskFree_frame]
      simp [mmFreeCalls, found]
  | read => exact (scheduleSleep_schedOnly (stdinRead_inv h).2).freedMms
  | readResume n =>
    cases h
    rfl
  | key pressed => exact (ttySendKey_sameContext h).freedMms
  | tick => exact (schedMaybePreempt_schedOnly h).freedMms
  | schedule => exact (schedule_schedOnly h).freedMms
  | open_ ino mode => exact (doOpen_sameContext h).freedMms
  | close fd => exact (doClose_sameContext h).freedMms

/-- What the processor has, and what it can tell apart: the spaces of different tasks. -/
structure Context (s : State) : Prop extends Installed s where
  own : OwnMms s
  ring : ∃ qs, RingInv s qs

/-- Every event ends with the current task's context loaded. -/
theorem Context.step {event : Event} (inv : Context s) (h : Kernel.step event s = .ok s') :
    Context s' := by
  obtain ⟨qs, ring⟩ := inv.ring
  exact ⟨inv.toInstalled.step h, inv.own.step h, ring.step h⟩

/-- `init`'s context is loaded at the start. -/
theorem Context.start (stack : Nat) : Context (startInit stack) :=
  ⟨⟨rfl, rfl⟩, OwnMms.start stack, [], RingInv.start stack⟩

/-- No space is freed while it is loaded. -/
theorem Context.unloaded {event : Event} {mm : Nat} {now : State} (inv : Context s)
    (call : (mm, now) ∈ mmFreeCalls event s) : now.cr3 ≠ mm := by
  obtain ⟨qs, ring⟩ := inv.ring
  have running := ring.current_runnable.1
  cases event with
  | exec =>
    obtain ⟨rfl, rfl⟩ := Prod.mk.inj (List.mem_singleton.mp call)
    exact Nat.ne_of_lt (inv.own.made _ running).1
  | wait =>
    simp only [mmFreeCalls] at call
    split at call
    · rename_i c found
      obtain ⟨rfl, rfl⟩ := Prod.mk.inj (List.mem_singleton.mp call)
      intro loaded
      have same := inv.own.distinct _ running _ (findZombie_zombie found).1
        (inv.cr3.symm.trans loaded)
      exact ring.current_ne_zombie found same
    · cases call
  | _ => cases call

/-! ## Frames -/

variable {rs : RegionTable} {lists areas : Nat → List Nat} {v u s₀ : Vmm} {m : Machine} {elf : Bytes}

/-- A space that is live, or `kernel_mm`, has a p4: the kernel's pages are there. -/
theorem p4_ne_zero {mm : Nat} (spaces : Spaces rs v lists areas) (there : mm = 0 ∨ v.Live mm) :
    v.slot mm [] ≠ 0 := by
  have inside : InArea (kernelShape 0) (pageAt kernelTextBase 0) := ⟨0, by decide, rfl⟩
  have mapped := (spaces.kernel.mapped 0 (by decide) _ inside).1
  have page : v.slot mm (pageAt kernelTextBase 0) ≠ 0 := by
    rcases there with rfl | live
    · exact mapped
    · rw [(spaces.space mm live).kernel 0 (by decide) _ inside]
      exact mapped
  exact Radix.slot_above (Radix.slot_above (Radix.slot_above (Radix.slot_above page)))

/-- Different spaces have different p4s. -/
theorem p4_injective {mm k : Nat} (spaces : Spaces rs v lists areas) (here : mm = 0 ∨ v.Live mm)
    (there : k = 0 ∨ v.Live k) (same : (v.mms mm).p4 = (v.mms k).p4) : mm = k := by
  have slots : v.slot mm [] = v.slot k [] := same
  exact (spaces.tables.layout.apart mm [] k [] (by decide) (by decide) (p4_ne_zero spaces here)
    (p4_ne_zero spaces there) (congrArg pageOf slots)).1

/-- The space whose frame a role makes a frame. -/
def spaceOf : FrameRole → Option Nat
  | .table mm _ => some mm
  | .heap _ => none
  | .page mm _ _ => some mm

/-- A frame of a space has a role there. -/
theorem exists_role_of_frameOf {mm f : Nat} (frame : v.FrameOf mm f) :
    ∃ role, v.Plays role f ∧ spaceOf role = some mm := by
  rcases frame with ⟨path, plays⟩ | ⟨vma, k, plays⟩
  · exact ⟨_, plays, rfl⟩
  · exact ⟨_, plays, rfl⟩

/-- A frame has one role, and so it is of one space, and not of the heap. -/
theorem frameOf_apart {mm k f : Nat} (spaces : Spaces rs v lists areas) (ne : k ≠ mm)
    (frame : v.FrameOf mm f) : ¬ v.FrameOf k f ∧ ∀ page, ¬ v.Plays (.heap page) f := by
  obtain ⟨role, plays, here⟩ := exists_role_of_frameOf frame
  obtain ⟨_, _, only⟩ := spaces.exists_role (spaces.plays_taken plays)
  have same : ∀ role', v.Plays role' f → spaceOf role' = some mm := fun role' plays' =>
    ((only role' plays').trans (only role plays).symm) ▸ here
  constructor
  · intro other
    obtain ⟨role', plays', there⟩ := exists_role_of_frameOf other
    exact ne (Option.some.inj (there.symm.trans (same role' plays')))
  · intro page plays'
    cases same _ plays'

/-- The address spaces when a step calls `mm_free`: `sched_exec` has made the new one. -/
inductive Freeing (rs : RegionTable) (elf : Bytes) : Event → Vmm → Vmm → Prop
  | exec {v u : Vmm} {mm : Nat} : execElf rs elf v = .ok (mm, u) → Freeing rs elf .exec v u
  | wait {v : Vmm} : Freeing rs elf .wait v v

/-- A space can be freed without harm to the one that is loaded: it has another p4, and none of its frames is
a frame of the loaded one or of the kernel heap. -/
structure Harmless (u : Vmm) (loaded mm : Nat) : Prop where
  p4 : (u.mms loaded).p4 ≠ (u.mms mm).p4
  frames : ∀ f, u.FrameOf mm f → ¬ u.FrameOf loaded f
  heap : ∀ f, u.FrameOf mm f → ∀ page, ¬ u.Plays (.heap page) f

/-- Giving up another space than the loaded one is harmless. -/
theorem harmless_of_ne {mm loaded : Nat} (spaces : Spaces rs u lists areas) (ne : loaded ≠ mm)
    (live : u.Live mm) (there : loaded = 0 ∨ u.Live loaded) : Harmless u loaded mm :=
  ⟨fun same => ne (p4_injective spaces there (.inr live) same),
    fun _ frame => (frameOf_apart spaces ne frame).1, fun _ frame => (frameOf_apart spaces ne frame).2⟩

/-- What a step frees. -/
theorem Coupled.freeing {event : Event} (coupled : Coupled rs s₀ m) (context : Context m.kernel)
    (orderly : m.Orderly (.call event elf)) (fits : Move.Fits (.call event elf))
    (freeing : Freeing rs elf event m.vmm u) (met : ¬ u.ranOut = true) {mm : Nat} {now : State}
    (call : (mm, now) ∈ mmFreeCalls event m.kernel) : Harmless u now.cr3 mm := by
  obtain ⟨lists, areas, spaces⟩ := coupled.spaces
  have unloaded := context.unloaded call
  cases freeing with
  | exec ran =>
    obtain ⟨_, executed⟩ := execElf_done spaces orderly fits ran met
    obtain ⟨_, _, spaces', _⟩ := executed.spaces
    have live : u.Live m.mm :=
      (spaces.live_succ executed.nmms executed.freed).mpr (.inl coupled.mm_live)
    obtain ⟨rfl, rfl⟩ := Prod.mk.inj (List.mem_singleton.mp call)
    exact harmless_of_ne spaces' unloaded live (.inl rfl)
  | wait =>
    simp only [mmFreeCalls] at call
    split at call
    · rename_i c found
      obtain ⟨rfl, rfl⟩ := Prod.mk.inj (List.mem_singleton.mp call)
      have loaded : m.vmm.Live m.kernel.cr3 := context.cr3 ▸ coupled.mm_live
      have child := coupled.live c (findZombie_zombie found).1 (orderly c found)
      exact harmless_of_ne spaces unloaded child (.inr loaded)
    · cases call

/-! ## Every run -/

/-- **The context of `current`.** In every reachable state `cr3` is the space of `current` and
`__current_task_stack` is the top of its stack, and no step frees the space that is loaded when it
frees it. -/
theorem context_current (stack : Nat) (s : State)
    (reached : Reach step (fun _ _ => True) (startInit stack) s) :
    s.cr3 = (s.tasks s.current).mm ∧ s.currentTaskStack = (s.tasks s.current).stackTop ∧
    ∀ event s', step event s = .ok s' →
      s'.freedMms = (mmFreeCalls event s).map Prod.fst ++ s.freedMms ∧
      ∀ call ∈ mmFreeCalls event s, call.2.cr3 ≠ call.1 := by
  have inv := reached.invariant Context (Context.start stack) fun _ _ _ inv _ taken => inv.step taken
  exact ⟨inv.cr3, inv.stack, fun event s' taken => ⟨mmFreeCalls_history taken,
    fun call mem => inv.unloaded mem⟩⟩

/-- Init forks and the child executes a program and exits; init reaps it. -/
theorem context_current_reap : ∃ s, Reach step (fun _ _ => True) (startInit 0) s ∧ s.ntasks = 2 ∧
    s.freedMms = [2] ∧ s.cr3 = (s.tasks s.current).mm ∧
    s.currentTaskStack = (s.tasks s.current).stackTop ∧
    ∀ event s', step event s = .ok s' →
      s'.freedMms = (mmFreeCalls event s).map Prod.fst ++ s.freedMms ∧
      ∀ call ∈ mmFreeCalls event s, call.2.cr3 ≠ call.1 := by
  obtain ⟨s, run, observed⟩ := follow_of_observed step (startInit 0)
    [.fork 0, .schedule, .exec, .exit 0] (fun s => (s.ntasks, s.freedMms)) (2, [2])
    (by decide +kernel)
  obtain ⟨ntasks, freed⟩ := Prod.mk.inj observed
  have reached : Reach step (fun _ _ => True) (startInit 0) s :=
    Reach.of_follow .start (fun _ _ _ => trivial) run
  exact ⟨s, reached, ntasks, freed, context_current 0 s reached⟩

/-- The machine's steps are steps of its process table. -/
theorem Context.machine {m' : Machine} {move : Move} (context : Context m.kernel)
    (taken : Machine.step rs move m = .ok m') : Context m'.kernel := by
  cases move with
  | store virt byte =>
    cases taken
    exact context
  | call event elf =>
    obtain ⟨⟨_, vmm⟩, _, taken⟩ := bind_eq_ok.mp taken
    obtain ⟨kernel, stepped, taken⟩ := bind_eq_ok.mp taken
    cases taken
    exact context.step stepped

/-- **The loaded space is not freed.** From `kernel_mm_init` and the `exec_elf` of init on, in every state of
every orderly run in which frames do not run out: when a step calls `mm_free`, the p4 that is in `cr3` is
another space's, and none of the frames of the space that is freed is a table or a page of the loaded one or a
page of the kernel heap. -/
theorem freed_unloaded (rs : RegionTable) (mem elf : Bytes) (stack mm : Nat) (s₀ v : Vmm) (m : Machine)
    (above : ∀ r ∈ rs.regions, 0 < r.start) (booted : kernelMmInit rs 0 (Vmm.boot rs mem) = .ok ((), s₀))
    (init : execElf rs elf s₀ = .ok (mm, v)) (user : UserSegments elf) (fits : FileFits elf)
    (reached : Reach (Machine.step rs) (fun move m => m.Orderly move ∧ move.Fits) ⟨startInit stack, v⟩ m)
    (met : m.vmm.ranOut = false) : ∀ event file u, m.Orderly (.call event file) →
      Move.Fits (.call event file) → Freeing rs file event m.vmm u → u.ranOut = false →
        ∀ call ∈ mmFreeCalls event m.kernel, Harmless u call.2.cr3 call.1 := by
  obtain ⟨_, coupled⟩ := Coupled.reach above booted init user fits reached met
  have context : Context m.kernel := reached.invariant (fun m => Context m.kernel)
    (Context.start stack) fun _ _ _ inv _ taken => inv.machine taken
  intro event file u orderly fits freeing met call mem
  exact coupled.freeing context orderly fits freeing (ne_true_of_eq_false met) mem

/-- Init, with one page of code, executes the same file again: `mm_free` is called while `kernel_mm` is
loaded. -/
theorem freed_unloaded_exec : ∃ s₀ v u,
    kernelMmInit wideTable 0 (Vmm.boot wideTable fun _ => 0) = .ok ((), s₀) ∧
      execElf wideTable (elfOf (fun _ => 0) 0x400000 0x1000 0x1000) s₀ = .ok (1, v) ∧
      execElf wideTable (elfOf (fun _ => 0) 0x400000 0x1000 0x1000) v = .ok (2, u) ∧ Harmless u 0 1 := by
  obtain ⟨s₀, booted, met₀, left₀, spaces₀, first⟩ := wide_booted
  obtain ⟨user, fits, small⟩ := elfOf_user fun _ => 0
  have count := (elfOf_header (fun _ => 0) 0x400000 0x1000 0x1000 (by decide) (by decide) (by decide)).1
  generalize elfOf (fun _ => 0) 0x400000 0x1000 0x1000 = elf at user fits small count ⊢
  obtain ⟨new, v, ran, met, left, rfl, executed⟩ :=
    (execElf_runs spaces₀ met₀ user fits (by decide) small).total (by rw [count]; omega)
  obtain ⟨lists, areas, spaces, _⟩ := executed.spaces
  have second : v.nmms = 2 := by rw [executed.nmms, first]
  rw [count] at left
  obtain ⟨new', u, ran', met', _, rfl, _⟩ :=
    (execElf_runs spaces met user fits (by decide) small).total (by rw [count]; omega)
  rw [first] at ran
  rw [second] at ran'
  have harmless := freed_unloaded wideTable (fun _ => 0) elf 0 1 s₀ v ⟨startInit 0, v⟩ wide_above booted ran
    user fits .start (Bool.eq_false_of_not_eq_true met) .exec elf u user fits (.exec ran')
    (Bool.eq_false_of_not_eq_true met') _ (List.mem_singleton_self _)
  exact ⟨s₀, v, u, booted, ran, ran', harmless⟩

end Blackcomb.Kernel
