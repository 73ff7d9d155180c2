import Blackcomb.Laws.Kernel.KernelHalf
import Blackcomb.Laws.Fs.Stores

/-!
# The memory of processes

What the process table over `vmm.c` is for: every process has a memory of its own. `Memories` is
that system, without spaces: a byte is stored in the current task's memory only, `fork` gives a new
task a copy, `exec` gives the current task the image of a file, a task that is reaped has no memory
any more, and every other call leaves all memories as they are, whoever runs next. Here the machine
of both parts is shown to follow it, over any order of moves.

**What it does not establish.** A memory is what the tables give; that the program's accesses go
through these tables is `Context`. What `read` and `wait` write into a program's buffers is no part
of these calls: for its memory it is one of the program's own stores.
-/

namespace Blackcomb.Kernel

open Memory Run Budget Mm Fs

variable {rs : RegionTable} {s₀ v : Vmm} {m m' : Machine} {elf : Bytes} {stack t x : Nat}
  {a b : Memories}

/-! ## Memories -/

/-- Tasks, named in the order of their creation, with what they read at each address. -/
@[ext]
structure Memories where
  current : Nat
  made : Nat
  of : Nat → Option Store

namespace Memories

/-- The current task's memory changed. -/
def change (a : Memories) (f : Store → Store) : Memories :=
  { a with of := Function.update a.of a.current ((a.of a.current).map f) }

/-- What may follow a move. -/
inductive Next : Move → Memories → Memories → Prop
  | store (a : Memories) (virt : Nat) (byte : BitVec 8) :
      Next (.store virt byte) a (a.change fun store => Function.update store virt (some byte))
  | fork (a : Memories) (stack : Nat) (elf : Bytes) : Next (.call (.fork stack) elf) a
      { a with made := a.made + 1, of := Function.update a.of a.made (a.of a.current) }
  | exec (a : Memories) (elf : Bytes) : Next (.call .exec elf) a (a.change fun _ => imageOf elf)
  | reap (a : Memories) (elf : Bytes) (child : Nat) : child ≠ a.current → (a.of child).isSome →
      Next (.call .wait elf) a { a with of := Function.update a.of child none }
  | other (a : Memories) (event : Event) (elf : Bytes) (current : Nat) :
      (∀ stack, event ≠ .fork stack) → event ≠ .exec → (a.of current).isSome →
      Next (.call event elf) a { a with current := current }

theorem Next.congr {move : Move} {a b c : Memories} (next : Next move a b)
    (current : b.current = c.current) (made : b.made = c.made) (of : ∀ t, b.of t = c.of t) :
    Next move a c := by
  obtain rfl := Memories.ext current made (funext of)
  exact next

/-- Init, with the image of its file. -/
def start (elf : Bytes) : Memories where
  current := 0
  made := 1
  of t := if t = 0 then some (imageOf elf) else none

end Memories

/-- A task that was made and not reaped. -/
def State.Alive (s : State) (t : Nat) : Prop := t < s.ntasks ∧ t ∉ s.freed

instance (s : State) (t : Nat) : Decidable (s.Alive t) := inferInstanceAs (Decidable (_ ∧ _))

/-- The memories are what the tasks that are alive read. -/
structure Remembers (m : Machine) (a : Memories) : Prop where
  current : a.current = m.kernel.current
  made : a.made = m.kernel.ntasks
  alive : ∀ t, (a.of t).isSome ↔ m.kernel.Alive t
  reads : ∀ t store, a.of t = some store → ∀ x, Private x →
    store x = m.vmm.view (m.kernel.tasks t).mm x

/-- The stores of the tasks' spaces. -/
def memoriesOf (s : State) (stores : Stores) : Memories where
  current := s.current
  made := s.ntasks
  of t := if s.Alive t then stores.space (s.tasks t).mm else none

theorem memoriesOf_of (s : State) (stores : Stores) (t : Nat) :
    (memoriesOf s stores).of t = if s.Alive t then stores.space (s.tasks t).mm else none := rfl

section Spaces

variable {stores : Stores} (coupled : Coupled rs s₀ m) (told : Shows m.vmm stores)

include coupled

theorem Coupled.memory_isSome (told : Shows m.vmm stores) :
    ((memoriesOf m.kernel stores).of t).isSome ↔ m.kernel.Alive t := by
  rw [memoriesOf_of]
  by_cases alive : m.kernel.Alive t
  · rw [if_pos alive]
    exact iff_of_true ((told.live _).mpr (coupled.live t alive.1 alive.2)) alive
  · rw [if_neg alive]
    exact iff_of_false Bool.false_ne_true alive

theorem Coupled.remembers (told : Shows m.vmm stores) : Remembers m (memoriesOf m.kernel stores) := by
  refine ⟨rfl, rfl, fun t => coupled.memory_isSome told, fun t store has x own => ?_⟩
  have alive : m.kernel.Alive t :=
    (coupled.memory_isSome told).mp (Option.isSome_iff_exists.mpr ⟨store, has⟩)
  rw [memoriesOf_of, if_pos alive] at has
  exact told.reads _ store has x own

/-- Different tasks have different spaces. -/
theorem Coupled.mm_ne {u : Nat} (aliveT : m.kernel.Alive t) (aliveU : m.kernel.Alive u)
    (ne : t ≠ u) : (m.kernel.tasks t).mm ≠ (m.kernel.tasks u).mm := fun same =>
  ne (coupled.distinct t aliveT.1 u aliveU.1 aliveT.2 aliveU.2 same)

/-- A space that is there is not the next one. -/
theorem Coupled.mm_ne_made (told : Shows m.vmm stores) (alive : m.kernel.Alive t) :
    (m.kernel.tasks t).mm ≠ stores.made := by
  rw [told.made]
  exact Nat.ne_of_lt (coupled.live t alive.1 alive.2).2.1

/-- A change of the current task's space is one of its memory. -/
theorem Coupled.change (f : Store → Store) : memoriesOf m.kernel (stores.modify m.mm f) =
    (memoriesOf m.kernel stores).change f := by
  refine Memories.ext rfl rfl (funext fun t => ?_)
  show _ = Function.update (memoriesOf m.kernel stores).of m.kernel.current
    (((memoriesOf m.kernel stores).of m.kernel.current).map f) t
  have here : m.kernel.Alive m.kernel.current := coupled.current
  by_cases now : t = m.kernel.current
  · subst now
    rw [Function.update_self, memoriesOf_of, memoriesOf_of, if_pos here, if_pos here]
    exact Stores.modify_self ..
  · rw [Function.update_of_ne now, memoriesOf_of, memoriesOf_of]
    by_cases alive : m.kernel.Alive t
    · rw [if_pos alive, if_pos alive]
      exact Stores.modify_of_ne f (coupled.mm_ne alive here now)
    · rw [if_neg alive, if_neg alive]

end Spaces

/-! ## Moves -/

/-- A call that gives no task another space and reaps none. -/
theorem memoriesOf_same {kernel : State} {stores : Stores} (same : SameMms m.kernel kernel) :
    memoriesOf kernel stores = { memoriesOf m.kernel stores with current := kernel.current } := by
  refine Memories.ext rfl same.ntasks (funext fun t => ?_)
  show _ = (memoriesOf m.kernel stores).of t
  have alive : kernel.Alive t ↔ m.kernel.Alive t := by
    rw [State.Alive, State.Alive, same.ntasks, same.freed]
  rw [memoriesOf_of, memoriesOf_of, same.mm]
  exact if_congr alive rfl rfl

namespace Coupled

variable {stores : Stores} (coupled : Coupled rs s₀ m) (told : Shows m.vmm stores)

include coupled told

/-- Such a call, whoever runs next. -/
theorem same_told {kernel : State} {event : Event} (same : SameMms m.kernel kernel)
    (ring : ∃ qs, RingInv kernel qs) (fork : ∀ stack, event ≠ .fork stack) (exec : event ≠ .exec) :
    Memories.Next (.call event elf) (memoriesOf m.kernel stores) (memoriesOf kernel stores) := by
  have after : Coupled rs s₀ ⟨kernel, m.vmm⟩ := coupled.same ring same
  rw [memoriesOf_same same]
  refine .other _ event elf kernel.current fork exec ((coupled.memory_isSome told).mpr ?_)
  have runs := after.current
  rwa [same.ntasks, same.freed] at runs

/-- `do_fork`. -/
theorem fork_told {kernel : State} {vmm : Vmm} {new : Nat}
    (ran : mmDupe rs m.mm m.vmm = .ok (new, vmm)) (met' : ¬ vmm.ranOut = true)
    (forked : schedFork m.kernel m.kernel.current stack = .ok kernel) :
    ∃ stores', Shows vmm stores' ∧
      Memories.Next (.call (.fork stack) elf) (memoriesOf m.kernel stores) (memoriesOf kernel stores') := by
  obtain ⟨lists, areas, spaces⟩ := coupled.spaces
  have copied : Shows vmm (stores.next (.mmDupe m.mm)) :=
    spaces.told_step told met' coupled.mm_live (congrArg (Except.map Prod.snd) ran)
  refine ⟨_, copied, ?_⟩
  obtain ⟨mms, ntasks, nmms, freed⟩ := schedFork_mms forked
  have current := (schedFork_spec forked).current
  obtain ⟨qs, ring⟩ := coupled.ring
  have here : m.kernel.Alive m.kernel.current := coupled.current
  have unfreed : m.kernel.ntasks ∉ m.kernel.freed := fun mem =>
    Nat.lt_irrefl _ (ring.toBlocked.freed _ mem).1
  refine (Memories.Next.fork (memoriesOf m.kernel stores) stack elf).congr current.symm ntasks.symm
    fun t => ?_
  show Function.update (memoriesOf m.kernel stores).of m.kernel.ntasks
    ((memoriesOf m.kernel stores).of m.kernel.current) t = _
  have alive' : kernel.Alive t ↔ t < m.kernel.ntasks + 1 ∧ t ∉ m.kernel.freed := by
    rw [State.Alive, ntasks, freed]
  rw [memoriesOf_of kernel, mms]
  by_cases now : t = m.kernel.ntasks
  · subst now
    rw [Function.update_self, memoriesOf_of, if_pos here,
      if_pos (alive'.mpr ⟨Nat.lt_succ_self _, unfreed⟩), if_pos rfl, coupled.nmms, ← told.made]
    exact (Stores.add_self ..).symm
  · rw [Function.update_of_ne now, memoriesOf_of, if_neg now]
    by_cases alive : m.kernel.Alive t
    · rw [if_pos alive, if_pos (alive'.mpr ⟨Nat.lt_succ_of_lt alive.1, alive.2⟩)]
      exact (Stores.add_of_ne _ (coupled.mm_ne_made told alive)).symm
    · rw [if_neg alive, if_neg]
      intro both
      obtain ⟨lt, out⟩ := alive'.mp both
      exact alive ⟨by omega, out⟩

omit coupled told in
/-- `mm_free`, while another space stays. -/
theorem free_told {vmm vmm' : Vmm} {k j : Nat} {lists areas : Nat → List Nat} {a : Stores}
    (above : ∀ r ∈ rs.regions, 0 < r.start) (spaces : Spaces rs vmm lists areas)
    (told : Shows vmm a) (live : vmm.Live k) (other : vmm.Live j) (ne : j ≠ k)
    (ran : mmFree rs k vmm = .ok ((), vmm')) (met' : ¬ vmm'.ranOut = true) :
    Shows vmm' (a.next (.mmFree k)) :=
  have permitted : Vmm.Permitted rs (.mmFree k) vmm := ⟨live, ⟨j, ne, other⟩, above⟩
  spaces.told_step told met' permitted (congrArg (Except.map Prod.snd) ran)

/-- `sched_exec`. -/
theorem exec_told {vmm : Vmm} {new : Nat} (above : ∀ r ∈ rs.regions, 0 < r.start)
    (user : UserSegments elf) (fits : FileFits elf)
    (ran : Fs.schedExec rs m.mm elf m.vmm = .ok (new, vmm)) (met' : ¬ vmm.ranOut = true) :
    ∃ stores', Shows vmm stores' ∧ Memories.Next (.call .exec elf) (memoriesOf m.kernel stores)
      (memoriesOf (Kernel.schedExec m.kernel m.kernel.current) stores') := by
  obtain ⟨lists, areas, spaces⟩ := coupled.spaces
  obtain ⟨_, v, made, ran⟩ := Budget.bind_eq_ok.mp ran
  obtain ⟨_, w, freed, ran⟩ := Budget.bind_eq_ok.mp ran
  cases ran
  have metV : ¬ v.ranOut = true := fun out => met' (sticky_mmFree (M := meter rs) v _ vmm freed out)
  obtain ⟨_, executed⟩ := execElf_done spaces user fits made metV
  have loaded := execElf_told spaces told user fits made metV
  obtain ⟨lists', areas', spacesV, _⟩ := executed.spaces
  have grown : ∀ {k}, v.Live k ↔ m.vmm.Live k ∨ k = m.vmm.nmms :=
    spaces.live_succ executed.nmms executed.freed
  have fresh : m.vmm.nmms ≠ m.mm := Nat.ne_of_gt coupled.mm_live.2.1
  have left := free_told above spacesV loaded (grown.mpr (.inl coupled.mm_live))
    (grown.mpr (.inr rfl)) fresh freed met'
  refine ⟨_, left, ?_⟩
  obtain ⟨mms, ntasks, nmms, same⟩ := schedExec_mms m.kernel m.kernel.current
  have here : m.kernel.Alive m.kernel.current := coupled.current
  refine (Memories.Next.exec (memoriesOf m.kernel stores) elf).congr rfl rfl fun t => ?_
  have alive' : (Kernel.schedExec m.kernel m.kernel.current).Alive t ↔ m.kernel.Alive t := by
    rw [State.Alive, State.Alive, ntasks, same]
  show Function.update (memoriesOf m.kernel stores).of m.kernel.current
    (((memoriesOf m.kernel stores).of m.kernel.current).map fun _ => imageOf elf) t = _
  rw [memoriesOf_of (Kernel.schedExec _ _), mms]
  show _ = if _ then Function.update (stores.add (some (imageOf elf))).space m.mm none _ else none
  by_cases now : t = m.kernel.current
  · subst now
    obtain ⟨store, has⟩ := Option.isSome_iff_exists.mp ((coupled.memory_isSome told).mpr here)
    rw [Function.update_self, has, if_pos (alive'.mpr here), if_pos rfl, coupled.nmms,
      Function.update_of_ne fresh, ← told.made, Stores.add_self]
    rfl
  · rw [Function.update_of_ne now, memoriesOf_of, if_neg now]
    by_cases alive : m.kernel.Alive t
    · have other : (m.kernel.tasks t).mm ≠ m.mm := coupled.mm_ne alive here now
      rw [if_pos alive, if_pos (alive'.mpr alive), Function.update_of_ne other,
        Stores.add_of_ne _ (coupled.mm_ne_made told alive)]
    · rw [if_neg alive, if_neg fun both => alive (alive'.mp both)]

/-- `do_wait` that reaps. -/
theorem reap_told {kernel : State} {vmm : Vmm} {c : Nat} (above : ∀ r ∈ rs.regions, 0 < r.start)
    (found : findZombie m.kernel m.kernel.ntasks (m.kernel.tasks m.kernel.current).children =
      .ok (some c)) (once : c ∉ m.kernel.freed)
    (ran : mmFree rs (m.kernel.tasks c).mm m.vmm = .ok ((), vmm)) (met' : ¬ vmm.ranOut = true)
    (current : kernel.current = m.kernel.current)
    (mms : ∀ t, (kernel.tasks t).mm = (m.kernel.tasks t).mm)
    (ntasks : kernel.ntasks = m.kernel.ntasks) (freed : kernel.freed = c :: m.kernel.freed) :
    ∃ stores', Shows vmm stores' ∧
      Memories.Next (.call .wait elf) (memoriesOf m.kernel stores) (memoriesOf kernel stores') := by
  obtain ⟨lists, areas, spaces⟩ := coupled.spaces
  have here : m.kernel.Alive m.kernel.current := coupled.current
  have child : m.kernel.Alive c := ⟨(findZombie_zombie found).1, once⟩
  have ne := coupled.ne_zombie found
  have left := free_told above spaces told (coupled.live c child.1 child.2) coupled.mm_live
    (coupled.mm_ne here child ne.symm) ran met'
  refine ⟨_, left, ?_⟩
  refine (Memories.Next.reap (memoriesOf m.kernel stores) elf c ne
    ((coupled.memory_isSome told).mpr child)).congr current.symm ntasks.symm fun t => ?_
  have alive' : kernel.Alive t ↔ m.kernel.Alive t ∧ t ≠ c := by
    rw [State.Alive, State.Alive, ntasks, freed, List.mem_cons, not_or]
    tauto
  show Function.update (memoriesOf m.kernel stores).of c none t = _
  rw [memoriesOf_of kernel, mms]
  show _ = if _ then Function.update stores.space (m.kernel.tasks c).mm none _ else none
  by_cases now : t = c
  · subst now
    rw [Function.update_self, if_neg fun both => (alive'.mp both).2 rfl]
  · rw [Function.update_of_ne now, memoriesOf_of]
    by_cases alive : m.kernel.Alive t
    · rw [if_pos alive, if_pos (alive'.mpr ⟨alive, now⟩),
        Function.update_of_ne (coupled.mm_ne alive child now)]
    · rw [if_neg alive, if_neg fun both => alive (alive'.mp both).1]

/-- A byte stored by the current task. -/
theorem store_told {virt : Nat} {byte : BitVec 8} (orderly : m.Orderly (.store virt byte))
    (taken : Machine.step rs (.store virt byte) m = .ok m') :
    ∃ stores', Shows m'.vmm stores' ∧ Memories.Next (.store virt byte) (memoriesOf m.kernel stores)
      (memoriesOf m'.kernel stores') := by
  obtain ⟨lists, areas, spaces⟩ := coupled.spaces
  obtain ⟨r, listed, type, has⟩ := orderly
  cases taken
  have live := coupled.mm_live
  have mem := (spaces.mem_areasOf live).mp ⟨listed, type⟩
  refine ⟨_, spaces.write_shows live mem has told, ?_⟩
  show Memories.Next _ _ (memoriesOf m.kernel (stores.modify m.mm _))
  rw [coupled.change]
  exact .store _ virt byte

end Coupled

/-- The invariant of the two parts, and the memories. -/
def Carries (rs : RegionTable) (s₀ : Vmm) (m : Machine) (a : Memories) : Prop :=
  Coupled rs s₀ m ∧ ∃ stores, Shows m.vmm stores ∧ a = memoriesOf m.kernel stores

/-- A move is a step of the memories. -/
theorem Coupled.next {move : Move} {stores : Stores} (above : ∀ r ∈ rs.regions, 0 < r.start)
    (coupled : Coupled rs s₀ m) (told : Shows m.vmm stores) (orderly : m.Orderly move)
    (fits : move.Fits) (taken : Machine.step rs move m = .ok m') (met' : ¬ m'.vmm.ranOut = true) :
    ∃ stores', Shows m'.vmm stores' ∧
      Memories.Next move (memoriesOf m.kernel stores) (memoriesOf m'.kernel stores') := by
  cases move with
  | store virt byte => exact coupled.store_told told orderly taken
  | call event elf =>
    obtain ⟨⟨_, vmm⟩, worked, taken⟩ := bind_eq_ok.mp taken
    obtain ⟨kernel, stepped, taken⟩ := bind_eq_ok.mp taken
    cases taken
    obtain ⟨qs, ring⟩ := coupled.ring
    have ring' : ∃ qs, RingInv kernel qs := ring.step stepped
    have quiet : vmm = m.vmm → SameMms m.kernel kernel →
        (∀ stack, event ≠ .fork stack) ∧ event ≠ .exec → ∃ stores', Shows vmm stores' ∧
          Memories.Next (.call event elf) (memoriesOf m.kernel stores) (memoriesOf kernel stores') := by
      rintro rfl same ⟨fork, exec⟩
      exact ⟨stores, told, coupled.same_told told same ring' fork exec⟩
    cases event with
    | fork stack =>
      obtain ⟨_, _, ran, done⟩ := Budget.bind_eq_ok.mp worked
      cases done
      exact coupled.fork_told told ran met' stepped
    | exec =>
      obtain ⟨_, _, ran, done⟩ := Budget.bind_eq_ok.mp worked
      cases done
      cases stepped
      exact coupled.exec_told told above orderly fits ran met'
    | wait =>
      rcases doWait_inv stepped with ⟨found, slept⟩ | ⟨c, found, left⟩
      · simp only [spaceWork, found] at worked
        cases worked
        have marked := sameMms_modifyTask m.kernel m.kernel.current
          (f := fun x => { x with state := .waiting }) fun _ => rfl
        exact quiet rfl (marked.trans (scheduleSleep_schedOnly slept).sameMms) (by simp)
      · simp only [spaceWork, found] at worked
        rw [taskFree_frame] at left
        subst left
        exact coupled.reap_told told above found (orderly c found) worked met' rfl (fun _ => rfl) rfl rfl
    | exit status =>
      cases worked
      exact quiet rfl (doExit_sameMms stepped) (by simp)
    | read =>
      cases worked
      exact quiet rfl (stdinRead_sameMms stepped) (by simp)
    | readResume n =>
      cases worked
      cases stepped
      exact quiet rfl (stdinReadResume_sameMms m.kernel n) (by simp)
    | key pressed =>
      cases worked
      exact quiet rfl (ttySendKey_sameMms stepped) (by simp)
    | tick =>
      cases worked
      exact quiet rfl (schedMaybePreempt_schedOnly stepped).sameMms (by simp)
    | schedule =>
      cases worked
      exact quiet rfl (schedule_schedOnly stepped).sameMms (by simp)
    | open_ ino mode =>
      cases worked
      exact quiet rfl (doOpen_sameMms stepped) (by simp)
    | close fd =>
      cases worked
      exact quiet rfl (doClose_sameMms stepped) (by simp)

/-! ## Every run -/

theorem memories_simulated (above : ∀ r ∈ rs.regions, 0 < r.start) :
    Simulates (Machine.step rs) (fun move m => m.Orderly move ∧ move.Fits)
      (fun m => m.vmm.ranOut = true) Memories.Next (Carries rs s₀) where
  sticky _ _ _ taken := Machine.step_sticky (M := meter rs) taken
  step := by
    rintro move m m' a met met' ⟨coupled, stores, told, rfl⟩ ⟨orderly, fits⟩ taken
    obtain ⟨stores', told', next⟩ := coupled.next above told orderly fits taken met'
    exact ⟨_, next, coupled.step above orderly fits taken met', stores', told', rfl⟩

/-- **Processes have private memories.** From `kernel_mm_init` and the `exec_elf` of init on, any
moves in any order in which frames do not run out are moves of the specification: a store changes one
byte of the current task's memory and of no other, `fork` copies, `exec` loads the image of the file,
and what every task that is alive reads at an address that is not the kernel's is its memory. -/
theorem machine_refines_memories (rs : RegionTable) (mem elf : Bytes) (stack mm : Nat) (s₀ v : Vmm)
    (m : Machine) (moves : List Move) (above : ∀ r ∈ rs.regions, 0 < r.start)
    (booted : kernelMmInit rs 0 (Vmm.boot rs mem) = .ok ((), s₀))
    (init : execElf rs elf s₀ = .ok (mm, v)) (user : UserSegments elf) (fits : FileFits elf)
    (orderly : Guarded (Machine.step rs) (fun move m => m.Orderly move ∧ move.Fits)
      ⟨startInit stack, v⟩ moves)
    (ran : follow (Machine.step rs) ⟨startInit stack, v⟩ moves = .ok m)
    (met : m.vmm.ranOut = false) :
    ∃ a, Leads Memories.Next (Memories.start elf) moves a ∧ Remembers m a := by
  have met' : ¬ m.vmm.ranOut = true := ne_true_of_eq_false met
  have simulated : Simulates (Machine.step rs) _ _ _ (Carries rs s₀) := memories_simulated above
  have metV : ¬ v.ranOut = true := simulated.before ran met'
  have met₀ : ¬ s₀.ranOut = true := fun out => metV (sticky_execElf (M := meter rs) s₀ _ v init out)
  obtain ⟨spaces, _, first⟩ := (kernelMmInit_runs rs mem).safe booted met₀
  have coupled : Coupled rs s₀ ⟨startInit stack, v⟩ := .start spaces first init user fits metV
  have told := execElf_told spaces (shows_boot first) user fits init metV
  have begun : Memories.start elf = memoriesOf (startInit stack) (Stores.boot.add (imageOf elf)) := by
    refine Memories.ext rfl rfl (funext fun t => ?_)
    rw [memoriesOf_of]
    by_cases zero : t = 0
    · subst zero
      rfl
    · rw [if_neg fun alive => zero (Nat.lt_one_iff.mp alive.1)]
      exact if_neg zero
  obtain ⟨a, leads, coupled', stores, told', rfl⟩ :=
    (memories_simulated above).follow orderly ran met' ⟨coupled, _, told, begun⟩
  exact ⟨_, leads, coupled'.remembers told'⟩

/-- Init, with one page of code, forks: both tasks have the stack of the image. -/
theorem machine_refines_memories_fork : ∃ s₀ v m,
    kernelMmInit wideTable 0 (Vmm.boot wideTable fun _ => 0) = .ok ((), s₀) ∧
      execElf wideTable (elfOf (fun _ => 0) 0x400000 0x1000 0x1000) s₀ = .ok (1, v) ∧
      Machine.step wideTable (.call (.fork 0) fun _ => 0) ⟨startInit 0, v⟩ = .ok m ∧
      m.kernel.Alive 0 ∧ m.kernel.Alive 1 ∧
      m.vmm.view (m.kernel.tasks 0).mm userStackBase = some 0 ∧
      m.vmm.view (m.kernel.tasks 1).mm userStackBase = some 0 := by
  obtain ⟨s₀, v, m, booted, ran, taken, _, met⟩ := wide_forked
  obtain ⟨user, fits, _⟩ := elfOf_user fun _ => 0
  obtain ⟨a, leads, remembers⟩ := machine_refines_memories wideTable (fun _ => 0) _ 0 1 s₀ v m
    [.call (.fork 0) fun _ => 0] wide_above booted ran user fits
    (.cons taken ⟨trivial, trivial⟩ trivial) (follow_cons taken []) met
  generalize elfOf (fun _ => 0) 0x400000 0x1000 0x1000 = elf at ran leads
  have own : Private userStackBase := private_of_user (by decide)
  have stack : imageOf elf userStackBase = some 0 := rfl
  cases leads with
  | cons first rest =>
    cases rest
    cases first with
    | fork =>
      refine ⟨s₀, v, m, booted, ran, taken, (remembers.alive 0).mp rfl, (remembers.alive 1).mp rfl, ?_, ?_⟩
      · rw [← stack]
        exact (remembers.reads 0 _ rfl _ own).symm
      · rw [← stack]
        exact (remembers.reads 1 _ rfl _ own).symm
    | other _ _ _ _ other => exact absurd rfl (other 0)

end Blackcomb.Kernel
