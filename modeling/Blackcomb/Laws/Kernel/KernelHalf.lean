import Blackcomb.Kernel.Machine
import Blackcomb.Laws.Kernel.Mms
import Blackcomb.Laws.Fs.Spaces

/-!
# The kernel half of every address space

Every space has its own copy of the tables of the kernel's pages. In every state of every run of the
machine, from `kernel_mm_init` and the `exec_elf` of init on, the copies agree with `kernel_mm`, which
does not change. The invariant couples the two parts of the machine: a task that was not reaped has a
live space, and no two tasks have the same one.
-/

namespace Blackcomb.Kernel

open Memory Run Budget Mm Fs

variable {rs : RegionTable} {s₀ v : Vmm} {m m' : Machine} {elf : Bytes} {stack : Nat}
  {lists areas : Nat → List Nat}

/-! ## The law -/

/-- `kernel_mm` has not changed since `s₀`. -/
structure KernelSame (s₀ s : Vmm) : Prop where
  mm : s.mms 0 = s₀.mms 0
  slots : ∀ p, p.length ≤ 4 → s.slot 0 p = s₀.slot 0 p
  lis : ∀ l < 3, s.lis l = s₀.lis l
  areas : ∀ a < 3, (s.vmas a).shape = (s₀.vmas a).shape

/-- The pages of the kernel's areas have, in every live space, the entries of `kernel_mm`; none is
for user mode; and `kernel_mm` has not changed since `s₀`. -/
structure KernelHalf (s₀ s : Vmm) : Prop where
  space : ∀ mm, s.Live mm → ∀ a < 3, ∀ virt, (s.vmas a).Has virt →
    s.leafEntry mm virt = s.leafEntry 0 virt
  user : ∀ mm, s.Live mm → ∀ a < 3, ∀ virt, (s.vmas a).Has virt →
    s.leafEntry mm virt &&& pageUser = 0
  kernel : KernelSame s₀ s

/-- The invariant of `kernel_mm`, which is all constants but for the tables. -/
theorem kernelSame {lists₀ areas₀ : Nat → List Nat} (before : Spaces rs s₀ lists₀ areas₀)
    (spaces : Spaces rs v lists areas) (slots : ∀ p, p.length ≤ 4 → v.slot 0 p = s₀.slot 0 p) :
    KernelSame s₀ v := by
  refine ⟨?_, slots, fun l lt => ?_, fun a lt => ?_⟩
  · have p4 : (v.mms 0).p4 = (s₀.mms 0).p4 := slots [] (Nat.zero_le 4)
    have head := spaces.kernel.head.trans before.kernel.head.symm
    have eta : ∀ x : MmStruct, x = ⟨x.p4, x.vmAreas⟩ := fun _ => rfl
    rw [eta (v.mms 0), p4, head]
  · obtain ⟨zero, one, two⟩ := spaces.kernel.lis
    obtain ⟨zero₀, one₀, two₀⟩ := before.kernel.lis
    obtain rfl | rfl | rfl : l = 0 ∨ l = 1 ∨ l = 2 := by omega
    · rw [zero, zero₀]
    · rw [one, one₀]
    · rw [two, two₀]
  · rw [spaces.kernel.shape a lt, before.kernel.shape a lt]

theorem kernelHalf_of_spaces {lists₀ areas₀ : Nat → List Nat} (before : Spaces rs s₀ lists₀ areas₀)
    (spaces : Spaces rs v lists areas) (slots : ∀ p, p.length ≤ 4 → v.slot 0 p = s₀.slot 0 p) :
    KernelHalf s₀ v := by
  have entry : ∀ mm, v.Live mm → ∀ a < 3, ∀ virt, (v.vmas a).Has virt →
      v.leafEntry mm virt = v.slot 0 (pathOf virt) := by
    intro mm live a static virt has
    obtain ⟨inside, there, _⟩ := spaces.kernel.entry static has
    have same := (spaces.space mm live).kernel a static _ inside
    rw [leafEntry_eq spaces.tables.layout virt (by rwa [same]), same]
  refine ⟨fun mm live a static virt has => ?_, fun mm live a static virt has => ?_,
    kernelSame before spaces slots⟩
  · obtain ⟨_, there, _⟩ := spaces.kernel.entry static has
    rw [entry mm live a static virt has, leafEntry_eq spaces.tables.layout virt there]
  · obtain ⟨_, _, flags⟩ := spaces.kernel.entry static has
    rw [entry mm live a static virt has, and_flags (by decide), flags]
    rfl

/-! ## The machine -/

/-- The runs of the law: `exec` gets a file whose segments lie in the user half and share no page
with each other and with the stack; `do_wait` does not find a task that was reaped before; a byte is
stored in a regular area. -/
def Machine.Orderly : Move → Machine → Prop
  | .call .exec elf, _ => UserSegments elf
  | .call .wait _, m => ∀ c, findZombie m.kernel m.kernel.ntasks
      (m.kernel.tasks m.kernel.current).children = .ok (some c) → c ∉ m.kernel.freed
  | .call _ _, _ => True
  | .store virt _, m =>
      ∃ r ∈ m.vmm.areasOf m.mm, (m.vmm.vmas r).type = .reg ∧ (m.vmm.vmas r).Has virt

/-- No segment that `exec` gets has more bytes in the file than its pages hold. -/
def Move.Fits : Move → Prop
  | .call .exec elf => FileFits elf
  | _ => True

/-- The two parts of the machine agree: a task that was not reaped has a live space, and no two have
the same. -/
structure Coupled (rs : RegionTable) (s₀ : Vmm) (m : Machine) : Prop where
  ring : ∃ qs, RingInv m.kernel qs
  spaces : ∃ lists areas, Spaces rs m.vmm lists areas
  nmms : m.kernel.nmms = m.vmm.nmms
  live : ∀ t < m.kernel.ntasks, t ∉ m.kernel.freed → m.vmm.Live (m.kernel.tasks t).mm
  distinct : ∀ t < m.kernel.ntasks, ∀ u < m.kernel.ntasks, t ∉ m.kernel.freed → u ∉ m.kernel.freed →
    (m.kernel.tasks t).mm = (m.kernel.tasks u).mm → t = u
  slots : ∀ p, p.length ≤ 4 → m.vmm.slot 0 p = s₀.slot 0 p

namespace Coupled

/-- The current task was not reaped. -/
theorem current (coupled : Coupled rs s₀ m) :
    m.kernel.current < m.kernel.ntasks ∧ m.kernel.current ∉ m.kernel.freed := by
  obtain ⟨qs, ring⟩ := coupled.ring
  have runnable := ring.current_runnable
  exact ⟨runnable.1, runnable.2.1⟩

theorem mm_live (coupled : Coupled rs s₀ m) : m.vmm.Live m.mm :=
  coupled.live _ coupled.current.1 coupled.current.2

/-- A task that `do_wait` finds is not the current one. -/
theorem ne_zombie {fuel c : Nat} {p : Option Nat} (coupled : Coupled rs s₀ m)
    (found : findZombie m.kernel fuel p = .ok (some c)) : c ≠ m.kernel.current := by
  obtain ⟨qs, ring⟩ := coupled.ring
  rintro rfl
  exact ring.current_runnable.2.2.1 (findZombie_zombie found).2

/-- A call that no space is about. -/
theorem same {kernel : State} (coupled : Coupled rs s₀ m) (ring : ∃ qs, RingInv kernel qs)
    (same : SameMms m.kernel kernel) : Coupled rs s₀ ⟨kernel, m.vmm⟩ := by
  refine ⟨ring, coupled.spaces, ?_, fun t lt out => ?_, fun t ltT u ltU outT outU eq => ?_,
    coupled.slots⟩
  · rw [same.nmms]
    exact coupled.nmms
  · rw [same.ntasks] at lt
    rw [same.freed] at out
    rw [same.mm]
    exact coupled.live t lt out
  · rw [same.ntasks] at ltT ltU
    rw [same.freed] at outT outU
    rw [same.mm, same.mm] at eq
    exact coupled.distinct t ltT u ltU outT outU eq

/-- A task that gets the next space has it alone. -/
theorem distinct_new {t u x : Nat} (coupled : Coupled rs s₀ m)
    (old : t ≠ x → t < m.kernel.ntasks ∧ t ∉ m.kernel.freed)
    (old' : u ≠ x → u < m.kernel.ntasks ∧ u ∉ m.kernel.freed)
    (eq : (if t = x then m.kernel.nmms else (m.kernel.tasks t).mm) =
      if u = x then m.kernel.nmms else (m.kernel.tasks u).mm) : t = u := by
  have earlier : ∀ y, y < m.kernel.ntasks ∧ y ∉ m.kernel.freed →
      (m.kernel.tasks y).mm ≠ m.kernel.nmms := by
    rintro y ⟨lt, out⟩
    rw [coupled.nmms]
    exact Nat.ne_of_lt (coupled.live y lt out).2.1
  by_cases newT : t = x
  · by_cases newU : u = x
    · rw [newT, newU]
    · rw [if_pos newT, if_neg newU] at eq
      exact absurd eq.symm (earlier u (old' newU))
  · rw [if_neg newT] at eq
    by_cases newU : u = x
    · rw [if_pos newU] at eq
      exact absurd eq (earlier t (old newT))
    · rw [if_neg newU] at eq
      exact coupled.distinct t (old newT).1 u (old' newU).1 (old newT).2 (old' newU).2 eq

/-- `do_fork` and `mm_dupe`. -/
theorem fork {kernel : State} {vmm : Vmm} {new : Nat} (coupled : Coupled rs s₀ m)
    (ran : mmDupe rs m.mm m.vmm = .ok (new, vmm)) (met' : ¬ vmm.ranOut = true)
    (forked : schedFork m.kernel m.kernel.current stack = .ok kernel)
    (ring : ∃ qs, RingInv kernel qs) : Coupled rs s₀ ⟨kernel, vmm⟩ := by
  obtain ⟨lists, areas, spaces⟩ := coupled.spaces
  have met : ¬ m.vmm.ranOut = true := fun out => met' (sticky_mmDupe (M := meter rs) m.vmm _ vmm ran out)
  obtain ⟨_, lists', areas', copying⟩ := (mmDupe_runs spaces met coupled.mm_live).safe ran met'
  have alive : ∀ {k}, vmm.Live k ↔ m.vmm.Live k ∨ k = m.vmm.nmms := copying.live_iff spaces
  obtain ⟨mms, ntasks, nmms, freed⟩ := schedFork_mms forked
  refine ⟨ring, ⟨lists', areas', copying.spaces⟩, ?_, fun t lt out => ?_,
    fun t ltT u ltU outT outU eq => ?_, fun p short => ?_⟩
  · rw [nmms, coupled.nmms]
    exact copying.nmms.symm
  · rw [ntasks] at lt
    rw [freed] at out
    rw [mms t, alive]
    split
    · exact .inr coupled.nmms
    · exact .inl (coupled.live t (by omega) out)
  · rw [ntasks] at ltT ltU
    rw [freed] at outT outU
    rw [mms t, mms u] at eq
    exact coupled.distinct_new (fun ne => ⟨by omega, outT⟩) (fun ne => ⟨by omega, outU⟩) eq
  · rw [← coupled.slots p short]
    exact copying.slots 0 p short (Nat.ne_of_lt spaces.kernel.named.1)

/-- `mm_free` of a live space, while another one stays. -/
theorem free {k j : Nat} {vmm vmm' : Vmm} (above : ∀ r ∈ rs.regions, 0 < r.start)
    (spaces : Spaces rs vmm lists areas) (live : vmm.Live k) (other : vmm.Live j) (ne : j ≠ k)
    (ran : mmFree rs k vmm = .ok ((), vmm')) (met' : ¬ vmm'.ranOut = true) :
    Spaces rs vmm' lists areas ∧ vmm'.nmms = vmm.nmms ∧
      (∀ {i}, vmm'.Live i ↔ vmm.Live i ∧ i ≠ k) ∧
      ∀ p, p.length ≤ 4 → vmm'.slot 0 p = vmm.slot 0 p := by
  have met : ¬ vmm.ranOut = true := fun out => met' (sticky_mmFree (M := meter rs) vmm _ vmm' ran out)
  obtain ⟨spaces', slots, nmms, freed⟩ :=
    (mmFree_runs spaces live above met ⟨j, ne, other⟩).safe ran met'
  exact ⟨spaces', nmms, Vmm.live_cons nmms freed, fun p short =>
    slots 0 p short (Nat.ne_of_lt live.1)⟩

/-- `sched_exec`. -/
theorem exec {vmm : Vmm} {new : Nat} (above : ∀ r ∈ rs.regions, 0 < r.start)
    (coupled : Coupled rs s₀ m) (user : UserSegments elf) (fits : FileFits elf)
    (ran : Fs.schedExec rs m.mm elf m.vmm = .ok (new, vmm)) (met' : ¬ vmm.ranOut = true) :
    Coupled rs s₀ ⟨schedExec m.kernel m.kernel.current, vmm⟩ := by
  obtain ⟨lists, areas, spaces⟩ := coupled.spaces
  obtain ⟨_, v, made, ran⟩ := Budget.bind_eq_ok.mp ran
  obtain ⟨_, w, freed, ran⟩ := Budget.bind_eq_ok.mp ran
  cases ran
  have metV : ¬ v.ranOut = true := fun out => met' (sticky_mmFree (M := meter rs) v _ vmm freed out)
  obtain ⟨_, executed⟩ := execElf_done spaces user fits made metV
  obtain ⟨lists', areas', spacesV, _⟩ := executed.spaces
  have grown : ∀ {k}, v.Live k ↔ m.vmm.Live k ∨ k = m.vmm.nmms :=
    spaces.live_succ executed.nmms executed.freed
  have fresh : m.vmm.nmms ≠ m.mm := Nat.ne_of_gt coupled.mm_live.2.1
  obtain ⟨spaces', nmms', alive, slots⟩ := free above spacesV (grown.mpr (.inl coupled.mm_live))
    (grown.mpr (.inr rfl)) fresh freed met'
  obtain ⟨mms, ntasks, nmms, same⟩ := schedExec_mms m.kernel m.kernel.current
  obtain ⟨qs, ring⟩ := coupled.ring
  refine ⟨⟨qs, ring.exec _⟩, ⟨lists', areas', spaces'⟩, ?_, fun t lt out => ?_,
    fun t ltT u ltU outT outU eq => ?_, fun p short => ?_⟩
  · rw [nmms, coupled.nmms]
    exact (nmms'.trans executed.nmms).symm
  · rw [ntasks] at lt
    rw [same] at out
    rw [mms t, alive, grown]
    split
    · rw [coupled.nmms]
      exact ⟨.inr rfl, fresh⟩
    · rename_i ne
      exact ⟨.inl (coupled.live t lt out), fun eq =>
        ne (coupled.distinct t lt _ coupled.current.1 out coupled.current.2 eq)⟩
  · rw [ntasks] at ltT ltU
    rw [same] at outT outU
    rw [mms t, mms u] at eq
    exact coupled.distinct_new (fun _ => ⟨ltT, outT⟩) (fun _ => ⟨ltU, outU⟩) eq
  · rw [slots p short, executed.slots 0 p short (Nat.ne_of_lt spaces.kernel.named.1)]
    exact coupled.slots p short

/-- `do_wait` that reaps, and `task_free`. -/
theorem reap {kernel : State} {vmm : Vmm} {c : Nat} (above : ∀ r ∈ rs.regions, 0 < r.start)
    (coupled : Coupled rs s₀ m)
    (found : findZombie m.kernel m.kernel.ntasks (m.kernel.tasks m.kernel.current).children =
      .ok (some c)) (once : c ∉ m.kernel.freed)
    (ran : mmFree rs (m.kernel.tasks c).mm m.vmm = .ok ((), vmm)) (met' : ¬ vmm.ranOut = true)
    (ring : ∃ qs, RingInv kernel qs) (mms : ∀ t, (kernel.tasks t).mm = (m.kernel.tasks t).mm)
    (ntasks : kernel.ntasks = m.kernel.ntasks) (nmms : kernel.nmms = m.kernel.nmms)
    (freed : kernel.freed = c :: m.kernel.freed) : Coupled rs s₀ ⟨kernel, vmm⟩ := by
  obtain ⟨lists, areas, spaces⟩ := coupled.spaces
  have exists_ := (findZombie_zombie found).1
  have differ : ∀ t, t < m.kernel.ntasks → t ∉ m.kernel.freed → t ≠ c →
      (m.kernel.tasks t).mm ≠ (m.kernel.tasks c).mm := fun t lt out ne eq =>
    ne (coupled.distinct t lt c exists_ out once eq)
  obtain ⟨spaces', nmms', alive, slots⟩ := free above spaces (coupled.live c exists_ once)
    coupled.mm_live (differ _ coupled.current.1 coupled.current.2 (coupled.ne_zombie found).symm) ran
    met'
  refine ⟨ring, ⟨lists, areas, spaces'⟩, ?_, fun t lt out => ?_,
    fun t ltT u ltU outT outU eq => ?_, fun p short => ?_⟩
  · rw [nmms, coupled.nmms]
    exact nmms'.symm
  · rw [ntasks] at lt
    rw [freed, List.mem_cons, not_or] at out
    rw [mms, alive]
    exact ⟨coupled.live t lt out.2, differ t lt out.2 out.1⟩
  · rw [ntasks] at ltT ltU
    rw [freed, List.mem_cons, not_or] at outT outU
    rw [mms, mms] at eq
    exact coupled.distinct t ltT u ltU outT.2 outU.2 eq
  · rw [slots p short]
    exact coupled.slots p short

/-- A byte stored by the current task. -/
theorem store {r virt : Nat} (byte : BitVec 8) (coupled : Coupled rs s₀ m)
    (listed : r ∈ m.vmm.areasOf m.mm) (type : (m.vmm.vmas r).type = .reg)
    (has : (m.vmm.vmas r).Has virt) : Coupled rs s₀ ⟨m.kernel,
      m.vmm.setMem (Function.update m.vmm.frames.mem (m.vmm.translate m.mm virt) byte)⟩ := by
  obtain ⟨lists, areas, spaces⟩ := coupled.spaces
  have live := coupled.mm_live
  have mem := (spaces.mem_areasOf live).mp ⟨listed, type⟩
  have inside := ((spaces.space _ live).regular r mem).inArea has
  obtain ⟨spaces', slots⟩ := spaces.write live byte mem inside
  refine ⟨coupled.ring, ⟨lists, areas, spaces'⟩, coupled.nmms, coupled.live, coupled.distinct,
    fun p short => ?_⟩
  rw [slots 0 p short]
  exact coupled.slots p short

/-- A step keeps the invariant. -/
theorem step {move : Move} (above : ∀ r ∈ rs.regions, 0 < r.start) (coupled : Coupled rs s₀ m)
    (orderly : m.Orderly move) (fits : move.Fits) (taken : Machine.step rs move m = .ok m')
    (met' : ¬ m'.vmm.ranOut = true) : Coupled rs s₀ m' := by
  cases move with
  | store virt byte =>
    obtain ⟨r, listed, type, has⟩ := orderly
    cases taken
    exact coupled.store byte listed type has
  | call event elf =>
    obtain ⟨⟨_, vmm⟩, worked, taken⟩ := bind_eq_ok.mp taken
    obtain ⟨kernel, stepped, taken⟩ := bind_eq_ok.mp taken
    cases taken
    obtain ⟨qs, ring⟩ := coupled.ring
    have ring' : ∃ qs, RingInv kernel qs := ring.step stepped
    cases event with
    | fork stack =>
      obtain ⟨_, _, ran, done⟩ := Budget.bind_eq_ok.mp worked
      cases done
      exact coupled.fork ran met' stepped ring'
    | exec =>
      obtain ⟨_, _, ran, done⟩ := Budget.bind_eq_ok.mp worked
      cases done
      cases stepped
      exact coupled.exec above orderly fits ran met'
    | wait =>
      rcases doWait_mms stepped with ⟨found, same⟩ | ⟨c, found, mms, ntasks, nmms, freed⟩
      · simp only [spaceWork, found] at worked
        cases worked
        exact coupled.same ring' same
      · simp only [spaceWork, found] at worked
        exact coupled.reap above found (orderly c found) worked met' ring' mms ntasks nmms freed
    | exit status =>
      cases worked
      exact coupled.same ring' (doExit_sameMms stepped)
    | read =>
      cases worked
      exact coupled.same ring' (stdinRead_sameMms stepped)
    | readResume n =>
      cases worked
      cases stepped
      exact coupled.same ring' (stdinReadResume_sameMms m.kernel n)
    | key pressed =>
      cases worked
      exact coupled.same ring' (ttySendKey_sameMms stepped)
    | tick =>
      cases worked
      exact coupled.same ring' (schedMaybePreempt_schedOnly stepped).sameMms
    | schedule =>
      cases worked
      exact coupled.same ring' (schedule_schedOnly stepped).sameMms
    | open_ ino mode =>
      cases worked
      exact coupled.same ring' (doOpen_sameMms stepped)
    | close fd =>
      cases worked
      exact coupled.same ring' (doClose_sameMms stepped)

end Coupled

/-! ## Runs -/

theorem sticky_schedExec {M : Meter Vmm} [frames : OfFrames rs M] {mm : Nat} :
    Sticky M (Fs.schedExec rs mm elf) :=
  .bind sticky_execElf fun _ => .bind sticky_mmFree fun _ => .pure _

/-- What the frames handed out decide, a step does not forget. -/
theorem Machine.step_sticky {M : Meter Vmm} [frames : OfFrames rs M] {move : Move}
    (taken : Machine.step rs move m = .ok m') (out : M.out m.vmm) : M.out m'.vmm := by
  cases move with
  | store virt byte =>
    cases taken
    exact frames.rest (s := m.vmm) rfl rfl out
  | call event elf =>
    obtain ⟨⟨_, vmm⟩, worked, taken⟩ := bind_eq_ok.mp taken
    obtain ⟨kernel, _, taken⟩ := bind_eq_ok.mp taken
    cases taken
    have sticky : Sticky M (spaceWork rs m.kernel elf event) := by
      cases event with
      | fork stack => exact .bind sticky_mmDupe fun _ => .pure _
      | exec => exact .bind sticky_schedExec fun _ => .pure _
      | wait =>
        simp only [spaceWork]
        split
        · exact sticky_mmFree
        · exact .pure _
      | _ => exact .pure _
    exact sticky m.vmm _ vmm worked out

/-- The machine that `start_init` starts, after `kernel_mm_init` and the `exec_elf` of init. -/
theorem Coupled.start {mm : Nat} (spaces : Spaces rs s₀ lists areas) (first : s₀.nmms = 1)
    (ran : execElf rs elf s₀ = .ok (mm, v)) (user : UserSegments elf) (fits : FileFits elf)
    (met : ¬ v.ranOut = true) : Coupled rs s₀ ⟨startInit stack, v⟩ := by
  obtain ⟨_, executed⟩ := execElf_done spaces user fits ran met
  obtain ⟨lists', areas', spaces', _⟩ := executed.spaces
  have alive : v.Live 1 := by
    rw [spaces.live_succ executed.nmms executed.freed, first]
    exact .inr rfl
  refine ⟨⟨[], .start stack⟩, ⟨lists', areas', spaces'⟩, ?_, fun t lt _ => ?_,
    fun t ltT u ltU _ _ _ => ?_, fun p short => ?_⟩
  · rw [executed.nmms, first]
    rfl
  · rw [Nat.lt_one_iff.mp lt]
    exact alive
  · rw [Nat.lt_one_iff.mp ltT, Nat.lt_one_iff.mp ltU]
  · exact executed.slots 0 p short (Nat.ne_of_lt spaces.kernel.named.1)

/-- The states of the runs in which frames do not run out. -/
theorem Coupled.reach {mem : Bytes} {mm : Nat} (above : ∀ r ∈ rs.regions, 0 < r.start)
    (booted : kernelMmInit rs 0 (Vmm.boot rs mem) = .ok ((), s₀))
    (init : execElf rs elf s₀ = .ok (mm, v)) (user : UserSegments elf) (fits : FileFits elf)
    (reached : Reach (Machine.step rs) (fun move m => m.Orderly move ∧ move.Fits)
      ⟨startInit stack, v⟩ m) (met : m.vmm.ranOut = false) :
    ¬ s₀.ranOut = true ∧ Coupled rs s₀ m := by
  have met' : ¬ m.vmm.ranOut = true := ne_true_of_eq_false met
  have sticky : ∀ move m m', Machine.step rs move m = .ok m' → m.vmm.ranOut = true →
      m'.vmm.ranOut = true := fun _ _ _ taken => Machine.step_sticky (M := meter rs) taken
  have metV : ¬ v.ranOut = true :=
    reached.start_avoids (fun m => m.vmm.ranOut = true) sticky met'
  have met₀ : ¬ s₀.ranOut = true := fun out => metV (sticky_execElf (M := meter rs) s₀ _ v init out)
  obtain ⟨before, _, first⟩ := (kernelMmInit_runs rs mem).safe booted met₀
  refine ⟨met₀, reached.avoiding (fun m => m.vmm.ranOut = true) sticky (Coupled rs s₀) (fun _ => ?_)
    ?_ met'⟩
  · exact .start before first init user fits metV
  · intro move m m' _ coupled guard taken after
    exact coupled.step above guard.1 guard.2 taken after

/-- **The kernel half.** From `kernel_mm_init` and the `exec_elf` of init on, in every state of every
run of forks, execs, exits and waits in which frames do not run out, no segment has more bytes in the
file than pages, and no region starts at physical address `0`: the kernel's pages are the same in
every live space, none is for user mode, and `kernel_mm` is as `kernel_mm_init` left it. -/
theorem kernelHalf_kept (rs : RegionTable) (mem elf : Bytes) (stack mm : Nat) (s₀ v : Vmm)
    (m : Machine) (above : ∀ r ∈ rs.regions, 0 < r.start)
    (booted : kernelMmInit rs 0 (Vmm.boot rs mem) = .ok ((), s₀))
    (init : execElf rs elf s₀ = .ok (mm, v)) (user : UserSegments elf) (fits : FileFits elf)
    (reached : Reach (Machine.step rs) (fun move m => m.Orderly move ∧ move.Fits)
      ⟨startInit stack, v⟩ m) (met : m.vmm.ranOut = false) : KernelHalf s₀ m.vmm := by
  obtain ⟨met₀, coupled⟩ := Coupled.reach above booted init user fits reached met
  obtain ⟨before, _⟩ := (kernelMmInit_runs rs mem).safe booted met₀
  obtain ⟨lists, areas, spaces⟩ := coupled.spaces
  exact kernelHalf_of_spaces before spaces coupled.slots

/-- Init, with one page of code, forks, and there are frames for it. -/
theorem wide_forked : ∃ s₀ v m,
    kernelMmInit wideTable 0 (Vmm.boot wideTable fun _ => 0) = .ok ((), s₀) ∧
      execElf wideTable (elfOf (fun _ => 0) 0x400000 0x1000 0x1000) s₀ = .ok (1, v) ∧
      Machine.step wideTable (.call (.fork 0) fun _ => 0) ⟨startInit 0, v⟩ = .ok m ∧
      m.kernel.ntasks = 2 ∧ m.vmm.ranOut = false := by
  obtain ⟨s₀, booted, met₀, left₀, spaces₀, first⟩ := wide_booted
  obtain ⟨user, fits, small⟩ := elfOf_user fun _ => 0
  obtain ⟨count, header⟩ := elfOf_header (fun _ => 0) 0x400000 0x1000 0x1000 (by decide) (by decide)
    (by decide)
  generalize elfOf (fun _ => 0) 0x400000 0x1000 0x1000 = elf at user fits small count header ⊢
  have budget : 6656 + (ePhnum elf * (1 * 5) + 160) ≤ (meter wideTable).left s₀ := by
    rw [count]
    omega
  obtain ⟨new, v, ran, met, left, rfl, executed⟩ :=
    (execElf_runs spaces₀ met₀ user fits (by decide) small).total budget
  obtain ⟨lists, areas, spaces, ranges⟩ := executed.spaces
  rw [first] at ran ranges
  have live : v.Live 1 := by
    rw [spaces₀.live_succ executed.nmms executed.freed, first]
    exact .inr rfl
  have pages : ((areas 1).map fun r => (v.vmas r).pages * 5).sum = 165 := by
    have asked : userRanges elf = [(userStackBase, userStackPages), (0x400000, 1)] :=
      userRanges_of_one count header rfl
    have counts : ((areas 1).map fun r => (v.vmas r).pages * 5) =
        ((areas 1).map fun r => rangeOf (v.vmas r)).map fun a => a.2 * 5 := by
      rw [List.map_map]
      rfl
    rw [counts, ranges, asked]
    rfl
  have enough : 6656 + ((areas 1).map fun r => (v.vmas r).pages * 5).sum ≤
      (meter wideTable).left v := by
    rw [count] at left
    omega
  obtain ⟨_, w, forked, met', _⟩ := (mmDupe_runs spaces met live).total enough
  obtain ⟨kernel, stepped, tasks⟩ : ∃ kernel, Kernel.step (.fork 0) (startInit 0) = .ok kernel ∧
      kernel.ntasks = 2 := ⟨_, rfl, rfl⟩
  have taken : Machine.step wideTable (.call (.fork 0) fun _ => 0) ⟨startInit 0, v⟩ =
      .ok ⟨kernel, w⟩ := by
    have worked : spaceWork wideTable (startInit 0) (fun _ => 0) (.fork 0) v = .ok ((), w) :=
      Budget.bind_eq_ok.mpr ⟨_, w, forked, rfl⟩
    exact bind_eq_ok.mpr ⟨_, worked, bind_eq_ok.mpr ⟨kernel, stepped, rfl⟩⟩
  exact ⟨s₀, v, ⟨kernel, w⟩, booted, ran, taken, tasks, Bool.eq_false_of_not_eq_true met'⟩

/-- Init, with one page of code, forks. -/
theorem kernelHalf_kept_fork : ∃ s₀ v m,
    kernelMmInit wideTable 0 (Vmm.boot wideTable fun _ => 0) = .ok ((), s₀) ∧
      execElf wideTable (elfOf (fun _ => 0) 0x400000 0x1000 0x1000) s₀ = .ok (1, v) ∧
      Machine.step wideTable (.call (.fork 0) fun _ => 0) ⟨startInit 0, v⟩ = .ok m ∧
      m.kernel.ntasks = 2 ∧ m.vmm.ranOut = false ∧ KernelHalf s₀ m.vmm := by
  obtain ⟨s₀, v, m, booted, ran, taken, tasks, out⟩ := wide_forked
  obtain ⟨user, fits, _⟩ := elfOf_user fun _ => 0
  exact ⟨s₀, v, m, booted, ran, taken, tasks, out,
    kernelHalf_kept wideTable (fun _ => 0) _ 0 1 s₀ v m wide_above booted ran user fits
      (Reach.start.step (l := .call (.fork 0) fun _ => 0) ⟨trivial, trivial⟩ taken) out⟩

end Blackcomb.Kernel
