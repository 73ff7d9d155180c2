import Blackcomb.Laws.Mm.Books
import Blackcomb.Laws.Kernel.KernelHalf

/-!
# How often the kernel's areas are counted

The kernel's three areas are static objects with a reference count that starts at `0`: `kernel_mm` does
not count. Every other space counts each of them once, so the count is the number of the live ones,
in every run and whatever happens to frames and tables (`Counted`). `mm_free` would pass a static
object to `free` if it counted one down to `0`, but it is only ever called for a space when another one
is live: `sched_exec` has made the new space by then, and `do_wait` runs on its own.

**What it does not establish.** Only the three static areas are counted through whole runs with any
file; the areas of programs are counted in `Mm.Spaces`, for runs that keep its invariant.
-/

namespace Blackcomb.Kernel

open Memory Run Budget Mm Fs

variable {rs : RegionTable} {s t v : Vmm} {m m' : Machine} {elf : Bytes} {mm : Nat}
  {lists areas : Nat → List Nat} {live : Nat → Prop}

/-! ## exec_elf -/

theorem joined_loadSegment {i : Nat} {s' : Vmm} (joined : Joined s t live lists areas)
    (ran : loadSegment rs s.nmms elf i t = .ok ((), s')) : Joined s s' live lists areas := by
  unfold loadSegment at ran
  split at ran
  · obtain ⟨_, u, mapped, ran⟩ := Budget.bind_eq_ok.mp ran
    exact (joined.anonMmap mapped).same (sameBooks_mmCopyFromBuf u _ s' ran)
  · cases ran
    exact joined

theorem joined_forTo {body : Nat → Op Unit} {n : Nat} {s' : Vmm}
    (each : ∀ i t t', Joined s t live lists areas → body i t = .ok ((), t') →
      Joined s t' live lists areas)
    (joined : Joined s t live lists areas) (ran : forTo n body t = .ok ((), s')) :
    Joined s s' live lists areas := by
  induction n generalizing s' with
  | zero =>
    cases ran
    exact joined
  | succ n ih =>
    obtain ⟨_, u, looped, ran⟩ := Budget.bind_eq_ok.mp ran
    exact each n u s' (ih looped) ran

/-- `exec_elf` makes one space, whatever the file is. -/
theorem execElf_joined {s' : Vmm} (books : Books s live lists areas) (pos : 0 < s.nmms)
    (fresh : ¬ live s.nmms) (ran : execElf rs elf s = .ok (mm, s')) :
    mm = s.nmms ∧ Joined s s' live lists areas := by
  obtain ⟨_, t, made, ran⟩ := Budget.bind_eq_ok.mp ran
  obtain ⟨rfl, joined⟩ := books.mmNew pos fresh made
  obtain ⟨_, u, loaded, ran⟩ := Budget.bind_eq_ok.mp ran
  obtain ⟨_, w, stacked, ran⟩ := Budget.bind_eq_ok.mp ran
  cases ran
  have joined := joined_forTo (fun _ _ _ joined ran => joined_loadSegment joined ran) joined loaded
  exact ⟨rfl, joined.anonMmap stacked⟩

/-! ## The counts -/

/-- The books are in order, and the kernel's areas are counted once for every live space. -/
structure Counted (v : Vmm) : Prop where
  books : ∃ lists areas, Books v v.Live lists areas ∧ ∀ mm, v.Live mm → Whole (areas mm)
  refcnt : ∀ a < 3, (v.vmas a).refcnt = v.lives.card
  freed : ∀ mm ∈ v.freedMms, mm < v.nmms
  pos : 0 < v.nmms

namespace Counted

/-- A space more. -/
theorem joined (counted : Counted s) (whole : ∀ mm, s.Live mm → Whole (areas mm))
    (joined : Joined s t s.Live lists areas) : Counted t := by
  have tally := joined.tally
  have live : ∀ {k}, t.Live k ↔ s.Live k ∨ k = s.nmms := fun {k} =>
    Vmm.live_succ counted.pos counted.freed tally.nmms tally.freed
  have same : t.Live = fun k => s.Live k ∨ k = s.nmms := funext fun k => propext live
  obtain ⟨lists', areas', books, here, others⟩ := joined.books
  refine ⟨⟨lists', areas', by rw [same]; exact books, fun mm alive => ?_⟩, fun a lt => ?_,
    fun mm mem => ?_, ?_⟩
  · by_cases new : mm = s.nmms
    · rw [new]
      exact here
    · rw [(others mm new).2]
      exact whole mm ((live.mp alive).resolve_right new)
  · rw [tally.refcnt a lt, counted.refcnt a lt, Vmm.card_lives_succ live]
    rfl
  · rw [tally.freed] at mem
    rw [tally.nmms]
    exact Nat.lt_succ_of_lt (counted.freed mm mem)
  · rw [tally.nmms]
    exact Nat.succ_pos _

/-- A space less. -/
theorem parted (counted : Counted s) (here : s.Live mm) (whole : ∀ mm, s.Live mm → Whole (areas mm))
    (parted : Parted s t s.Live lists areas mm) :
    Counted t ∧ ∀ {k}, t.Live k ↔ s.Live k ∧ k ≠ mm := by
  have live : ∀ {k}, t.Live k ↔ s.Live k ∧ k ≠ mm := by
    intro k
    rw [Vmm.Live, Vmm.Live, parted.nmms, parted.freed, List.mem_cons]
    tauto
  have same : t.Live = fun k => s.Live k ∧ k ≠ mm := funext fun k => propext live
  refine ⟨⟨⟨lists, areas, by rw [same]; exact parted.books, fun mm alive =>
    whole mm (live.mp alive).1⟩, fun a lt => ?_, fun k mem => ?_, ?_⟩, live⟩
  · have fewer := Vmm.card_lives_pred here live
    rw [parted.refcnt a lt, counted.refcnt a lt]
    omega
  · rw [parted.nmms]
    rw [parted.freed] at mem
    rcases List.mem_cons.mp mem with rfl | mem
    · exact here.2.1
    · exact counted.freed k mem
  · rw [parted.nmms]
    exact counted.pos

/-- `mm_free` of a live space returns when another one is live, and no count comes to `0`. -/
theorem mmFree {k : Nat} (counted : Counted s) (here : s.Live mm) (other : s.Live k) (ne : k ≠ mm) :
    ∃ t, Mm.mmFree rs mm s = .ok ((), t) ∧ Counted t ∧ (∀ {k}, t.Live k ↔ s.Live k ∧ k ≠ mm) ∧
      t.nmms = s.nmms ∧ ∀ a < 3, 0 < (t.vmas a).refcnt := by
  obtain ⟨lists, areas, books, whole⟩ := counted.books
  have two : 1 < s.lives.card :=
    Finset.one_lt_card.mpr ⟨k, Vmm.mem_lives.mpr other, mm, Vmm.mem_lives.mpr here, ne⟩
  obtain ⟨t, freed, parted⟩ := books.mmFree rs here (whole mm here) fun a lt => by
    rw [counted.refcnt a lt]
    omega
  obtain ⟨after, live⟩ := counted.parted here whole parted
  refine ⟨t, freed, after, live, parted.nmms, fun a lt => ?_⟩
  rw [parted.refcnt a lt, counted.refcnt a lt]
  omega

end Counted

theorem Counted.same (counted : Counted s) (same : SameBooks s t) : Counted t := by
  have live : t.Live = s.Live := by
    funext k
    rw [Vmm.Live, Vmm.Live, same.nmms, same.freed]
  have lives : t.lives = s.lives := by rw [Vmm.lives, Vmm.lives, same.nmms, same.freed]
  obtain ⟨lists, areas, books, whole⟩ := counted.books
  refine ⟨⟨lists, areas, by rw [live]; exact books.same same, by rw [live]; exact whole⟩, ?_, ?_, ?_⟩
  · rw [same.vmas, lives]
    exact counted.refcnt
  · rw [same.freed, same.nmms]
    exact counted.freed
  · rw [same.nmms]
    exact counted.pos

/-- `sched_exec` and `do_fork` make a space. -/
theorem Counted.execElf (counted : Counted s) (ran : Fs.execElf rs elf s = .ok (mm, t)) :
    mm = s.nmms ∧ Counted t ∧ t.nmms = s.nmms + 1 ∧ ∀ {k}, t.Live k ↔ s.Live k ∨ k = s.nmms := by
  obtain ⟨lists, areas, books, whole⟩ := counted.books
  obtain ⟨name, joined⟩ := execElf_joined books counted.pos (fun new => Nat.lt_irrefl _ new.2.1) ran
  exact ⟨name, counted.joined whole joined, joined.tally.nmms,
    Vmm.live_succ counted.pos counted.freed joined.tally.nmms joined.tally.freed⟩

theorem Counted.mmDupe {k : Nat} (counted : Counted s) (here : s.Live k)
    (ran : Mm.mmDupe rs k s = .ok (mm, t)) :
    Counted t ∧ t.nmms = s.nmms + 1 ∧ ∀ {k}, t.Live k ↔ s.Live k ∨ k = s.nmms := by
  obtain ⟨lists, areas, books, whole⟩ := counted.books
  obtain ⟨_, joined⟩ := books.mmDupe counted.pos (fun new => Nat.lt_irrefl _ new.2.1) here ran
  exact ⟨counted.joined whole joined, joined.tally.nmms,
    Vmm.live_succ counted.pos counted.freed joined.tally.nmms joined.tally.freed⟩

/-! ## The machine -/

/-- `do_wait` does not find a task that was reaped before. -/
def Machine.ReapsOnce : Move → Machine → Prop
  | .call .wait _, m => ∀ c, findZombie m.kernel m.kernel.ntasks
      (m.kernel.tasks m.kernel.current).children = .ok (some c) → c ∉ m.kernel.freed
  | _, _ => True

/-- A move calls `mm_free` for a space, in a state of `vmm.c`: `sched_exec` for the old space of the
task once the new one is made, `task_free` for the space of the task that `do_wait` reaps. -/
inductive FreesSpace (rs : RegionTable) (m : Machine) : Move → Nat → Vmm → Prop
  | exec {elf : Bytes} {new : Nat} {t : Vmm} (made : execElf rs elf m.vmm = .ok (new, t)) :
      FreesSpace rs m (.call .exec elf) m.mm t
  | wait {elf : Bytes} {c : Nat} (found : findZombie m.kernel m.kernel.ntasks
      (m.kernel.tasks m.kernel.current).children = .ok (some c)) :
      FreesSpace rs m (.call .wait elf) (m.kernel.tasks c).mm m.vmm

/-- The two parts of the machine agree on the spaces there are. -/
structure Accounted (m : Machine) : Prop where
  ring : ∃ qs, RingInv m.kernel qs
  own : OwnMms m.kernel
  nmms : m.kernel.nmms = m.vmm.nmms
  live : ∀ t < m.kernel.ntasks, t ∉ m.kernel.freed → m.vmm.Live (m.kernel.tasks t).mm
  counted : Counted m.vmm

namespace Accounted

theorem current (inv : Accounted m) :
    m.kernel.current < m.kernel.ntasks ∧ m.kernel.current ∉ m.kernel.freed := by
  obtain ⟨qs, ring⟩ := inv.ring
  exact ⟨ring.current_runnable.1, ring.current_runnable.2.1⟩

theorem mm_live (inv : Accounted m) : m.vmm.Live m.mm :=
  inv.live _ inv.current.1 inv.current.2

/-- The task that `do_wait` reaps has another space than the one that runs. -/
theorem reaped_ne {c : Nat} (inv : Accounted m)
    (found : findZombie m.kernel m.kernel.ntasks (m.kernel.tasks m.kernel.current).children =
      .ok (some c)) : m.mm ≠ (m.kernel.tasks c).mm := by
  obtain ⟨qs, ring⟩ := inv.ring
  obtain ⟨lt, zombie⟩ := findZombie_zombie found
  intro same
  have e := inv.own.distinct _ inv.current.1 c lt same
  exact ring.current_runnable.2.2.1 (e ▸ zombie)

/-- Whenever `mm_free` is called, it returns, and no count comes to `0`. -/
theorem frees {move : Move} {k : Nat} {t : Vmm} (inv : Accounted m) (once : m.ReapsOnce move)
    (call : FreesSpace rs m move k t) :
    ∃ t', mmFree rs k t = .ok ((), t') ∧ Counted t' ∧ (∀ {j}, t'.Live j ↔ t.Live j ∧ j ≠ k) ∧
      t'.nmms = t.nmms ∧ ∀ a < 3, 0 < (t'.vmas a).refcnt := by
  cases call with
  | exec made =>
    obtain ⟨_, counted, _, live⟩ := inv.counted.execElf made
    have here := inv.mm_live
    exact counted.mmFree (live.mpr (.inl here)) (live.mpr (.inr rfl)) (Nat.ne_of_gt here.2.1)
  | wait found =>
    exact inv.counted.mmFree (inv.live _ (findZombie_zombie found).1 (once _ found)) inv.mm_live
      (inv.reaped_ne found)

/-- A step keeps the invariant. -/
theorem step {move : Move} (inv : Accounted m) (once : m.ReapsOnce move)
    (taken : Machine.step rs move m = .ok m') : Accounted m' := by
  cases move with
  | store virt byte =>
    cases taken
    have same := sameBooks_setMem m.vmm
      (Function.update m.vmm.frames.mem (m.vmm.translate m.mm virt) byte)
    refine ⟨inv.ring, inv.own, inv.nmms, inv.live, inv.counted.same same⟩
  | call event elf =>
    obtain ⟨⟨_, vmm⟩, worked, taken⟩ := bind_eq_ok.mp taken
    obtain ⟨kernel, stepped, taken⟩ := bind_eq_ok.mp taken
    cases taken
    obtain ⟨qs, ring⟩ := inv.ring
    have ring' : ∃ qs, RingInv kernel qs := ring.step stepped
    have own' := inv.own.step stepped
    have quiet : SameMms m.kernel kernel → Accounted ⟨kernel, m.vmm⟩ := by
      intro same
      refine ⟨ring', own', same.nmms.trans inv.nmms, fun t lt out => ?_, inv.counted⟩
      rw [same.ntasks] at lt
      rw [same.freed] at out
      rw [same.mm]
      exact inv.live t lt out
    cases event with
    | fork stack =>
      obtain ⟨_, _, ran, done⟩ := Budget.bind_eq_ok.mp worked
      cases done
      obtain ⟨counted, nmms, live⟩ := inv.counted.mmDupe inv.mm_live ran
      obtain ⟨mms, ntasks, kmms, freed⟩ := schedFork_mms stepped
      refine ⟨ring', own', by rw [kmms, nmms, inv.nmms], fun t lt out => ?_, counted⟩
      rw [freed] at out
      rw [ntasks] at lt
      rw [mms, live]
      split
      · exact .inr inv.nmms
      · exact .inl (inv.live t (by omega) out)
    | exec =>
      obtain ⟨_, _, ran, done⟩ := Budget.bind_eq_ok.mp worked
      cases done
      cases stepped
      obtain ⟨_, t, made, ran⟩ := Budget.bind_eq_ok.mp ran
      obtain ⟨_, _, freed, ran⟩ := Budget.bind_eq_ok.mp ran
      cases ran
      obtain ⟨_, _, nmms, live⟩ := inv.counted.execElf made
      have once : m.ReapsOnce (.call .exec elf) := trivial
      obtain ⟨_, ran, counted, live', nmms', _⟩ := inv.frees once (.exec made)
      rw [show mmFree rs m.mm t = _ from freed] at ran
      cases ran
      obtain ⟨mms, ntasks, kmms, reaped⟩ := schedExec_mms m.kernel m.kernel.current
      refine ⟨ring', own', by rw [kmms, nmms', nmms, inv.nmms], fun t lt out => ?_, counted⟩
      rw [reaped] at out
      rw [ntasks] at lt
      rw [mms, live', live]
      split
      · exact ⟨.inr inv.nmms, Nat.ne_of_gt (inv.nmms ▸ inv.mm_live.2.1)⟩
      · rename_i ne
        exact ⟨.inl (inv.live t lt out), fun same =>
          ne (inv.own.distinct t lt _ inv.current.1 same)⟩
    | wait =>
      rcases doWait_mms stepped with ⟨found, same⟩ | ⟨c, found, mms, ntasks, nmms, freed⟩
      · simp only [spaceWork, found] at worked
        cases worked
        exact quiet same
      · simp only [spaceWork, found] at worked
        have call : FreesSpace rs m (.call .wait elf) (m.kernel.tasks c).mm m.vmm := .wait found
        obtain ⟨_, ran, counted, live', nmms', _⟩ := inv.frees once call
        rw [worked] at ran
        cases ran
        refine ⟨ring', own', by rw [nmms, nmms', inv.nmms], fun t lt out => ?_, counted⟩
        rw [freed, List.mem_cons, not_or] at out
        rw [ntasks] at lt
        rw [mms, live']
        exact ⟨inv.live t lt out.2, fun same =>
          out.1 (inv.own.distinct t lt c (findZombie_zombie found).1 same)⟩
    | exit status =>
      cases worked
      exact quiet (doExit_sameMms stepped)
    | read =>
      cases worked
      exact quiet (stdinRead_sameMms stepped)
    | readResume n =>
      cases worked
      cases stepped
      exact quiet (stdinReadResume_sameMms m.kernel n)
    | key pressed =>
      cases worked
      exact quiet (ttySendKey_sameMms stepped)
    | tick =>
      cases worked
      exact quiet (schedMaybePreempt_schedOnly stepped).sameMms
    | schedule =>
      cases worked
      exact quiet (schedule_schedOnly stepped).sameMms
    | open_ ino mode =>
      cases worked
      exact quiet (doOpen_sameMms stepped)
    | close fd =>
      cases worked
      exact quiet (doClose_sameMms stepped)

/-- The machine that `start_init` starts. -/
theorem start {mem : Bytes} {s₀ : Vmm} (stack : Nat)
    (booted : kernelMmInit rs 0 (Vmm.boot rs mem) = .ok ((), s₀))
    (init : execElf rs elf s₀ = .ok (mm, v)) : Accounted ⟨startInit stack, v⟩ := by
  obtain ⟨books, zero, first, none⟩ :=
    kernelMmInit_books (fun _ => []) (fun _ => []) booted
  have live : ∀ k, ¬ s₀.Live k := by
    intro k alive
    have := alive.2.1
    have := alive.1
    omega
  have empty : s₀.lives = ∅ := Finset.eq_empty_of_forall_notMem fun k mem =>
    live k (Vmm.mem_lives.mp mem)
  have counted : Counted s₀ := by
    refine ⟨⟨fun _ => [], fun _ => [], ?_, fun k alive => absurd alive (live k)⟩, fun a lt => ?_,
      fun k mem => ?_, ?_⟩
    · rw [show s₀.Live = fun _ => False from funext fun k => propext (iff_false_intro (live k))]
      exact books
    · rw [zero a lt, empty]
      rfl
    · rw [none] at mem
      cases mem
    · rw [first]
      exact Nat.one_pos
  obtain ⟨_, counted, nmms, alive⟩ := counted.execElf init
  refine ⟨⟨[], .start stack⟩, .start stack, ?_, fun t lt _ => ?_, counted⟩
  · rw [nmms, first]
    rfl
  · obtain rfl : t = 0 := Nat.lt_one_iff.mp lt
    rw [alive, first]
    exact .inr rfl

end Accounted

/-- **The kernel's areas.** From `kernel_mm_init` and the `exec_elf` of init on, in every state of every
run in which no task is reaped twice, each of the three static areas is counted once for every live
space; and whenever `mm_free` is called there, it returns and leaves every count above `0`, so that no
static area was passed to `free`. -/
theorem kernelAreas_counted (rs : RegionTable) (mem elf : Bytes) (stack mm : Nat) (s₀ v : Vmm)
    (m : Machine) (booted : kernelMmInit rs 0 (Vmm.boot rs mem) = .ok ((), s₀))
    (init : execElf rs elf s₀ = .ok (mm, v))
    (reached : Reach (Machine.step rs) (fun move m => m.ReapsOnce move) ⟨startInit stack, v⟩ m) :
    (∀ a < 3, (m.vmm.vmas a).refcnt = m.vmm.lives.card) ∧
    ∀ move, m.ReapsOnce move → ∀ k t, FreesSpace rs m move k t →
      ∃ t', mmFree rs k t = .ok ((), t') ∧ ∀ a < 3, 0 < (t'.vmas a).refcnt := by
  have inv : Accounted m := reached.invariant Accounted (.start stack booted init)
    fun _ _ _ inv once taken => inv.step once taken
  refine ⟨inv.counted.refcnt, fun move once k t call => ?_⟩
  obtain ⟨t', freed, _, _, _, above⟩ := inv.frees once call
  exact ⟨t', freed, above⟩

/-- Init forks: each of the kernel's areas is counted twice. -/
theorem kernelAreas_counted_fork : ∃ s₀ v m,
    kernelMmInit wideTable 0 (Vmm.boot wideTable fun _ => 0) = .ok ((), s₀) ∧
      execElf wideTable (elfOf (fun _ => 0) 0x400000 0x1000 0x1000) s₀ = .ok (1, v) ∧
      Machine.step wideTable (.call (.fork 0) fun _ => 0) ⟨startInit 0, v⟩ = .ok m ∧
      (∀ a < 3, (m.vmm.vmas a).refcnt = m.vmm.lives.card) ∧
      ∀ move, m.ReapsOnce move → ∀ k t, FreesSpace wideTable m move k t →
        ∃ t', mmFree wideTable k t = .ok ((), t') ∧ ∀ a < 3, 0 < (t'.vmas a).refcnt := by
  obtain ⟨s₀, v, m, booted, ran, taken, _, _⟩ := wide_forked
  exact ⟨s₀, v, m, booted, ran, taken,
    kernelAreas_counted wideTable (fun _ => 0) _ 0 1 s₀ v m booted ran
      (Reach.start.step (l := .call (.fork 0) fun _ => 0) trivial taken)⟩

end Blackcomb.Kernel
