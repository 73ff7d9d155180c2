import Blackcomb.Laws.Kernel.Entry
import Blackcomb.Laws.Mm.Areas

/-!
# The frame of a new task

`init_task_stack` and `do_fork` lay out words on the new task's stack as if the task had called
`switch_to_asm` from a system call: six registers and an address for `switch_to_asm`, then the user's
registers for `pop_regs_and_sysret`. Parent and child come back to user code with the same frame, but
for `rax`.

**What it does not establish.** The new task's kernel stack is as `do_fork` left it when it is
switched to for the first time, which is the rule that a stack belongs to its task. Which of the two
runs first is the scheduler's.
-/

namespace Blackcomb.Kernel

open Memory X86 Mm

variable {c e k : Cpu} {top bottom regs : Nat} {img : Image} {f : Regs} {m : Bytes}

/-- The frame ends where the stack does. -/
theorem forkSp_add (bottom : Nat) : forkSp bottom + 192 = bottom + kernelStackSize := by
  rw [forkSp, sizeofForkFrame, kernelStackSize]
  omega

/-- `init_task_stack`: the words for `switch_to_asm`. -/
theorem initTaskStackMem_words (img : Image) (bottom : Nat) (m : Bytes) :
    Words (initTaskStackMem img bottom m) (forkSp bottom)
      (List.replicate 6 0 ++ [img.popRegsAndSysret]) := by
  have ends := forkSp_add bottom
  have zero : Words (memset m bottom 0 kernelStackSize) (forkSp bottom) (List.replicate 7 0) := by
    apply words_zero
    intro b low high
    rw [kernelStackSize] at ends
    rw [memset_apply, if_pos (by rw [kernelStackSize]; omega)]
  have zero : Words _ _ (List.replicate 5 0 ++ 0 :: [0]) := zero
  have base : Words _ _ (List.replicate 6 0 ++ 0 :: []) := zero.update 0
  exact base.update img.popRegsAndSysret

theorem initTaskStackMem_outside {a : Nat} (out : a < bottom ∨ bottom + kernelStackSize ≤ a) :
    initTaskStackMem img bottom m a = m a := by
  have ends := forkSp_add bottom
  rw [kernelStackSize] at out ends
  rw [initTaskStackMem, store_outside _ (by rw [offsetofRetAddr]; omega),
    store_outside _ (by rw [offsetofRbp]; omega), memset_apply, if_neg (by rw [kernelStackSize]; omega)]

/-- `struct fork_frame` as `do_fork` fills it, with the registers of the task that forks. -/
def forkWords (img : Image) (f : Regs) : List Word :=
  List.replicate 6 0 ++ img.popRegsAndSysret :: { f with rax := 0 }.words

/-- The copy of the registers: it is the frame's, and changes nothing else. -/
theorem copyRegs_apply (apart : regs + sizeofRegs ≤ bottom ∨ bottom + kernelStackSize ≤ regs) (a : Nat) :
    memcpy m (forkSp bottom + offsetofRegs) regs sizeofRegs a =
      if forkSp bottom + offsetofRegs ≤ a ∧ a < forkSp bottom + offsetofRegs + sizeofRegs then
        m (regs + (a - (forkSp bottom + offsetofRegs))) else m a := by
  have ends := forkSp_add bottom
  apply memcpy_apply
  rw [kernelStackSize] at apart ends
  rw [sizeofRegs] at apart ⊢
  rw [offsetofRegs]
  omega

/-- `do_fork`: the words of the whole frame. -/
theorem doForkMem_words (words : Words m regs f.words)
    (apart : regs + sizeofRegs ≤ bottom ∨ bottom + kernelStackSize ≤ regs) :
    Words (doForkMem img bottom regs m) (forkSp bottom) (forkWords img f) := by
  have switch := initTaskStackMem_words img bottom m
  have there : Words (initTaskStackMem img bottom m) regs f.words :=
    words.congr fun b low high => initTaskStackMem_outside (by
      have length : f.words.length = 17 := rfl
      rw [sizeofRegs] at apart
      omega)
  have copied : Words (memcpy (initTaskStackMem img bottom m) (forkSp bottom + offsetofRegs) regs
      sizeofRegs) (forkSp bottom + offsetofRegs) f.words := there.shift fun i lt => by
    have lt : i < sizeofRegs := lt
    rw [copyRegs_apply apart, if_pos ⟨by omega, by omega⟩, Nat.add_sub_cancel_left]
  have spelled : forkWords img f =
      (List.replicate 6 0 ++ [img.popRegsAndSysret]) ++ { f with rax := 0 }.words := rfl
  rw [spelled, words_append]
  constructor
  · refine switch.congr fun b low high => ?_
    have high : b < forkSp bottom + offsetofRegs := high
    rw [doForkMem, store_outside _ (by omega), copyRegs_apply apart, if_neg (by omega)]
  · exact words_rax copied 0

theorem doForkMem_outside (apart : regs + sizeofRegs ≤ bottom ∨ bottom + kernelStackSize ≤ regs) {a : Nat}
    (out : a < bottom ∨ bottom + kernelStackSize ≤ a) : doForkMem img bottom regs m a = m a := by
  have ends := forkSp_add bottom
  have out' := out
  rw [kernelStackSize] at out' ends
  rw [doForkMem, store_outside _ (by rw [offsetofRegs, offsetofRax]; omega), copyRegs_apply apart,
    if_neg (by rw [offsetofRegs, sizeofRegs]; omega), initTaskStackMem_outside out]

/-! ## Parent and child -/

variable {pid : BitVec 32}

/-- What `do_syscall` of `SYS_FORK` leaves to the parent, on its stack, and to the child, at the first
switch to it. -/
structure Forked (img : Image) (pid : BitVec 32) (f : Regs) (e k : Cpu) : Prop where
  parent : OnStack e { f with rax := pid.signExtend 64 }.words
  start : (switchToAsm k).rip = img.popRegsAndSysret
  child : OnStack (switchToAsm k) { f with rax := 0 }.words

/-- The first switch to a task takes the words of its frame. -/
theorem Clear.started (clear : Clear (ForkFrame bottom) k) (fits : bottom + kernelStackSize < 2 ^ 64)
    (turn : k.regs .rdi = BitVec.ofNat 64 (forkSp bottom))
    (words : Words k.mem (forkSp bottom) (forkWords img f)) :
    (switchToAsm k).rip = img.popRegsAndSysret ∧ OnStack (switchToAsm k) { f with rax := 0 }.words := by
  have ends := forkSp_add bottom
  have sp : (k.regs .rdi).toNat = forkSp bottom := by
    rw [turn, BitVec.toNat_ofNat, Nat.mod_eq_of_lt (by omega)]
  have length : (forkWords img f).length = 24 := rfl
  have mine : ∀ a, forkSp bottom ≤ a → a < forkSp bottom + 8 * 24 → ForkFrame bottom a :=
    fun a low high => ⟨low, by omega⟩
  rw [← sp] at words mine
  have high : (k.regs .rdi).toNat + 8 * (forkWords img f).length < 2 ^ 64 := by omega
  have arrived := clear.arrived words rfl high mine
  exact ⟨arrived.rip, arrived.stack⟩

theorem ForkRun.forked (fork : ForkRun top img pid c e k) (on : OnStack c f.words)
    (rdi : c.regs .rdi = c.regs .rsp) (ends : c.sp + sizeofRegs = top) : Forked img pid f e k := by
  cases fork with
  | @mk m d _ enter leave bottom _ deeper enters restores before after fits apart kept turn clear =>
    have regs : (c.regs .rdi).toNat = c.sp := congrArg BitVec.toNat rdi
    rw [regs] at after kept
    have abi := crun_abi (fun _ below => below) before
    have depth := abi.sp
    have apartRegs : c.sp + sizeofRegs ≤ bottom ∨ bottom + kernelStackSize ≤ c.sp := by omega
    -- up to `do_fork` nothing has touched the parent's frame
    have frame : Words m.mem c.sp f.words := by
      refine on.words.congr fun a low high => ?_
      have high : a < top := ends ▸ high
      rw [abi.stack a (by omega) high, enters a low high]
    -- to the parent, the stores to the child's stack are a part of the C code
    have copy : Abi (· < top) m { m with mem := doForkMem img bottom c.sp m.mem } := by
      refine ⟨fun _ _ => rfl, fun a low high => doForkMem_outside apartRegs ?_⟩
      have high : a < top := high
      omega
    have call : DoSyscall top (· < top) (pid.signExtend 64) c (leave d) :=
      .mk restores (before.seq ((CRun.code copy).seq after))
    have there : Words k.mem (forkSp bottom) (forkWords img f) := by
      refine (doForkMem_words frame apartRegs).congr fun a low high => kept a ⟨low, ?_⟩
      rw [← forkSp_add bottom]
      exact high
    obtain ⟨start, child⟩ := clear.started fits turn there
    exact ⟨call.frame (fun _ below => below) on rdi fun a _ high => ends ▸ high, start, child⟩

/-- After `fork` the parent and the child run user code from the same place with the same registers, but
for `rax`: the child's pid, as the `int` that `sys_fork` returns, and zero. -/
theorem fork_same_context (stack : kernelStackSize ≤ stackTop img c)
    (fork : ForkRun (stackTop img c) img pid (enterSyscall img c) e k) :
    (switchToAsm k).rip = img.popRegsAndSysret ∧
      (startTask k).rip = (leaveSyscall e).rip ∧
      (∀ r, r ≠ .rax → (startTask k).regs r = (leaveSyscall e).regs r) ∧
      (leaveSyscall e).regs .rax = pid.signExtend 64 ∧ (startTask k).regs .rax = 0 := by
  obtain ⟨on, rdi, ends⟩ := enterSyscall_frame stack
  have forked := fork.forked on rdi ends
  have parent := leaveSyscall_resumed forked.parent
  have child := popRegsAndSysret_resumed forked.child
  refine ⟨forked.start, child.rip.trans parent.rip.symm, fun r other => ?_, parent.regs .rax,
    child.regs .rax⟩
  rw [parent.regs r]
  refine (child.regs r).trans ?_
  cases r <;> first | rfl | exact absurd rfl other

/-- A `fork` whose child is switched to right after it. -/
theorem forkRun_elsewhere (low : top ≤ 0x20000) (call : c.regs .rax = sysFork) (img : Image)
    (pid : BitVec 32) : ∃ e k, ForkRun top img pid c e k := by
  have below : ∀ a, ForkFrame 0x20000 a → a < 0x28000 := fun a mine => Nat.lt_trans mine.2 (by decide)
  have run := @ForkRun.mk top img pid c c { c with mem := doForkMem img 0x20000 (c.regs .rdi).toNat c.mem }
    (elsewhere { c with mem := doForkMem img 0x20000 (c.regs .rdi).toNat c.mem }
      (BitVec.ofNat 64 (forkSp 0x20000)))
    id (fun d => d.setWord (c.regs .rdi + BitVec.ofNat 64 offsetofRax) (pid.signExtend 64)) 0x20000 call
    (Nat.le_refl _) (fun _ _ _ => rfl) (fun _ abi => abi.setWord _ _) (.code (.refl c)) (.code (.refl _))
    (by decide) (.inl low) (fun _ _ => rfl) (elsewhere_rdi _ _) (elsewhere_clear below)
  exact ⟨_, _, run⟩

/-- Registers with a value of its own in each, and the number of `fork` in `rax`. -/
def forkingRegs (r : Reg) : Word := if r = .rax then sysFork else BitVec.ofNat 64 (0x100 + r.ctorIdx)

/-- The first `fork`, by user code with these registers. -/
theorem fork_same_context_sample :
    ∃ e k, ForkRun 0x10000 sampleImage 1000 (enterSyscall sampleImage (sampleUser forkingRegs)) e k ∧
      (∀ r, r ≠ .rax → (startTask k).regs r = (leaveSyscall e).regs r) ∧
      (leaveSyscall e).regs .rax = 1000 ∧ (startTask k).regs .rax = 0 := by
  have top := sampleUser_stackTop forkingRegs
  obtain ⟨e, k, fork⟩ := forkRun_elsewhere (c := enterSyscall sampleImage (sampleUser forkingRegs))
    (by decide : 0x10000 ≤ 0x20000) rfl sampleImage 1000
  have same := fork_same_context (by rw [top]; decide) (top.symm ▸ fork)
  exact ⟨e, k, fork, same.2.2⟩

end Blackcomb.Kernel
