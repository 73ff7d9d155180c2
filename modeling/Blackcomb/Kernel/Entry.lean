import Blackcomb.Kernel.State
import Blackcomb.Lib.X86
import Blackcomb.Mm.Kmalloc

/-!
# Ways into the kernel and out of it

`syscall.asm` and `int_table.asm`, instruction by instruction, with the frames that `do_fork` builds
for them and the C code between them. A jump to a label is the next list of instructions, and `call`
is the run of the function it calls.

The C code is there by what it does to registers and to the stacks. It keeps what a C function keeps
(`Abi`) up to what the source makes it write: `do_syscall` writes `regs->rax`, and the calls that have
a buffer of the user's write where the user says. Where it switches tasks it goes through
`switch_to_asm`, and any other code may run until another task switches back.

The stack of a task belongs to the task: from the switch away from it to the switch back to it nobody
writes there. Interrupts are off in the kernel, so no frame appears on it in between.
-/

namespace Blackcomb.Kernel

open Memory X86 Mm

/-- Addresses in the kernel's image, and what `syscall_enable` leaves in `FMASK`. -/
structure Image where
  syscallEntry : Word
  popRegsAndSysret : Word
  rspScratch : Word
  currentTaskStack : Word
  fmask : Word
  apart : rspScratch.toNat + 8 ≤ currentTaskStack.toNat ∨
    currentTaskStack.toNat + 8 ≤ rspScratch.toNat

/-! ## Switching stacks -/

/-- `switch_to_asm`, up to the load of the new stack pointer. -/
def switchAway : List Instr :=
  [.push .rbp, .push .rbx, .push .r12, .push .r13, .push .r14, .push .r15,
    .movStoreAt .rsi .rsp, .mov .rsp .rdi]

/-- The rest of `switch_to_asm`, up to `ret`. -/
def switchBack : List Instr :=
  [.pop .r15, .pop .r14, .pop .r13, .pop .r12, .pop .rbx, .pop .rbp]

/-- `switch_to_asm`. -/
def switchToAsm (c : Cpu) : Cpu := ret (exec (switchAway ++ switchBack) c)

/-- A call of `switch_to_asm` whose own stores leave some bytes alone: the registers it pushes, and the
stack pointer it puts into the old task. -/
structure Clear (bytes : Nat → Prop) (c : Cpu) : Prop where
  room : 48 ≤ c.sp
  pushes : ∀ a, bytes a → a + 48 < c.sp ∨ c.sp ≤ a
  oldSp : ∀ a, bytes a → a < (c.regs .rsi).toNat ∨ (c.regs .rsi).toNat + 8 ≤ a

/-- What a task that calls `switch_to_asm` leaves on its stack: seven words, and its callers' part. -/
def Left (top : Nat) (c : Cpu) (a : Nat) : Prop := c.sp ≤ a + 56 ∧ a < top

/-- A task calls `switch_to_asm` from `c` and is back at the `ret` of another task's call, which starts
in `d`, with the stack pointer that the first call put away. -/
inductive SwitchTrip (top : Nat) : Cpu → Cpu → Prop
  | mk {c d : Cpu} (back : Word) (room : 56 ≤ c.sp) (inside : c.sp ≤ top)
      (oldSp : ∀ a, Left top c a → a < (c.regs .rsi).toNat ∨ (c.regs .rsi).toNat + 8 ≤ a)
      (kept : ∀ a, Left top c a → d.mem a = (exec switchAway (c.pushWord back)).mem a)
      (turn : d.regs .rdi = (exec switchAway (c.pushWord back)).word (c.regs .rsi))
      (clear : Clear (Left top c) d) : SwitchTrip top c (switchToAsm d)

/-! ## System calls -/

/-- `struct regs`. -/
structure Regs where
  r15 : Word
  r14 : Word
  r13 : Word
  r12 : Word
  r11 : Word
  r10 : Word
  r9 : Word
  r8 : Word
  rbp : Word
  rsi : Word
  rdi : Word
  rdx : Word
  rcx : Word
  rbx : Word
  rax : Word
  rip : Word
  rsp : Word

/-- `struct regs` in memory. -/
def Regs.words (f : Regs) : List Word :=
  [f.r15, f.r14, f.r13, f.r12, f.r11, f.r10, f.r9, f.r8, f.rbp, f.rsi, f.rdi, f.rdx, f.rcx, f.rbx,
    f.rax, f.rip, f.rsp]

/-- `sizeof(struct regs)`. -/
def sizeofRegs : Nat := 136

/-- `offsetof(struct regs, rax)`. -/
def offsetofRax : Nat := 112

/-- `syscall_entry`, up to `call do_syscall`. -/
def syscallEntry (img : Image) : List Instr :=
  [.movStore img.rspScratch .rsp, .movImm .rbp 0, .movLoad .rsp img.currentTaskStack,
    .pushMem img.rspScratch, .push .rcx, .push .rax, .push .rbx, .push .rcx, .push .rdx, .push .rdi,
    .push .rsi, .push .rbp, .push .r8, .push .r9, .push .r10, .push .r11, .push .r12, .push .r13,
    .push .r14, .push .r15, .mov .rdi .rsp]

/-- `syscall_entry`, from the return of `do_syscall` to `sysret`. -/
def syscallExit : List Instr :=
  [.pop .r15, .pop .r14, .pop .r13, .pop .r12, .pop .r11, .pop .r10, .pop .r9, .pop .r8, .pop .rbp,
    .pop .rsi, .pop .rdi, .pop .rdx, .pop .rcx, .pop .rbx, .pop .rax, .pop .rcx, .pop .rsp,
    .movImm .r11 0x202]

/-- `pop_regs_and_sysret`, up to `sysret`. -/
def popRegsAndSysret : List Instr :=
  [.pop .r15, .pop .r14, .pop .r13, .pop .r12, .pop .r11, .pop .r10, .pop .r9, .pop .r8, .pop .rbp,
    .pop .rsi, .pop .rdi, .pop .rdx, .pop .rcx, .pop .rbx, .pop .rax, .pop .rcx, .pop .rsp,
    .movImm .r11 0x1b, .movDs .r11, .movImm .r11 0x202]

/-- The state in which `do_syscall` is called, after `syscall` in user mode. -/
def enterSyscall (img : Image) (c : Cpu) : Cpu :=
  exec (syscallEntry img) (syscall img.syscallEntry img.fmask c)

/-- The way back to user mode, after `do_syscall` has returned. -/
def leaveSyscall (c : Cpu) : Cpu := sysret (exec syscallExit c)

/-- The end of the current task's stack. -/
def stackTop (img : Image) (c : Cpu) : Nat := (c.word img.currentTaskStack).toNat

/-- `SYS_FORK`. -/
def sysFork : Word := 4

/-- `SYS_EXEC`. -/
def sysExec : Word := 5

/-- `do_syscall` of `regs`, from the call to the return. The C code before the system call (`enter`) and
after it, with the store of the result (`leave`), keeps its callers' bytes but for `regs->rax`. `own`
are the bytes that the system call has no business with. -/
inductive DoSyscall (top : Nat) (own : Nat → Prop) (result : Word) : Cpu → Cpu → Prop
  | mk {c d : Cpu} {enter leave : Cpu → Cpu}
      (restores : ∀ d, Abi own (enter c) d →
        Abi own (c.setWord (c.regs .rdi + BitVec.ofNat 64 offsetofRax) result) (leave d))
      (handler : CRun (SwitchTrip top) own (enter c) d) : DoSyscall top own result c (leave d)

/-- A system call other than `exec`, from `syscall` to the instruction after it. `written` are the bytes
that it writes at the addresses its caller gave it: the buffer of `read` and `getdents`, the status of
`wait`. Nothing checks where they are. -/
inductive SyscallRun (img : Image) (written : Nat → Prop) (result : Word) : Cpu → Cpu → Prop
  | mk {c d : Cpu} (other : c.regs .rax ≠ sysExec) (stack : kernelStackSize ≤ stackTop img c)
      (call : DoSyscall (stackTop img c) (fun a => a < stackTop img c ∧ ¬ written a) result
        (enterSyscall img c) d) :
      SyscallRun img written result c (leaveSyscall d)

/-! ## `fork` -/

/-- `offsetof(struct fork_frame, itf.rbp)`. -/
def offsetofRbp : Nat := 40

/-- `offsetof(struct fork_frame, itf.ret_addr)`. -/
def offsetofRetAddr : Nat := 48

/-- `offsetof(struct fork_frame, regs)`. -/
def offsetofRegs : Nat := 56

/-- The `sp` that `init_task_stack` gives a task. -/
def forkSp (bottom : Nat) : Nat := bottom + kernelStackSize - sizeofForkFrame

/-- `init_task_stack`, with the stack that `kcalloc` returned: its effect on memory. -/
def initTaskStackMem (img : Image) (bottom : Nat) (m : Bytes) : Bytes :=
  let m := memset m bottom 0 kernelStackSize
  let m := store m (forkSp bottom + offsetofRbp) 8 0
  store m (forkSp bottom + offsetofRetAddr) 8 img.popRegsAndSysret.toNat

/-- What `do_fork` does to the new task's stack, with the `regs` of the task it forks. -/
def doForkMem (img : Image) (bottom regs : Nat) (m : Bytes) : Bytes :=
  let m := initTaskStackMem img bottom m
  let m := memcpy m (forkSp bottom + offsetofRegs) regs sizeofRegs
  store m (forkSp bottom + offsetofRegs + offsetofRax) 8 0

/-- The new task's frame. -/
def ForkFrame (bottom a : Nat) : Prop := forkSp bottom ≤ a ∧ a < bottom + kernelStackSize

/-- The first switch to a task, out of another one's `switch_to_asm`: `ret` goes to
`pop_regs_and_sysret`. -/
def startTask (c : Cpu) : Cpu := sysret (exec popRegsAndSysret (switchToAsm c))

/-- `do_syscall` of `SYS_FORK`, from the call in `c` to the return in `e`, and the first switch to the
new task, which another task starts in `k`. `do_syscall` has put the address of its registers into
`current->regs`, and `do_fork` reads them there; its stores come between two runs of C code. `sys_fork`
returns `pid` as an `int`. -/
inductive ForkRun (top : Nat) (img : Image) (pid : BitVec 32) : Cpu → Cpu → Cpu → Prop
  | mk {c m d k : Cpu} {enter leave : Cpu → Cpu} {bottom : Nat}
      (call : c.regs .rax = sysFork)
      (deeper : (enter c).sp ≤ c.sp)
      (enters : ∀ a, c.sp ≤ a → a < top → (enter c).mem a = c.mem a)
      (restores : ∀ d, Abi (· < top) (enter c) d →
        Abi (· < top) (c.setWord (c.regs .rdi + BitVec.ofNat 64 offsetofRax) (pid.signExtend 64)) (leave d))
      (before : CRun (SwitchTrip top) (· < top) (enter c) m)
      (after : CRun (SwitchTrip top) (· < top)
        { m with mem := doForkMem img bottom (c.regs .rdi).toNat m.mem } d)
      (fits : bottom + kernelStackSize < 2 ^ 64)
      (apart : top ≤ bottom ∨ bottom + kernelStackSize ≤ m.sp)
      (kept : ∀ a, ForkFrame bottom a →
        k.mem a = doForkMem img bottom (c.regs .rdi).toNat m.mem a)
      (turn : k.regs .rdi = BitVec.ofNat 64 (forkSp bottom))
      (clear : Clear (ForkFrame bottom) k) : ForkRun top img pid c (leave d) k

/-! ## Interrupts -/

/-- The vectors for which the processor pushes an error code, and `int_table.asm` has an
`isr_err_stub`. -/
def hasErrorCode (vec : Nat) : Bool := vec ∈ [8, 10, 11, 12, 13, 14, 17, 30]

/-- `isr_stub_0` to `isr_stub_47`. -/
def isrStub (vec : Nat) : List Instr :=
  if hasErrorCode vec then [.movDword 4 vec] else [.pushImm 0, .movDword 4 vec]

/-- `isr_common`, up to `call isr_main_entry`. -/
def isrCommonSave : List Instr :=
  [.push .rdi, .push .rsi, .push .rdx, .push .rcx, .push .rax, .push .r8, .push .r9, .push .r10,
    .push .r11, .mov .rdi .rsp]

/-- `isr_common`, from the return of `isr_main_entry` to `iretq`. -/
def isrCommonRestore : List Instr :=
  [.pop .rdi, .pop .rsi, .pop .rdx, .pop .rcx, .pop .rax, .pop .r8, .pop .r9, .pop .r10, .pop .r11,
    .addImm .rsp 8]

/-- The state in which `isr_main_entry` is called. -/
def enterIsr (vec : Nat) (entry sp : Word) (code : Option Word) (c : Cpu) : Cpu :=
  exec (isrStub vec ++ isrCommonSave) (interrupt entry sp code c)

/-- An interrupt that arrives in `c`, to the return from it. The processor starts on the stack that ends
at `sp`: `rsp0` from user mode, the interrupted stack from the kernel. -/
inductive InterruptRun (vec : Nat) : Cpu → Cpu → Prop
  | mk {c d : Cpu} {entry sp : Word} {code : Option Word} (table : vec < 48)
      (pushes : code.isSome = hasErrorCode vec) (room : 120 ≤ sp.toNat)
      (handler : CRun (SwitchTrip sp.toNat) (· < sp.toNat) (enterIsr vec entry sp code c) d) :
      InterruptRun vec c (iretq (exec isrCommonRestore d))

end Blackcomb.Kernel
