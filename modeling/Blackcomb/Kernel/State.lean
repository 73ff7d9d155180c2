import Mathlib.Logic.Function.Basic
import Blackcomb.Fault

/-!
# The process table

The data of `sched.h`, `file.h` and `tty.h`, and the globals of `sched.c`, `fork.c` and `tty.c`.

Objects that the kernel takes from `kcalloc` are named by the order of their creation: the task
named `n` is the `n`-th `struct task_struct` ever made, and a pointer is `none` for `NULL` or
`some` name. A name is never handed out twice, so the record of a freed task stays as `free` left
it: the model's reading of "freed memory that has not been reused". Address spaces are named the
same way, `0` being `kernel_mm`, and `cr3` holds the name of the space whose `p4` is loaded.

Six fields of the state are history that no function reads: the calls of `task_free`, of
`mm_free`, of `free` on a `struct file`, of `do_exit`, of `sched_rr_insert_proc`, and what `do_wait`
returned.

Left out: what `printf` shows. `regs` and the frames on the kernel stacks are in `Kernel.Entry`, on
bytes.
-/

namespace Blackcomb.Kernel

/-- `enum task_state`. `kcalloc` leaves a task `running`, the zero of the enumeration. -/
inductive TaskState
  | running
  | sleeping
  | waiting
  | zombie
  deriving DecidableEq, Repr

/-- `TASK_FILE_MAX`. -/
abbrev taskFileMax : Nat := 16

/-- `KERNEL_STACK_SIZE`. -/
def kernelStackSize : Nat := 8192

/-- `sizeof(struct fork_frame)`: seven words of `inactive_task_frame`, seventeen of `regs`. -/
def sizeofForkFrame : Nat := 7 * 8 + 17 * 8

/-- `struct task_struct`, as `kcalloc` zeroes it. -/
structure Task where
  pid : Nat := 0
  state : TaskState := .running
  exitStatus : Int := 0
  mm : Nat := 0
  stackBottom : Nat := 0
  stackTop : Nat := 0
  sp : Nat := 0
  next : Option Nat := none
  prev : Option Nat := none
  parent : Option Nat := none
  children : Option Nat := none
  sibling : Option Nat := none
  fdtab : Fin taskFileMax → Option Nat := fun _ => none
  aliveTicks : Nat := 0

/-- The four `struct file_ops` of the kernel. -/
inductive FileOps
  | stdinOps
  | stdoutOps
  | ext2FileOperations
  | ext2DirOperations
  deriving DecidableEq, Repr

/-- `struct file`. -/
structure File where
  ops : Option FileOps := none
  ino : Nat := 0
  refcnt : Int := 0

/-- `TTY_BUF_SIZE`. -/
def ttyBufSize : Nat := 1024

/-- `struct tty`. The byte after `buf` is the padding before `waiting_task`. -/
structure Tty where
  bufi : Nat := 0
  buf : Nat → BitVec 8 := fun _ => 0
  waitingTask : Option Nat := none
  stdin : Nat
  stdout : Nat

/-- What one `do_wait` call returned: who called it, the child it reaped, the pid it returned and
the value it stored in `*wstatus`. -/
structure WaitReturn where
  caller : Nat
  child : Nat
  pid : Nat
  wstatus : Int

/-- The kernel's process state. -/
structure State where
  tasks : Nat → Task
  ntasks : Nat
  current : Nat
  procRoot : Nat
  nextPid : Nat
  nmms : Nat
  files : Nat → File
  nfiles : Nat
  tty : Tty
  currentTaskStack : Nat
  tssRsp0 : Nat
  cr3 : Nat
  /-- The stack pointer at which `switch_to_asm` stores the outgoing context. -/
  rsp : Nat
  /-- History: the arguments of `task_free`, latest first. -/
  freed : List Nat
  /-- History: the arguments of `mm_free`, latest first. -/
  freedMms : List Nat
  /-- History: the files passed to `free`, latest first. -/
  freedFiles : List Nat
  /-- History: the calls of `do_exit` with their status, latest first. -/
  exits : List (Nat × Int)
  /-- History: the arguments of `sched_rr_insert_proc`, latest first. -/
  ringInserts : List Nat
  /-- History: what `do_wait` returned, latest first. -/
  waits : List WaitReturn

namespace State

/-- Follow a task pointer. Freed tasks can still be read; names that were never handed out and
`NULL` cannot. -/
def deref (s : State) : Option Nat → Except Fault Nat
  | some p => if p < s.ntasks then .ok p else .error .badPointer
  | none => .error .badPointer

/-- Assign fields of one task. -/
def modifyTask (s : State) (t : Nat) (f : Task → Task) : State :=
  { s with tasks := Function.update s.tasks t (f (s.tasks t)) }

/-- Assign fields of one file. -/
def modifyFile (s : State) (f : Nat) (g : File → File) : State :=
  { s with files := Function.update s.files f (g (s.files f)) }

theorem deref_eq_ok {s : State} {p : Option Nat} {q : Nat} :
    s.deref p = .ok q ↔ p = some q ∧ q < s.ntasks := by
  cases p with
  | none => simp [deref]
  | some p =>
    simp only [deref, Option.some.injEq]
    split
    · rename_i h
      simp only [Except.ok.injEq]
      exact ⟨fun e => ⟨e, e ▸ h⟩, fun e => e.1⟩
    · rename_i h
      refine ⟨fun e => (by cases e), ?_⟩
      rintro ⟨rfl, lt⟩
      exact absurd lt h

/-- Following a pointer reads no task record, only how many there are. -/
theorem deref_modifyTask (s : State) (t : Nat) (f : Task → Task) :
    (s.modifyTask t f).deref = s.deref := rfl

@[simp] theorem modifyTask_tasks (s : State) (t : Nat) (f : Task → Task) (x : Nat) :
    (s.modifyTask t f).tasks x = if x = t then f (s.tasks t) else s.tasks x :=
  Function.update_apply ..

@[simp] theorem modifyTask_current (s : State) (t : Nat) (f : Task → Task) :
    (s.modifyTask t f).current = s.current := rfl

@[simp] theorem modifyTask_ntasks (s : State) (t : Nat) (f : Task → Task) :
    (s.modifyTask t f).ntasks = s.ntasks := rfl

@[simp] theorem modifyTask_freed (s : State) (t : Nat) (f : Task → Task) :
    (s.modifyTask t f).freed = s.freed := rfl

@[simp] theorem modifyTask_tty (s : State) (t : Nat) (f : Task → Task) :
    (s.modifyTask t f).tty = s.tty := rfl

@[simp] theorem modifyTask_cr3 (s : State) (t : Nat) (f : Task → Task) :
    (s.modifyTask t f).cr3 = s.cr3 := rfl

@[simp] theorem modifyTask_currentTaskStack (s : State) (t : Nat) (f : Task → Task) :
    (s.modifyTask t f).currentTaskStack = s.currentTaskStack := rfl

@[simp] theorem modifyTask_exits (s : State) (t : Nat) (f : Task → Task) :
    (s.modifyTask t f).exits = s.exits := rfl

@[simp] theorem modifyFile_files (s : State) (f : Nat) (g : File → File) (x : Nat) :
    (s.modifyFile f g).files x = if x = f then g (s.files f) else s.files x :=
  Function.update_apply ..

@[simp] theorem modifyFile_freedFiles (s : State) (f : Nat) (g : File → File) :
    (s.modifyFile f g).freedFiles = s.freedFiles := rfl

end State

end Blackcomb.Kernel
