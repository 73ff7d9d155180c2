import Mathlib.Algebra.Group.Int.Defs
import Blackcomb.Kernel.State
import Blackcomb.Lib.X86
import Blackcomb.Libc.Printf
import Blackcomb.Mm.Kmalloc

/-!
# Descriptors

The calls of `sys.c` and `open.c` that take a descriptor, on the bytes of the kernel: `current` is the address
of a `struct task_struct`, and its files and their operations are where the pointers say. The descriptor is
what is left of `rdi` as an `int`, and `fdtab[fd]` is the word that far from `fdtab`, whatever stands there.
Of the operations only `stdout_write` is followed.
-/

namespace Blackcomb.Kernel

open Memory X86 Mm Libc

/-- `offsetof(struct task_struct, fdtab)`: three four-byte fields and their padding, and ten words. -/
def offsetofFdtab : Nat := 4 * 4 + 10 * 8

/-- `offsetof(struct task_struct, alive_ticks)`. -/
def offsetofAliveTicks : Nat := offsetofFdtab + taskFileMax * 8

/-- The members of `struct file_ops`. -/
inductive FileOp
  | read
  | write
  | getdents
  deriving DecidableEq, Repr

/-- Where a member stands in `struct file_ops`. -/
def FileOp.offset : FileOp → Nat
  | .read => 0
  | .write => 8
  | .getdents => 16

/-- `&current->fdtab[fd]`. -/
def fdtabAt (current : Nat) (fd : Int) : Nat := ((current + offsetofFdtab + fd * 8) % 2 ^ 64).toNat

/-- How a call goes on: with the operation at `entry`, or back to the user once the file is freed. -/
inductive FdResult
  | calls (entry f : Nat)
  | closed (f : Nat) (h : Heap)

/-- A call with a descriptor: the words of `fdtab` that it accesses, and how it goes on. -/
structure FdCall where
  slots : List Nat
  result : Except Fault FdResult

/-- `f->ops->op`. The `ops` are the first member of a `struct file`. -/
def opEntry (m : Bytes) (op : FileOp) (f : Nat) : Nat := load m (add64 (load m f 8) op.offset) 8

/-- `sys_read`, `sys_write` and `sys_getdents`, which differ in the operation. -/
def sysFileOp (op : FileOp) (h : Heap) (current : Nat) (fd : Int) : FdCall :=
  let slot := fdtabAt current fd
  let f := load h.mem slot 8
  { slots := [slot]
    result :=
      if f = 0 then .error (.panic "fd %d does not exist")
      else if opEntry h.mem op f = 0 then .error (.panic "fd %d ENOSYS")
      else .ok (.calls (opEntry h.mem op f) f) }

/-- `sys_read`. -/
def sysRead : Heap → Nat → Int → FdCall := sysFileOp .read

/-- `sys_write`. -/
def sysWrite : Heap → Nat → Int → FdCall := sysFileOp .write

/-- `sys_getdents`. -/
def sysGetdents : Heap → Nat → Int → FdCall := sysFileOp .getdents

/-- `sys_close`, which is `do_close`. -/
def sysClose (h : Heap) (current : Nat) (fd : Int) : FdCall :=
  let slot := fdtabAt current fd
  let f := load h.mem slot 8
  { slots := [slot]
    result :=
      if f = 0 then .error (.panic "bad fd")
      else
        let h := free h f
        .ok (.closed f { h with mem := store h.mem slot 8 0 }) }

/-- The system calls that take a descriptor. -/
inductive FdSyscall
  | read
  | write
  | getdents
  | close
  deriving DecidableEq, Repr

/-- `(int)regs->rdi`. -/
def fdOf (rdi : Word) : Int := (rdi.setWidth 32).toInt

/-- Their cases of `do_syscall`. -/
def fdSyscall (call : FdSyscall) (h : Heap) (current : Nat) (rdi : Word) : FdCall :=
  match call with
  | .read => sysRead h current (fdOf rdi)
  | .write => sysWrite h current (fdOf rdi)
  | .getdents => sysGetdents h current (fdOf rdi)
  | .close => sysClose h current (fdOf rdi)

/-- `sys_write` to its end, with `stdout_write` at an address and whatever is at the others. -/
def sysWriteOut (number : Char → Directive → List Word → Except Fault (List (BitVec 8) × List Word))
    (stdoutWriteAt : Nat) (other : Nat → Nat → Except Fault Printed) (h : Heap) (current : Nat)
    (rdi buf n : Word) : Except Fault Printed := do
  match ← (fdSyscall .write h current rdi).result with
  | .calls entry f => if entry = stdoutWriteAt then stdoutWrite number h.mem buf n else other entry f
  | .closed _ _ => .error .undefined

end Blackcomb.Kernel
