import Blackcomb.Kernel.Tty

/-!
# The process system

The kernel as a machine whose steps are the calls that `do_syscall` and the interrupt handlers
make. System calls run with interrupts masked, so each call up to the point where it switches
tasks is one step, and the task that makes it is `current`.
-/

namespace Blackcomb.Kernel

open State

/-- The calls the system takes. What they get from outside the process table is on the label: the
address of a fresh kernel stack, the inode a path resolves to and its mode. -/
inductive Event
  | fork (stack : Nat)
  | exec
  | exit (status : Int)
  | wait
  | read
  | readResume (n : Nat)
  | key (pressed : Ps2Key)
  | tick
  | schedule
  | open_ (ino mode : Nat)
  | close (fd : Int)

/-- One step of the system. -/
def step : Event → State → Except Fault State
  | .fork stack, s => schedFork s s.current stack
  | .exec, s => .ok (schedExec s s.current)
  | .exit status, s => doExit s s.current status
  | .wait, s => doWait s s.current
  | .read, s => stdinRead s
  | .readResume n, s => .ok (stdinReadResume s n).2
  | .key pressed, s => ttySendKey s pressed
  | .tick, s => schedMaybePreempt s
  | .schedule, s => Kernel.schedule s
  | .open_ ino mode, s => doOpen s ino mode
  | .close fd, s => doClose s fd

/-- The files `tty_init` makes. -/
def ttyFiles : Nat → File
  | 0 => { ops := some .stdinOps, refcnt := 1 }
  | 1 => { ops := some .stdoutOps, refcnt := 1 }
  | _ => {}

/-- The task `create_init` makes, with the address of its kernel stack. -/
def createInit (stack : Nat) : Task where
  pid := 1
  mm := 1
  stackBottom := stack
  stackTop := stack + kernelStackSize
  sp := stack + kernelStackSize - sizeofForkFrame
  next := some 0
  prev := some 0
  state := .running
  aliveTicks := 0
  fdtab := fun i => if i = 0 then some 0 else if i = 1 then some 1 else none

/-- The state after `tty_init` and `start_init`: one task, two files, and the address spaces
`kernel_mm` and init's own. -/
def startInit (stack : Nat) : State where
  tasks := fun n => if n = 0 then createInit stack else {}
  ntasks := 1
  current := 0
  procRoot := 0
  nextPid := 1000
  nmms := 2
  files := ttyFiles
  nfiles := 2
  tty := { stdin := 0, stdout := 1 }
  currentTaskStack := (createInit stack).stackTop
  tssRsp0 := (createInit stack).sp
  cr3 := (createInit stack).mm
  rsp := (createInit stack).sp
  freed := []
  freedMms := []
  freedFiles := []
  exits := []
  ringInserts := []
  waits := []

end Blackcomb.Kernel
