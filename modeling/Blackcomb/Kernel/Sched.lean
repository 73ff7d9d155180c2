import Mathlib.Algebra.Group.Nat.Defs
import Mathlib.Data.Fin.Basic
import Blackcomb.Kernel.State

/-!
# Scheduling, fork, exit and wait

The functions of `sched.c`, `fork.c` and `exit.c` on the process table, assignment by assignment
in the order of the C text. `kcalloc` gives the next unused name; the address it returns for a
kernel stack is a parameter. A call of `kcalloc`, `mm_dupe` or `exec_elf` that panics has no next
state, and the model has none either: what is written here is their successful return.

`do_wait` sleeps in the middle of a loop. `doWait` is one turn of that loop: it either reaps and
returns, or goes to sleep, and the sleeper's next turn is the next call.
-/

namespace Blackcomb.Kernel

open State

/-- `PREEMPT_TICK_COUNT`. -/
def preemptTickCount : Nat := 10

/-! ## The run ring and the process tree -/

/-- `switch_to`. `switch_to_asm` stores the stack pointer in the old task and loads the new one's. -/
def switchTo (s : State) (t : Nat) : Except Fault State :=
  let old := s.current
  let s := { s with current := t }
  if (s.tasks old).pid = (s.tasks t).pid then
    .error (.panic "kernel bug: switch to same process")
  else
    let s := { s with
      currentTaskStack := (s.tasks t).stackTop
      tssRsp0 := (s.tasks t).sp
      cr3 := (s.tasks t).mm }
    .ok { s.modifyTask old (fun x => { x with sp := s.rsp }) with rsp := (s.tasks t).sp }

/-- The sibling `tree_insert_proc` gives a new child: `parent->children->sibling`, or `NULL` when
the parent has no children. -/
def insertSibling (s : State) (parent : Nat) : Except Fault (Option Nat) :=
  match (s.tasks parent).children with
  | some c => do
    let c ← s.deref (some c)
    pure (s.tasks c).sibling
  | none => pure none

/-- `tree_insert_proc`. -/
def treeInsertProc (s : State) (parent t : Nat) : Except Fault State := do
  let s := s.modifyTask t fun x => { x with parent := some parent }
  let sibling ← insertSibling s parent
  let s := s.modifyTask t fun x => { x with sibling := sibling }
  pure (s.modifyTask parent fun x => { x with children := some t })

/-- `sched_rr_insert_proc`. -/
def schedRrInsertProc (s : State) (t : Nat) : Except Fault State := do
  let s := s.modifyTask t fun x => { x with next := (s.tasks s.current).next }
  let s := s.modifyTask t fun x => { x with prev := some s.current }
  let n ← s.deref (s.tasks s.current).next
  let s := s.modifyTask n fun x => { x with prev := some t }
  let s := s.modifyTask s.current fun x => { x with next := some t }
  pure { s with ringInserts := t :: s.ringInserts }

/-- `sched_rr_remove_proc`. -/
def schedRrRemoveProc (s : State) (t : Nat) : Except Fault State := do
  let p ← s.deref (s.tasks t).prev
  let s := s.modifyTask p fun x => { x with next := (s.tasks t).next }
  let n ← s.deref (s.tasks t).next
  let s := s.modifyTask n fun x => { x with prev := (s.tasks t).prev }
  let s := s.modifyTask t fun x => { x with next := none }
  pure (s.modifyTask t fun x => { x with prev := none })

/-- `schedule`. -/
def schedule (s : State) : Except Fault State := do
  let s := s.modifyTask s.current fun x => { x with aliveTicks := 0 }
  if (s.tasks s.current).next = some s.current then
    pure s
  else
    let n ← s.deref (s.tasks s.current).next
    switchTo s n

/-- `schedule_sleep`. -/
def scheduleSleep (s : State) : Except Fault State := do
  let s := s.modifyTask s.current fun x => { x with aliveTicks := 0 }
  let next := (s.tasks s.current).next
  let s ← schedRrRemoveProc s s.current
  let n ← s.deref next
  switchTo s n

/-- `sched_maybe_preempt`, the timer interrupt. The tick is counted either way. -/
def schedMaybePreempt (s : State) : Except Fault State :=
  let ticks := (s.tasks s.current).aliveTicks
  let s := s.modifyTask s.current fun x => { x with aliveTicks := ticks + 1 }
  if ticks < preemptTickCount then .ok s else schedule s

/-- The timer interrupt in user mode. The processor starts at `__tss.rsp0`, and the frames down to the
place where `switch_to_asm` stores the stack pointer take `k` bytes. -/
def timerInterrupt (k : Nat) (s : State) : Except Fault State :=
  schedMaybePreempt { s with rsp := s.tssRsp0 - k }

/-! ## Fork -/

/-- One turn of `do_fork`'s loop over the descriptor table. -/
def forkFd (t new : Nat) (s : State) (i : Fin taskFileMax) : State :=
  match (s.tasks t).fdtab i with
  | some f =>
    let s := s.modifyFile f fun x => { x with refcnt := x.refcnt + 1 }
    s.modifyTask new fun x => { x with fdtab := Function.update x.fdtab i (some f) }
  | none => s

/-- `init_task_stack`, with the address `kcalloc` returned for the stack. -/
def initTaskStack (s : State) (t stack : Nat) : State :=
  s.modifyTask t fun x => { x with
    stackBottom := stack
    stackTop := stack + kernelStackSize
    sp := stack + kernelStackSize - sizeofForkFrame }

/-- `do_fork` up to its loop: a zeroed record given its state, the copied address space and a
pid. -/
def forkTask (s : State) : State :=
  let new := s.ntasks
  let s := { s with ntasks := s.ntasks + 1, tasks := Function.update s.tasks new {} }
  let s := s.modifyTask new fun x => { x with state := .running, mm := s.nmms, pid := s.nextPid }
  { s with nmms := s.nmms + 1, nextPid := (s.nextPid + 1) % 2 ^ 32 }

/-- `do_fork`: the new task's name and the state it is in. -/
def doFork (s : State) (t stack : Nat) : Nat × State :=
  let new := s.ntasks
  let s := (List.finRange taskFileMax).foldl (forkFd t new) (forkTask s)
  (new, initTaskStack s new stack)

/-- `sched_fork`. -/
def schedFork (s : State) (t stack : Nat) : Except Fault State := do
  let t ← s.deref (some t)
  let (new, s) := doFork s t stack
  let s ← schedRrInsertProc s new
  treeInsertProc s t new

/-- `sched_exec` after `exec_elf` built the new address space. `path` lies in the old one, so the
old one is freed last, under `kernel_mm`. -/
def schedExec (s : State) (t : Nat) : State :=
  let mmOld := (s.tasks t).mm
  let s := s.modifyTask t fun x => { x with mm := s.nmms }
  let s := { s with nmms := s.nmms + 1, cr3 := 0 }
  let s := { s with freedMms := mmOld :: s.freedMms }
  { s with cr3 := (s.tasks t).mm }

/-! ## Exit and wait -/

/-- One turn of `task_free`'s loop: drop a reference, free the file with its last one. -/
def freeFd (t : Nat) (s : State) (i : Fin taskFileMax) : State :=
  match (s.tasks t).fdtab i with
  | some f =>
    let s := s.modifyFile f fun x => { x with refcnt := x.refcnt - 1 }
    if (s.files f).refcnt = 0 then { s with freedFiles := f :: s.freedFiles } else s
  | none => s

/-- `task_free`. The record itself is left as it is: `free` does not clear memory. -/
def taskFree (s : State) (t : Nat) : State :=
  let s := { s with freedMms := (s.tasks t).mm :: s.freedMms }
  let s := (List.finRange taskFileMax).foldl (freeFd t) s
  { s with freed := t :: s.freed }

/-- `do_wait`'s walk along `sibling` to the first zombie. The walk is bounded by the number of
tasks that exist. -/
def findZombie (s : State) : Nat → Option Nat → Except Fault (Option Nat)
  | _, none => .ok none
  | 0, some _ => .error .diverge
  | fuel + 1, some c => do
    let c ← s.deref (some c)
    if (s.tasks c).state = .zombie then pure (some c)
    else findZombie s fuel (s.tasks c).sibling

/-- One turn of `do_wait`'s retry loop. The status stored is the caller's own field. -/
def doWait (s : State) (t : Nat) : Except Fault State := do
  match ← findZombie s s.ntasks (s.tasks t).children with
  | none =>
    let s := s.modifyTask s.current fun x => { x with state := .waiting }
    scheduleSleep s
  | some child =>
    let ret : WaitReturn := ⟨t, child, (s.tasks child).pid, (s.tasks t).exitStatus⟩
    pure (taskFree { s with waits := ret :: s.waits } child)

/-- `do_exit`'s wake-up of a parent that sleeps in `do_wait`. -/
def wakeParent (s : State) (p : Nat) : Except Fault State :=
  if (s.tasks p).state = .waiting then do
    let s ← schedRrInsertProc s p
    pure (s.modifyTask p fun x => { x with state := .running })
  else pure s

/-- `do_exit`. -/
def doExit (s : State) (t : Nat) (status : Int) : Except Fault State := do
  let s := s.modifyTask t fun x => { x with state := .zombie, exitStatus := status }
  let s := { s with exits := (t, status) :: s.exits }
  let p ← s.deref (s.tasks t).parent
  let s ← wakeParent s p
  scheduleSleep s

end Blackcomb.Kernel
