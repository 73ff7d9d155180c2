import Blackcomb.Kernel.System
import Blackcomb.Fs.Exec

/-!
# The process table over the address spaces

The process table names address spaces and never looks into one; `vmm.c` does not know of tasks. Here
the two are one machine: a call works on the spaces of the tasks that it is about, `do_fork` on the
current task's, `sched_exec` on the old and the new one, `task_free` on the reaped task's. Both parts
name a space by the order of its creation.
-/

namespace Blackcomb.Kernel

open Memory Budget Mm

/-- The process table and the address spaces. -/
structure Machine where
  kernel : State
  vmm : Vmm

/-- What a call of the current task does to address spaces. `elf` is the file at the path that `exec`
gets. -/
def spaceWork (rs : RegionTable) (s : State) (elf : Bytes) : Event → Op Unit
  | .fork _ => do
    let _ ← mmDupe rs (s.tasks s.current).mm
    pure ()
  | .exec => do
    let _ ← Fs.schedExec rs (s.tasks s.current).mm elf
    pure ()
  | .wait =>
    match findZombie s s.ntasks (s.tasks s.current).children with
    | .ok (some child) => mmFree rs (s.tasks child).mm
    | _ => pure ()
  | _ => pure ()

/-- What happens to the machine: a call, or a byte that the current task stores. -/
inductive Move
  | call (event : Event) (elf : Bytes)
  | store (virt : Nat) (byte : BitVec 8)

namespace Machine

/-- The current task's space. -/
def mm (m : Machine) : Nat := (m.kernel.tasks m.kernel.current).mm

/-- One step of the machine. -/
def step (rs : RegionTable) : Move → Machine → Except Fault Machine
  | .call event elf, m => do
    let (_, vmm) ← spaceWork rs m.kernel elf event m.vmm
    let kernel ← Kernel.step event m.kernel
    pure { kernel, vmm }
  | .store virt byte, m => do
    let vmm ← Vmm.step rs (.write m.mm virt byte) m.vmm
    pure { m with vmm }

end Machine

end Blackcomb.Kernel
