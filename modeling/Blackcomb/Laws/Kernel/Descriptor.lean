import Blackcomb.Kernel.Descriptor
import Blackcomb.Laws.Kernel.Steps

/-!
# Any descriptor

No call compares a descriptor with the size of `fdtab`. One that is out of range names another word of the
task, or one outside it, and if that is not zero it is taken for a file. Inside the table a call goes where
the slot says, with one more thing unchecked: that the file has operations at all.

**What it does not establish.** A word outside the table that is not zero is a file somewhere in
memory, and the call then goes where the file's operations say; nothing is said of where that leads.
-/

namespace Blackcomb.Kernel

open Memory X86 Mm

variable {h : Heap} {current : Nat} {fd : Int}

/-- A call with a descriptor is safe: it accesses the table inside its bounds, calls an operation that is
not null, of a file that is not null and has operations, frees no null file, and panics for any number
that is no slot's, for an empty slot, and for a file that lacks the operation. -/
structure FdSafe (h : Heap) (current : Nat) (fd : Int) (op : Option FileOp) (call : FdCall) : Prop where
  inside : ∀ a ∈ call.slots, ∃ i < taskFileMax, a = fdtabAt current i
  nonnull : ∀ entry f, call.result = .ok (.calls entry f) → f ≠ 0 ∧ load h.mem f 8 ≠ 0 ∧ entry ≠ 0
  closes : ∀ f h', call.result = .ok (.closed f h') → f ≠ 0
  panics : ¬ (0 ≤ fd ∧ fd < taskFileMax) → call.slots = [] ∧
    ∃ msg ∈ ["fd %d does not exist", "fd %d ENOSYS", "bad fd"], call.result = .error (.panic msg)
  empty : 0 ≤ fd → fd < taskFileMax → load h.mem (fdtabAt current fd) 8 = 0 →
    call.result = .error (.panic (op.elim "bad fd" fun _ => "fd %d does not exist"))
  missing : 0 ≤ fd → fd < taskFileMax → load h.mem (fdtabAt current fd) 8 ≠ 0 → ∀ o ∈ op,
    opEntry h.mem o (load h.mem (fdtabAt current fd) 8) = 0 → call.result = .error (.panic "fd %d ENOSYS")

/-- The operation a call looks for. -/
def FdSyscall.op : FdSyscall → Option FileOp
  | .read => some .read
  | .write => some .write
  | .getdents => some .getdents
  | .close => none

/-- A file without operations, while the word where `NULL` would have this one is not zero. -/
def TakesNullOps (h : Heap) (op : FileOp) (f : Nat) : Prop :=
  f ≠ 0 ∧ load h.mem f 8 = 0 ∧ load h.mem op.offset 8 ≠ 0

/-! ## Slots -/

/-- Different numbers are different words. -/
theorem fdtabAt_inj {fd' : Int} (low : -2 ^ 31 ≤ fd) (high : fd < 2 ^ 31) (low' : -2 ^ 31 ≤ fd')
    (high' : fd' < 2 ^ 31) (same : fdtabAt current fd = fdtabAt current fd') : fd = fd' := by
  simp only [fdtabAt] at same
  omega

/-- A descriptor is an `int`. -/
theorem fdOf_bounds (rdi : Word) : -2 ^ 31 ≤ fdOf rdi ∧ fdOf rdi < 2 ^ 31 :=
  ⟨BitVec.le_toInt _, BitVec.toInt_lt⟩

/-- The word of a descriptor is a slot of the table just when the descriptor is in range. -/
theorem slot_inside_iff (low : -2 ^ 31 ≤ fd) (high : fd < 2 ^ 31) :
    (∃ i < taskFileMax, fdtabAt current fd = fdtabAt current i) ↔ 0 ≤ fd ∧ fd < taskFileMax := by
  have size : taskFileMax = 16 := rfl
  constructor
  · rintro ⟨i, lt, same⟩
    have equal := fdtabAt_inj low high (by omega) (by omega) same
    omega
  · rintro ⟨pos, lt⟩
    exact ⟨fd.toNat, by omega, by rw [Int.toNat_of_nonneg pos]⟩

/-! ## The calls -/

/-- Where an operation is looked up if the file has none. -/
theorem opEntry_null {m : Bytes} {op : FileOp} {f : Nat} (null : load m f 8 = 0) :
    opEntry m op f = load m op.offset 8 := by
  rw [opEntry, null]
  cases op <;> rfl

/-- The entry of an operation that the file has is called. -/
theorem sysFileOp_calls {op : FileOp} (file : load h.mem (fdtabAt current fd) 8 ≠ 0)
    (entry : opEntry h.mem op (load h.mem (fdtabAt current fd) 8) ≠ 0) :
    (sysFileOp op h current fd).result = .ok (.calls (opEntry h.mem op
      (load h.mem (fdtabAt current fd) 8)) (load h.mem (fdtabAt current fd) 8)) := by
  simp only [sysFileOp]
  rw [if_neg file, if_neg entry]

/-- An empty slot. -/
theorem sysFileOp_empty {op : FileOp} (empty : load h.mem (fdtabAt current fd) 8 = 0) :
    (sysFileOp op h current fd).result = .error (.panic "fd %d does not exist") := by
  simp only [sysFileOp]
  rw [if_pos empty]

/-- A file that lacks the operation. -/
theorem sysFileOp_missing {op : FileOp} (file : load h.mem (fdtabAt current fd) 8 ≠ 0)
    (missing : opEntry h.mem op (load h.mem (fdtabAt current fd) 8) = 0) :
    (sysFileOp op h current fd).result = .error (.panic "fd %d ENOSYS") := by
  simp only [sysFileOp]
  rw [if_neg file, if_pos missing]

/-- The calls that look for an operation. -/
theorem sysFileOp_safe_iff (op : FileOp) (low : -2 ^ 31 ≤ fd) (high : fd < 2 ^ 31) :
    FdSafe h current fd (some op) (sysFileOp op h current fd) ↔ (0 ≤ fd ∧ fd < taskFileMax) ∧
      ¬ TakesNullOps h op (load h.mem (fdtabAt current fd) 8) := by
  constructor
  · intro safe
    refine ⟨(slot_inside_iff low high).mp (safe.inside _ (List.mem_singleton_self _)), ?_⟩
    rintro ⟨file, null, entry⟩
    rw [← opEntry_null null] at entry
    exact (safe.nonnull _ _ (sysFileOp_calls file entry)).2.1 null
  · rintro ⟨range, noNull⟩
    refine ⟨fun a mem => ?_, fun entry f called => ?_, fun f h' closed => ?_, fun out => absurd range out,
      fun _ _ empty => sysFileOp_empty empty, fun _ _ file o looked missing => ?_⟩
    · rw [List.mem_singleton.mp mem]
      exact (slot_inside_iff low high).mpr range
    · simp only [sysFileOp] at called
      split at called
      · cases called
      · rename_i file
        split at called
        · cases called
        · rename_i entered
          simp only [Except.ok.injEq, FdResult.calls.injEq] at called
          obtain ⟨rfl, rfl⟩ := called
          refine ⟨file, fun null => noNull ⟨file, null, ?_⟩, entered⟩
          rwa [← opEntry_null null]
    · simp only [sysFileOp] at closed
      split at closed
      · cases closed
      · split at closed <;> cases closed
    · obtain rfl := Option.some.inj looked
      exact sysFileOp_missing file missing

/-- A file that is open is freed. -/
theorem sysClose_closes (file : load h.mem (fdtabAt current fd) 8 ≠ 0) :
    ∃ h', (sysClose h current fd).result = .ok (.closed (load h.mem (fdtabAt current fd) 8) h') := by
  simp only [sysClose]
  rw [if_neg file]
  exact ⟨_, rfl⟩

/-- An empty slot. -/
theorem sysClose_empty (empty : load h.mem (fdtabAt current fd) 8 = 0) :
    (sysClose h current fd).result = .error (.panic "bad fd") := by
  simp only [sysClose]
  rw [if_pos empty]

/-- The one that frees the file. -/
theorem sysClose_safe_iff (low : -2 ^ 31 ≤ fd) (high : fd < 2 ^ 31) :
    FdSafe h current fd none (sysClose h current fd) ↔ 0 ≤ fd ∧ fd < taskFileMax := by
  constructor
  · intro safe
    exact (slot_inside_iff low high).mp (safe.inside _ (List.mem_singleton_self _))
  · intro range
    refine ⟨fun a mem => ?_, fun entry f called => ?_, fun f h' closed => ?_, fun out => absurd range out,
      fun _ _ empty => sysClose_empty empty, fun _ _ _ o looked => absurd looked (Option.not_mem_none o)⟩
    · rw [List.mem_singleton.mp mem]
      exact (slot_inside_iff low high).mpr range
    · simp only [sysClose] at called
      split at called <;> cases called
    · simp only [sysClose] at closed
      split at closed
      · cases closed
      · rename_i file
        simp only [Except.ok.injEq, FdResult.closed.injEq] at closed
        exact closed.1 ▸ file

/-- **Any descriptor.** For every call that takes a descriptor, every memory of the kernel, wherever the task
is in it, and every value that the user passes: the call is safe if and only if the value names one of the
slots, and the file there, if an operation of it is called for, is not one without operations while a word
stands at that place of `NULL`. -/
theorem fdSyscall_safe_iff (call : FdSyscall) (h : Heap) (current : Nat) (rdi : Word) :
    FdSafe h current (fdOf rdi) call.op (fdSyscall call h current rdi) ↔
      (0 ≤ fdOf rdi ∧ fdOf rdi < taskFileMax) ∧
        ∀ op ∈ call.op, ¬ TakesNullOps h op (load h.mem (fdtabAt current (fdOf rdi)) 8) := by
  obtain ⟨low, high⟩ := fdOf_bounds rdi
  cases call with
  | read => exact (sysFileOp_safe_iff .read low high).trans (by simp [FdSyscall.op])
  | write => exact (sysFileOp_safe_iff .write low high).trans (by simp [FdSyscall.op])
  | getdents => exact (sysFileOp_safe_iff .getdents low high).trans (by simp [FdSyscall.op])
  | close => exact (sysClose_safe_iff low high).trans (by simp [FdSyscall.op])

/-- A memory in which `alive_ticks` of the task at `0x100000` is `0x1000`, where a user may have put what
looks like a file. -/
def ticksHeap : Heap where
  mem := store (store (store (fun _ => 0) (0x100000 + offsetofAliveTicks) 8 0x1000) 0x1000 8 0x2000)
    0x2000 8 0x400000
  heapBase := 0
  kernelBrk := 0

/-- Descriptor `16` is the word behind the table, the count of ticks: it is taken for a file, and what that
says is called. -/
theorem sysRead_past_table : fdOf 16 = 16 ∧
    fdtabAt 0x100000 16 = 0x100000 + offsetofAliveTicks ∧
    (fdSyscall .read ticksHeap 0x100000 16).result = .ok (.calls 0x400000 0x1000) ∧
    ¬ FdSafe ticksHeap 0x100000 (fdOf 16) (some .read) (fdSyscall .read ticksHeap 0x100000 16) := by
  have number : fdOf 16 = 16 := by decide
  have ticks : load ticksHeap.mem (fdtabAt 0x100000 16) 8 = 0x1000 := by decide
  have entry : opEntry ticksHeap.mem .read 0x1000 = 0x400000 := by decide
  have called : (fdSyscall .read ticksHeap 0x100000 16).result = .ok (.calls 0x400000 0x1000) := by
    have taken : (sysFileOp .read ticksHeap 0x100000 16).result = _ :=
      sysFileOp_calls (by rw [ticks]; decide) (by rw [ticks, entry]; decide)
    rw [ticks, entry] at taken
    exact taken
  refine ⟨number, by decide, called, fun safe => ?_⟩
  obtain ⟨msg, _, panics⟩ := (safe.panics (by decide)).2
  rw [called] at panics
  cases panics

/-! ## The table of a task -/

/-- The words of the table are the addresses of the files that the task has open. -/
structure Tabled (h : Heap) (current : Nat) (x : Task) (addr : Nat → Nat) : Prop where
  slot : ∀ i : Fin taskFileMax, load h.mem (fdtabAt current i) 8 = (x.fdtab i).elim 0 addr
  nonnull : ∀ f, addr f ≠ 0

section Tabled

variable {s s' : State} {addr : Nat → Nat} (table : Tabled h current (s.tasks s.current) addr)

include table

/-- A `do_close` of the process table is one of the bytes. -/
theorem sysClose_refines (closed : doClose s fd = .ok s') :
    ∃ f h', s'.freedFiles = f :: s.freedFiles ∧
      (sysClose h current fd).result = .ok (.closed (addr f) h') := by
  obtain ⟨i, f, rfl, held, rfl⟩ := doClose_inv closed
  have slot : load h.mem (fdtabAt current i) 8 = addr f := by rw [table.slot i, held, Option.elim_some]
  obtain ⟨h', result⟩ := sysClose_closes (slot ▸ table.nonnull f)
  rw [slot] at result
  exact ⟨f, h', rfl, result⟩

/-- And one that panics does. -/
theorem sysClose_panics {msg : String} (bad : doClose s fd = .error (.panic msg)) :
    (sysClose h current fd).result = .error (.panic msg) := by
  unfold doClose at bad
  split at bad
  · rename_i range
    split at bad
    · rename_i empty
      have slot := table.slot ⟨fd.toNat, range.2⟩
      rw [empty, Option.elim_none, Int.toNat_of_nonneg range.1] at slot
      cases bad
      exact sysClose_empty slot
    · cases bad
  · cases bad

end Tabled

end Blackcomb.Kernel
