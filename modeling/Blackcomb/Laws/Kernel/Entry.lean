import Blackcomb.Kernel.Entry

/-!
# Registers across the kernel

What user code finds in its registers after a system call, an interrupt, and a `fork`.

`switch_to_asm` keeps the promise of a C function to the task that calls it, whatever runs before
another task switches back (`SwitchTrip.abi`), so the C code of the kernel keeps it however often it
switches. The rest is bookkeeping of frames: the words that the code before the C function leaves on the
stack, and the registers into which the code after it takes them.

**What it does not establish.** The floating-point registers are saved by nobody and are not among
the registers here. The C code between entry and exit is any function that keeps the calling
convention and stays off the frames; that the compiler's output does is assumed.
-/

namespace Blackcomb.Kernel

open Memory X86 Mm

variable {c d e k : Cpu} {top : Nat} {bytes own : Nat → Prop} {img : Image} {ws vs : List Word}

/-! ## Switching stacks -/

/-- The registers that `switch_to_asm` pushes, in order. -/
def switchSaved : List Reg := [.rbp, .rbx, .r12, .r13, .r14, .r15]

/-- Leaving a task saves its registers, stores `rsp` through `rsi` and takes the stack in `rdi`.
-/
theorem exec_switchAway (c : Cpu) : exec switchAway c =
    ((exec (switchSaved.map .push) c).setWord ((exec (switchSaved.map .push) c).regs .rsi)
      ((exec (switchSaved.map .push) c).regs .rsp)).set .rsp ((exec (switchSaved.map .push) c).regs .rdi) :=
  rfl

/-- The registers `switch_to_asm` saves lie on the stack. -/
theorem pushed_switchSaved (room : 48 ≤ c.sp) (on : OnStack c ws) :
    Pushed switchSaved ws c (exec (switchSaved.map .push) c) :=
  exec_pushes switchSaved (by decide) room on

/-- A call of `switch_to_asm` is on the other stack, and has left the bytes alone. -/
theorem Clear.away (clear : Clear bytes d) : (exec switchAway d).regs .rsp = d.regs .rdi ∧
    ∀ a, bytes a → (exec switchAway d).mem a = d.mem a := by
  have pushed := pushed_switchSaved clear.room (OnStack.empty d)
  have rsi := pushed.regs .rsi (by decide)
  have rdi := pushed.regs .rdi (by decide)
  rw [exec_switchAway]
  constructor
  · rw [set_self, rdi]
  · intro a mine
    have sp := pushed.sp
    have pushes := clear.pushes a mine
    rw [show switchSaved.length = 6 from rfl] at sp
    rw [rsi, set_mem]
    exact (store_outside _ (clear.oldSp a mine)).trans (pushed.outside a (by omega))

/-- What `switch_to_asm` does on the other stack. -/
structure Arrived (bytes : Nat → Prop) (vs ws : List Word) (back : Word) (d d' : Cpu) : Prop where
  rip : d'.rip = back
  stack : OnStack d' ws
  regs : ∀ x ∈ switchSaved.reverse.zip vs, d'.regs x.1 = x.2
  sp : d'.sp = (d.regs .rdi).toNat + 56
  mem : ∀ a, bytes a → d'.mem a = d.mem a

/-- Seven words on the other stack are the registers and the address to return to. -/
theorem Clear.arrived {back : Word} (clear : Clear bytes d)
    (words : Words d.mem (d.regs .rdi).toNat (vs ++ back :: ws)) (six : vs.length = 6)
    (high : (d.regs .rdi).toNat + 8 * (vs ++ back :: ws).length < 2 ^ 64)
    (mine : ∀ a, (d.regs .rdi).toNat ≤ a → a < (d.regs .rdi).toNat + 8 * (vs ++ back :: ws).length →
      bytes a) : Arrived bytes vs ws back d (switchToAsm d) := by
  obtain ⟨rsp, same⟩ := clear.away
  have sp : (exec switchAway d).sp = (d.regs .rdi).toNat := congrArg BitVec.toNat rsp
  have on : OnStack (exec switchAway d) (vs ++ back :: ws) := by
    constructor
    · rw [sp]
      exact words.congr fun a low high => same a (mine a low high)
    · rw [sp]
      exact high
  have popped := exec_pops switchSaved.reverse (by decide) (by decide) six on
  have spelled : switchToAsm d = ret (exec (switchSaved.reverse.map .pop) (exec switchAway d)) := rfl
  obtain ⟨rip, stack, up⟩ := popped.stack.ret
  rw [spelled]
  refine ⟨rip, stack, fun x mem => ?_, ?_, fun a mine => ?_⟩
  · have ne : ∀ r ∈ switchSaved.reverse, r ≠ .rsp := by decide
    exact (ret_ne (ne x.1 (List.of_mem_zip mem).1)).trans (popped.regs x mem)
  · have down := popped.sp
    rw [show switchSaved.reverse.length = 6 from rfl] at down
    omega
  · rw [ret_mem, popped.mem, same a mine]

/-- What a call of `switch_to_asm` leaves behind, from the stack pointer that it puts away. -/
structure Departed (top : Nat) (back : Word) (c a : Cpu) : Prop where
  sp : (a.word (c.regs .rsi)).toNat + 56 = c.sp
  words : Words a.mem (a.word (c.regs .rsi)).toNat ((switchSaved.map c.regs).reverse ++ [back])
  mem : ∀ x, c.sp ≤ x → x < top → a.mem x = c.mem x

/-- A task that has left finds its registers and its return address where it stored `rsp`. -/
theorem departed (back : Word) (room : 56 ≤ c.sp) (inside : c.sp ≤ top)
    (oldSp : ∀ a, Left top c a → a < (c.regs .rsi).toNat ∨ (c.regs .rsi).toNat + 8 ≤ a) :
    Departed top back c (exec switchAway (c.pushWord back)) := by
  have up := pushWord_sp (c := c) (v := back) (by omega)
  have on := (OnStack.empty c).pushWord (by omega) back
  have pushed := pushed_switchSaved (by omega) on
  have below := pushed.sp
  rw [show switchSaved.length = 6 from rfl] at below
  have rsi : (exec (switchSaved.map .push) (c.pushWord back)).regs .rsi = c.regs .rsi :=
    (pushed.regs .rsi (by decide)).trans (pushWord_ne (by decide))
  have same : switchSaved.map (c.pushWord back).regs = switchSaved.map c.regs := rfl
  have stack := pushed.stack
  rw [same] at stack
  rw [exec_switchAway, rsi]
  have outside := pushed.outside
  generalize exec (switchSaved.map .push) (c.pushWord back) = p at stack below outside
  have word : ((p.setWord (c.regs .rsi) (p.regs .rsp)).set .rsp (p.regs .rdi)).word (c.regs .rsi) =
      p.regs .rsp := word_of_load (word_store _)
  have mem : ∀ x, Left top c x → (p.setWord (c.regs .rsi) (p.regs .rsp)).mem x = p.mem x :=
    fun x mine => store_outside _ (oldSp x mine)
  refine ⟨?_, ?_, fun x low high => ?_⟩
  · rw [word]
    show p.sp + 56 = c.sp
    omega
  · rw [word]
    refine stack.words.congr fun x low high => mem x ⟨?_, ?_⟩
    · omega
    · rw [List.length_append, List.length_reverse, List.length_map] at high
      simp only [switchSaved, List.length_cons, List.length_nil] at high
      omega
  · rw [set_mem, mem x ⟨by omega, high⟩, outside x (by omega), pushWord_outside (by omega) (.inr low)]

/-- The task that called `switch_to_asm` is back with what a C function keeps. -/
theorem SwitchTrip.abi (trip : SwitchTrip top c d) : Abi (· < top) c d := by
  cases trip with
  | @mk d back room inside oldSp kept turn clear =>
    have left := departed back room inside oldSp
    have sp := left.sp
    have words := left.words
    rw [← turn] at sp words
    have length : ((switchSaved.map c.regs).reverse ++ [back]).length = 7 := by
      simp [switchSaved]
    have high : c.sp < 2 ^ 64 := (c.regs .rsp).isLt
    have mine : ∀ a, (d.regs .rdi).toNat ≤ a → a < (d.regs .rdi).toNat + 56 → Left top c a :=
      fun a low high => ⟨by omega, by omega⟩
    have there : Words d.mem (d.regs .rdi).toNat ((switchSaved.map c.regs).reverse ++ [back]) := by
      refine words.congr fun a low high => kept a (mine a low ?_)
      rwa [length] at high
    have arrived := clear.arrived there (by simp [switchSaved]) (by rw [length]; omega)
      (by rw [length]; exact mine)
    have rsp : (switchToAsm d).regs .rsp = c.regs .rsp :=
      BitVec.eq_of_toNat_eq (arrived.sp.trans sp)
    have regs := arrived.regs
    constructor
    · simpa [calleeSaved, switchSaved, rsp, and_comm, and_assoc, and_left_comm] using regs
    · intro a low high
      have mine : Left top c a := ⟨by omega, high⟩
      rw [arrived.mem a mine, kept a mine, left.mem a low high]

/-- A function that keeps the calling convention, switches included, is a call like any other. -/
theorem crun_abi (below : ∀ a, own a → a < top) (run : CRun (SwitchTrip top) own c d) : Abi own c d :=
  run.abi fun _ _ trip => trip.abi.mono below

/-- The call of `switch_to_asm` with a stack pointer by a task whose own stack and `sp` are elsewhere. -/
def elsewhere (d : Cpu) (newRsp : Word) : Cpu :=
  ((d.set .rdi newRsp).set .rsp 0x30000).set .rsi 0x40000

theorem elsewhere_rdi (d : Cpu) (newRsp : Word) : (elsewhere d newRsp).regs .rdi = newRsp := by
  rw [elsewhere, set_ne (by decide), set_ne (by decide), set_self]

theorem elsewhere_clear {newRsp : Word} (low : ∀ a, bytes a → a < 0x28000) :
    Clear bytes (elsewhere d newRsp) := by
  have rsi : (elsewhere d newRsp).regs .rsi = 0x40000 := set_self
  have sp : (elsewhere d newRsp).sp = 0x30000 := by
    rw [elsewhere, set_sp (by decide), Cpu.sp, set_self]
    rfl
  refine ⟨?_, fun a mine => ?_, fun a mine => ?_⟩
  · rw [sp]
    decide
  · have below := low a mine
    rw [sp]
    omega
  · rw [rsi]
    exact .inl (Nat.lt_trans (low a mine) (by decide))

/-- A trip to another task and back, for the sample. -/
theorem switchTrip_elsewhere (room : 56 ≤ c.sp) (inside : c.sp ≤ top) (low : top ≤ 0x20000)
    (rsi : c.regs .rsi = 0x50000) : SwitchTrip top c (switchToAsm (elsewhere
      (exec switchAway (c.pushWord 0)) ((exec switchAway (c.pushWord 0)).word (c.regs .rsi)))) := by
  have below : ∀ a, Left top c a → a < 0x28000 := fun a left => by
    have := left.2
    omega
  refine .mk 0 room inside (fun a left => ?_) (fun _ _ => rfl) (elsewhere_rdi _ _) (elsewhere_clear below)
  rw [rsi]
  exact .inl (Nat.lt_trans (below a left) (by decide))

/-- C code that switches to another task, which switches back at once. -/
theorem crun_elsewhere (top : Nat) (own : Nat → Prop) (room : 56 ≤ c.sp) (inside : c.sp ≤ top)
    (low : top ≤ 0x20000) : ∃ d, CRun (SwitchTrip top) own c d := by
  have sp : (c.set .rsi 0x50000).sp = c.sp := set_sp (by decide)
  have trip := switchTrip_elsewhere (c := c.set .rsi 0x50000) (by omega) (by omega) low set_self
  exact ⟨_, @CRun.around _ own c _ (fun c => c.set .rsi 0x50000) id
    (fun d kept => kept.of_set (by decide)) (.trip trip)⟩

/-! ## Frames of user registers -/

variable {f : Regs}

/-- The registers with which user code runs, out of a frame. -/
def Regs.user (f : Regs) : Reg → Word
  | .rax => f.rax
  | .rbx => f.rbx
  | .rcx => f.rip
  | .rdx => f.rdx
  | .rsi => f.rsi
  | .rdi => f.rdi
  | .rbp => f.rbp
  | .rsp => f.rsp
  | .r8 => f.r8
  | .r9 => f.r9
  | .r10 => f.r10
  | .r11 => 0x202
  | .r12 => f.r12
  | .r13 => f.r13
  | .r14 => f.r14
  | .r15 => f.r15

/-- The frame of user code at `syscall`: `rbp` is lost already. -/
def Regs.entry (c : Cpu) : Regs where
  r15 := c.regs .r15
  r14 := c.regs .r14
  r13 := c.regs .r13
  r12 := c.regs .r12
  r11 := c.rflags
  r10 := c.regs .r10
  r9 := c.regs .r9
  r8 := c.regs .r8
  rbp := 0
  rsi := c.regs .rsi
  rdi := c.regs .rdi
  rdx := c.regs .rdx
  rcx := c.rip
  rbx := c.regs .rbx
  rax := c.regs .rax
  rip := c.rip
  rsp := c.regs .rsp

/-- The registers popped from a frame before `rip` and `rsp`. -/
def popOrder : List Reg :=
  [.r15, .r14, .r13, .r12, .r11, .r10, .r9, .r8, .rbp, .rsi, .rdi, .rdx, .rcx, .rbx, .rax]

/-- Back in user mode with the registers of a frame. -/
structure Resumed (f : Regs) (c : Cpu) : Prop where
  rip : c.rip = f.rip
  regs : ∀ r, c.regs r = f.user r

/-- The pops that the two ways out share. -/
def popRegs : List Instr := popOrder.map .pop ++ [.pop .rcx, .pop .rsp]

/-- `pop_regs` loads every register of the frame but `r11`. -/
theorem exec_popRegs (on : OnStack c f.words) (r : Reg) (ne : r ≠ .r11) :
    (exec popRegs c).regs r = f.user r := by
  have on : OnStack c (f.words.take 15 ++ [f.rip, f.rsp]) := on
  have popped := exec_pops popOrder (by decide) (by decide) rfl on
  have regs := popped.regs
  have rip := popped.stack.top
  have rsp := popped.stack.drop.top
  rw [popRegs, exec_append]
  generalize exec (popOrder.map .pop) c = p at regs rip rsp
  have last : exec [.pop .rcx, .pop .rsp] p = (p.drop.set .rcx p.top).drop.set .rsp p.drop.top := rfl
  rw [last, rip, rsp]
  by_cases stack : r = .rsp
  · rw [stack, set_self, Regs.user]
  · rw [set_ne stack, drop_ne stack]
    by_cases counter : r = .rcx
    · rw [counter, set_self, Regs.user]
    · rw [set_ne counter, drop_ne stack]
      simp only [popOrder, Regs.words, List.take, List.zip_cons_cons, List.zip_nil_left,
        List.forall_mem_cons] at regs
      cases r <;> simp_all [Regs.user]

/-- After the pops, `r11` gets the flags. -/
theorem resumed_of_popRegs (on : OnStack c f.words) (flags : d.regs .r11 = 0x202)
    (same : ∀ r, r ≠ .r11 → d.regs r = (exec popRegs c).regs r) : Resumed f (sysret d) := by
  constructor
  · exact (same .rcx (by decide)).trans (exec_popRegs on .rcx (by decide))
  · intro r
    by_cases flag : r = .r11
    · rw [flag]
      exact flags
    · exact (same r flag).trans (exec_popRegs on r flag)

/-- Leaving a system call resumes the program's registers. -/
theorem leaveSyscall_resumed (on : OnStack c f.words) : Resumed f (leaveSyscall c) := by
  have spelled : leaveSyscall c = sysret ((exec popRegs c).set .r11 0x202) := rfl
  rw [spelled]
  exact resumed_of_popRegs on set_self fun r ne => set_ne ne

/-- So does the way out of a new task. -/
theorem popRegsAndSysret_resumed (on : OnStack c f.words) :
    Resumed f (sysret (exec popRegsAndSysret c)) := by
  have spelled : exec popRegsAndSysret c =
      Cpu.set { (exec popRegs c).set .r11 0x1b with ds := 0x1b } .r11 0x202 := rfl
  rw [spelled]
  exact resumed_of_popRegs on set_self fun r ne => (set_ne ne).trans (set_ne ne)

/-! ## System calls -/

/-- The registers of `struct regs` that `syscall_entry` pushes, the first after `rsp`. -/
def pushOrder : List Reg := .rcx :: popOrder.reverse

/-- `syscall_entry` before it switches stacks. -/
def atEntry (img : Image) (c : Cpu) : Cpu :=
  exec [.movStore img.rspScratch .rsp, .movImm .rbp 0] (syscall img.syscallEntry img.fmask c)

/-- The entry reads the kernel stack of the current task. -/
theorem atEntry_stack (img : Image) (c : Cpu) :
    (atEntry img c).word img.currentTaskStack = c.word img.currentTaskStack :=
  word_setWord (c := syscall img.syscallEntry img.fmask c) img.apart.symm

/-- The program's `rsp` waits in the scratch word. -/
theorem atEntry_scratch (img : Image) (c : Cpu) (sp : Word) :
    ((atEntry img c).set .rsp sp).word img.rspScratch = c.regs .rsp :=
  word_of_load (word_store _)

/-- The pushes of the entry make the frame of the program's registers. -/
theorem atEntry_frame (img : Image) (c : Cpu) :
    (pushOrder.map (atEntry img c).regs).reverse ++ [c.regs .rsp] = (Regs.entry c).words := rfl

/-- `do_syscall` is called with the user's registers on the stack, where the stack ends. -/
theorem enterSyscall_frame (stack : kernelStackSize ≤ stackTop img c) :
    OnStack (enterSyscall img c) (Regs.entry c).words ∧
      (enterSyscall img c).regs .rdi = (enterSyscall img c).regs .rsp ∧
      (enterSyscall img c).sp + sizeofRegs = stackTop img c := by
  have spelled : enterSyscall img c = X86.step (.mov .rdi .rsp) (exec (pushOrder.map .push)
      (((atEntry img c).set .rsp ((atEntry img c).word img.currentTaskStack)).pushWord
        (((atEntry img c).set .rsp ((atEntry img c).word img.currentTaskStack)).word img.rspScratch))) := rfl
  rw [atEntry_scratch, atEntry_stack] at spelled
  rw [stackTop, kernelStackSize] at stack
  have one := (Stacked.empty (atEntry img c) (c.word img.currentTaskStack)).pushWord
    (by rw [List.length_nil]; omega) (c.regs .rsp)
  have sixteen : pushOrder.length = 16 := rfl
  have all := one.pushes pushOrder (by decide) (by rw [List.length_singleton]; omega)
  rw [atEntry_frame] at all
  rw [spelled]
  generalize exec (pushOrder.map .push) _ = p at all
  have same : (p.set .rdi (p.regs .rsp)).sp = p.sp := set_sp (by decide)
  refine ⟨all.stack.set (by decide) _, ?_, same.symm ▸ all.sp⟩
  exact set_self.trans (set_ne (by decide)).symm

/-- The address of `regs->rax`, with `regs` on top of the stack. -/
theorem toNat_rax (on : OnStack c f.words) :
    (c.regs .rsp + BitVec.ofNat 64 offsetofRax).toNat = c.sp + offsetofRax := by
  have high : c.sp + 136 < 2 ^ 64 := on.high
  simp only [Cpu.sp, offsetofRax] at high ⊢
  bv_omega

/-- Storing the return value changes `rax` of the frame alone. -/
theorem words_rax {m : Bytes} {a : Nat} (words : Words m a f.words) (v : Word) :
    Words (store m (a + offsetofRax) 8 v.toNat) a { f with rax := v }.words := by
  have words : Words m a (f.words.take 14 ++ f.rax :: [f.rip, f.rsp]) := words
  exact words.update v

/-- The frame stays on the stack with the return value in it. -/
theorem onStack_rax (on : OnStack c f.words) (v : Word) :
    OnStack (c.setWord (c.regs .rsp + BitVec.ofNat 64 offsetofRax) v) { f with rax := v }.words := by
  refine ⟨?_, on.high⟩
  show Words (store c.mem _ 8 v.toNat) c.sp _
  rw [toNat_rax on]
  exact words_rax on.words v

/-- `do_syscall` returns with the result in the frame. -/
theorem DoSyscall.frame {result : Word} (call : DoSyscall top own result c d) (below : ∀ a, own a → a < top)
    (on : OnStack c f.words) (rdi : c.regs .rdi = c.regs .rsp)
    (mine : ∀ a, c.sp ≤ a → a < c.sp + sizeofRegs → own a) :
    OnStack d { f with rax := result }.words := by
  cases call with
  | @mk d enter leave restores handler =>
    have abi := restores d (crun_abi below handler)
    rw [rdi] at abi
    exact abi.onStack (onStack_rax on result) mine

/-- A `do_syscall` that uses no registers of its own around the system call. -/
theorem DoSyscall.of_crun (result : Word) (run : CRun (SwitchTrip top) own c d) :
    DoSyscall top own result c (d.setWord (c.regs .rdi + BitVec.ofNat 64 offsetofRax) result) :=
  @DoSyscall.mk top own result c d id (fun d => d.setWord (c.regs .rdi + BitVec.ofNat 64 offsetofRax) result)
    (fun _ abi => abi.setWord _ result) run

/-- A system call is back in user code with the registers of its frame. -/
theorem SyscallRun.resumed {written : Nat → Prop} {result : Word} (run : SyscallRun img written result c d)
    (apart : ∀ a, written a → a + kernelStackSize < stackTop img c ∨ stackTop img c ≤ a) :
    Resumed { Regs.entry c with rax := result } d := by
  cases run with
  | @mk d other stack call =>
    obtain ⟨on, rdi, sp⟩ := enterSyscall_frame stack
    apply leaveSyscall_resumed
    refine call.frame (fun a mine => mine.1) on rdi fun a low high => ⟨by omega, fun hit => ?_⟩
    have out := apart a hit
    rw [kernelStackSize] at out
    rw [sizeofRegs] at sp high
    omega

/-- What a system call owes to user code: it goes on after `syscall`, with the result in `rax`, and but
for `rcx` and `r11` every register is as it was. -/
structure KeepsRegisters (result : Word) (c c' : Cpu) : Prop where
  rip : c'.rip = c.rip
  rax : c'.regs .rax = result
  others : ∀ r, r ∉ [.rax, .rcx, .r11] → c'.regs r = c.regs r

/-- A frame gives every register back but `rbp`. -/
theorem user_entry {result : Word} (r : Reg) (other : r ∉ [.rax, .rcx, .r11]) (base : r ≠ .rbp) :
    Regs.user { Regs.entry c with rax := result } r = c.regs r := by
  cases r <;> first | rfl | simp at other base

/-- A system call keeps the registers of user code exactly if `rbp` was zero, as long as what it writes for
the user is not on the task's kernel stack: `syscall_entry` clears `rbp` before it pushes it. -/
theorem syscall_keeps_registers_iff {written : Nat → Prop} {result : Word} {c c' : Cpu}
    (run : SyscallRun img written result c c')
    (apart : ∀ a, written a → a + kernelStackSize < stackTop img c ∨ stackTop img c ≤ a) :
    KeepsRegisters result c c' ↔ c.regs .rbp = 0 := by
  have back := run.resumed apart
  have base : c'.regs .rbp = 0 := back.regs .rbp
  constructor
  · intro keeps
    rw [← keeps.others .rbp (by decide), base]
  · intro zero
    refine ⟨back.rip, back.regs .rax, fun r other => ?_⟩
    by_cases frame : r = .rbp
    · rw [frame, base, zero]
    · exact (back.regs r).trans (user_entry r other frame)

/-- A kernel image. -/
def sampleImage : Image where
  syscallEntry := 0x1000
  popRegsAndSysret := 0x2000
  rspScratch := 0x3000
  currentTaskStack := 0x4000
  fmask := 0x600
  apart := by decide

/-- User code with some registers, in a kernel where the current task's stack ends at `0x10000`. -/
def sampleUser (regs : Reg → Word) : Cpu where
  regs := regs
  rip := 0x400002
  rflags := 0x202
  cs := 0x23
  ss := 0x1b
  ds := 0x1b
  mem := store (fun _ => 0) 0x4000 8 (0x10000 : Word).toNat

theorem sampleUser_stackTop (regs : Reg → Word) : stackTop sampleImage (sampleUser regs) = 0x10000 := by
  have word : (sampleUser regs).word 0x4000 = 0x10000 := word_of_load (word_store _)
  exact congrArg BitVec.toNat word

/-- A system call that switches to another task and back, and writes nothing for the user. -/
theorem sampleUser_syscall (regs : Reg → Word) (other : regs .rax ≠ sysExec) (result : Word) :
    ∃ c', SyscallRun sampleImage (fun _ => False) result (sampleUser regs) c' := by
  have top := sampleUser_stackTop regs
  have stack : kernelStackSize ≤ stackTop sampleImage (sampleUser regs) := by
    rw [top]
    decide
  obtain ⟨-, -, sp⟩ := enterSyscall_frame stack
  rw [top, sizeofRegs] at sp
  obtain ⟨d, run⟩ := crun_elsewhere (c := enterSyscall sampleImage (sampleUser regs))
    (stackTop sampleImage (sampleUser regs))
    (fun a => a < stackTop sampleImage (sampleUser regs) ∧ ¬ False) (by omega) (by omega) (by omega)
  exact ⟨_, .mk other stack (.of_crun result run)⟩

/-- A `read` with one in `rbp` comes back with zero there. -/
theorem syscall_loses_rbp : ∃ c', SyscallRun sampleImage (fun _ => False) 0
      (sampleUser fun r => if r = .rbp then 1 else 0) c' ∧
    ¬ KeepsRegisters 0 (sampleUser fun r => if r = .rbp then 1 else 0) c' := by
  obtain ⟨c', run⟩ := sampleUser_syscall (fun r => if r = .rbp then 1 else 0) (by decide) 0
  refine ⟨c', run, fun keeps => ?_⟩
  have lost := (run.resumed fun _ hit => hit.elim).regs .rbp
  have kept := keeps.others .rbp (by decide)
  exact absurd (lost.symm.trans kept) (by decide)

/-- A `read` with zero in `rbp` keeps the registers. -/
theorem syscall_keeps_registers_read : ∃ c', SyscallRun sampleImage (fun _ => False) 0
      (sampleUser fun r => if r = .rsi then 0x600000 else 0) c' ∧
    KeepsRegisters 0 (sampleUser fun r => if r = .rsi then 0x600000 else 0) c' := by
  obtain ⟨c', run⟩ := sampleUser_syscall (fun r => if r = .rsi then 0x600000 else 0) (by decide) 0
  exact ⟨c', run, (syscall_keeps_registers_iff run fun _ hit => hit.elim).mpr rfl⟩

/-! ## Interrupts -/

variable {vec : Nat} {sp : Word} {code : Option Word}

/-- The registers that `isr_common` pushes, in order, and pops in the same order. -/
def isrSaved : List Reg := [.rdi, .rsi, .rdx, .rcx, .rax, .r8, .r9, .r10, .r11]

/-- A stub leaves the information word over what the processor pushed. -/
theorem isrStub_stacked (c : Cpu) (entry : Word) (pushes : code.isSome = hasErrorCode vec)
    (room : 48 ≤ sp.toNat) : ∃ info, Stacked (info :: hardwareFrame c) sp.toNat c
      (exec (isrStub vec) (interrupt entry sp code c)) := by
  have frame := interrupt_stacked c entry code room
  rw [isrStub, ← pushes]
  cases code with
  | none => exact (frame.pushWord (by simp [hardwareFrame]; omega) 0).movDword vec
  | some code => exact frame.movDword vec

/-- `isr_main_entry` is called with the registers of `struct isr_ctx` on the stack. -/
theorem enterIsr_frame (c : Cpu) (entry sp : Word) (pushes : code.isSome = hasErrorCode vec)
    (room : 120 ≤ sp.toNat) : ∃ info, OnStack (enterIsr vec entry sp code c)
        ((isrSaved.map c.regs).reverse ++ info :: hardwareFrame c) ∧
      (enterIsr vec entry sp code c).sp + 120 = sp.toNat ∧
      ∀ r, r ≠ .rsp → r ≠ .rdi → (enterIsr vec entry sp code c).regs r = c.regs r := by
  obtain ⟨info, frame⟩ := isrStub_stacked c entry pushes (Nat.le_trans (by decide) room)
  have spelled : enterIsr vec entry sp code c = X86.step (.mov .rdi .rsp) (exec (isrSaved.map .push)
      (exec (isrStub vec) (interrupt entry sp code c))) := by
    rw [enterIsr, exec_append]
    rfl
  have six : (info :: hardwareFrame c).length = 6 := rfl
  have nine : isrSaved.length = 9 := rfl
  have all := frame.pushes isrSaved (by decide) (by omega)
  rw [spelled]
  generalize exec (isrSaved.map .push) _ = p at all
  have same : (p.set .rdi (p.regs .rsp)).sp = p.sp := set_sp (by decide)
  refine ⟨info, all.stack.set (by decide) _, same.symm ▸ all.sp, fun r stack arg => ?_⟩
  exact (set_ne arg).trans (all.regs r stack)

/-- The register whose value a register has after an interrupt. -/
def isrSwap : Reg → Reg
  | .rdi => .r11
  | .rsi => .r10
  | .rdx => .r9
  | .rcx => .r8
  | .r8 => .rcx
  | .r9 => .rdx
  | .r10 => .rsi
  | .r11 => .rdi
  | r => r

/-- Each saved register is popped from its own word, but for the two that are exchanged. -/
theorem mem_zip_isrSaved (c : Cpu) {r : Reg} (saved : r ∈ isrSaved) :
    (r, c.regs (isrSwap r)) ∈ isrSaved.zip (isrSaved.map c.regs).reverse := by
  revert r
  simp [isrSaved, isrSwap]

/-- What the stub does not save the C code does. -/
theorem calleeSaved_of_not_isrSaved {r : Reg} (other : r ∉ isrSaved) :
    r ∈ calleeSaved ∧ r ≠ .rdi ∧ isrSwap r = r := by
  cases r <;> revert other <;> decide

/-- `isr_common` pops in the order in which it pushes, so four pairs of registers come back exchanged. -/
theorem InterruptRun.regs (run : InterruptRun vec c d) (r : Reg) : d.regs r = c.regs (isrSwap r) := by
  cases run with
  | @mk d entry sp code table pushes room handler =>
    obtain ⟨info, on, top, same⟩ := enterIsr_frame c entry sp pushes room
    have abi := crun_abi (fun _ below => below) handler
    have nine : isrSaved.length = 9 := rfl
    have on := abi.onStack on fun a low high => by
      rw [List.length_append, List.length_reverse, List.length_map] at high
      simp only [nine, List.length_cons, hardwareFrame, List.length_nil] at high
      omega
    have popped := exec_pops isrSaved (by decide) (by decide) (by simp) on
    have spelled : exec isrCommonRestore d = (exec (isrSaved.map .pop) d).drop := rfl
    obtain ⟨rsp, others⟩ := iretq_regs popped.stack.drop
    rw [spelled]
    by_cases stack : r = .rsp
    · rw [stack, rsp]
      rfl
    · rw [others r stack, drop_ne stack]
      by_cases saved : r ∈ isrSaved
      · exact popped.regs _ (mem_zip_isrSaved c saved)
      · obtain ⟨callee, arg, swap⟩ := calleeSaved_of_not_isrSaved saved
        rw [popped.others r saved stack, abi.saved r callee, same r stack arg, swap]

/-- An interrupt is transparent exactly if the registers that it exchanges agree. -/
theorem interrupt_transparent_iff {c c' : Cpu} (run : InterruptRun vec c c') :
    (∀ r, c'.regs r = c.regs r) ↔
      c.regs .rdi = c.regs .r11 ∧ c.regs .rsi = c.regs .r10 ∧ c.regs .rdx = c.regs .r9 ∧
        c.regs .rcx = c.regs .r8 := by
  have regs := run.regs
  constructor
  · intro same
    have back : ∀ r, c.regs r = c.regs (isrSwap r) := fun r => (same r).symm.trans (regs r)
    exact ⟨back .rdi, back .rsi, back .rdx, back .rcx⟩
  · rintro ⟨rdi, rsi, rdx, rcx⟩ r
    rw [regs r]
    cases r <;> simp [isrSwap, rdi, rsi, rdx, rcx]

/-- A timer interrupt in user code, whose handler switches to another task and back. -/
theorem sampleUser_timer (regs : Reg → Word) : ∃ c', InterruptRun 0x20 (sampleUser regs) c' := by
  have pushes : (none : Option Word).isSome = hasErrorCode 0x20 := rfl
  obtain ⟨_, -, sp, -⟩ := enterIsr_frame (sampleUser regs) 0x5000 0x10000 pushes (by decide)
  have ends : (0x10000 : Word).toNat = 0x10000 := rfl
  obtain ⟨d, run⟩ := crun_elsewhere (c := enterIsr 0x20 0x5000 0x10000 none (sampleUser regs))
    (0x10000 : Word).toNat (· < (0x10000 : Word).toNat) (by omega) (by omega) (by omega)
  exact ⟨_, .mk (by decide) pushes (by decide) run⟩

/-- A timer interrupt with one in `rdi` and zero in `r11`. -/
theorem timer_exchanges_registers : ∃ c',
    InterruptRun 0x20 (sampleUser fun r => if r = .rdi then 1 else 0) c' ∧
      ¬ ∀ r, c'.regs r = (sampleUser fun r => if r = .rdi then 1 else 0).regs r := by
  obtain ⟨c', run⟩ := sampleUser_timer fun r => if r = .rdi then 1 else 0
  refine ⟨c', run, fun same => ?_⟩
  have exchanged := run.regs .rdi
  exact absurd (exchanged.symm.trans (same .rdi)) (by decide)

/-- A timer interrupt with the same in each pair that it exchanges. -/
theorem timer_transparent : ∃ c',
    InterruptRun 0x20 (sampleUser fun r => if r = .rax then 7 else 3) c' ∧
      ∀ r, c'.regs r = (sampleUser fun r => if r = .rax then 7 else 3).regs r := by
  obtain ⟨c', run⟩ := sampleUser_timer fun r => if r = .rax then 7 else 3
  exact ⟨c', run, (interrupt_transparent_iff run).mpr ⟨rfl, rfl, rfl, rfl⟩⟩

end Blackcomb.Kernel
