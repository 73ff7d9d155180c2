import Mathlib.Data.List.Nodup
import Blackcomb.Lib.Memory

/-!
# Saving and restoring registers on x86-64

A processor with its sixteen registers and memory, the few instructions that code between two
contexts is made of, and what a C function promises to its caller. Stretches of such code are lists
of instructions without jumps (`exec`); what ends one (`ret`, `sysret`, `iretq`) is a function.

`OnStack c ws` says that the words `ws` stand on the stack, the top one first. A list of registers
pushed puts their values there in reverse (`exec_pushes`), and a list of registers popped takes the
words in order (`exec_pops`): that the lists of the two mirror each other is for the user to show.

`Abi own c c'` is the promise of a C function to callers whose bytes are `own`: the registers that the
callee saves, and those bytes from the caller's stack pointer on. `CRun` builds functions out of code
that keeps it.
-/

namespace X86

open Memory

/-- A register's value. -/
abbrev Word := BitVec 64

/-- The general-purpose registers. -/
inductive Reg
  | rax | rbx | rcx | rdx | rsi | rdi | rbp | rsp
  | r8 | r9 | r10 | r11 | r12 | r13 | r14 | r15
  deriving DecidableEq, Repr

/-- The processor and its memory. `rip` is the address of the next instruction. -/
structure Cpu where
  regs : Reg → Word
  rip : Word
  rflags : Word
  cs : Word
  ss : Word
  ds : Word
  mem : Bytes

namespace Cpu

/-- Assign a register. -/
def set (c : Cpu) (r : Reg) (v : Word) : Cpu := { c with regs := Function.update c.regs r v }

/-- The stack pointer as an address. -/
def sp (c : Cpu) : Nat := (c.regs .rsp).toNat

/-- The word at an address. -/
def word (c : Cpu) (a : Word) : Word := BitVec.ofNat 64 (load c.mem a.toNat 8)

/-- Assign the word at an address. -/
def setWord (c : Cpu) (a v : Word) : Cpu := { c with mem := store c.mem a.toNat 8 v.toNat }

/-- Push a word. -/
def pushWord (c : Cpu) (v : Word) : Cpu :=
  (c.setWord (c.regs .rsp - 8) v).set .rsp (c.regs .rsp - 8)

/-- Drop the top word. -/
def drop (c : Cpu) : Cpu := c.set .rsp (c.regs .rsp + 8)

/-- The top word. -/
def top (c : Cpu) : Word := c.word (c.regs .rsp)

end Cpu

/-- Instructions. -/
inductive Instr
  /-- `push r` -/
  | push (r : Reg)
  /-- `push qword [a]` -/
  | pushMem (a : Word)
  /-- `push qword v` -/
  | pushImm (v : Word)
  /-- `pop r` -/
  | pop (r : Reg)
  /-- `mov dst, src` -/
  | mov (dst src : Reg)
  /-- `mov dst, v` -/
  | movImm (dst : Reg) (v : Word)
  /-- `mov dst, [a]` -/
  | movLoad (dst : Reg) (a : Word)
  /-- `mov [a], src` -/
  | movStore (a : Word) (src : Reg)
  /-- `mov [base], src` -/
  | movStoreAt (base src : Reg)
  /-- `mov dword [rsp + off], v` -/
  | movDword (off : Word) (v : Nat)
  /-- `add dst, v` -/
  | addImm (dst : Reg) (v : Word)
  /-- `mov ds, src` -/
  | movDs (src : Reg)

/-- One instruction. `pop rsp` leaves the word that was on top in `rsp`. -/
def step : Instr → Cpu → Cpu
  | .push r, c => c.pushWord (c.regs r)
  | .pushMem a, c => c.pushWord (c.word a)
  | .pushImm v, c => c.pushWord v
  | .pop r, c => c.drop.set r c.top
  | .mov dst src, c => c.set dst (c.regs src)
  | .movImm dst v, c => c.set dst v
  | .movLoad dst a, c => c.set dst (c.word a)
  | .movStore a src, c => c.setWord a (c.regs src)
  | .movStoreAt base src, c => c.setWord (c.regs base) (c.regs src)
  | .movDword off v, c => { c with mem := store c.mem (c.regs .rsp + off).toNat 4 v }
  | .addImm dst v, c => c.set dst (c.regs dst + v)
  | .movDs src, c => { c with ds := c.regs src }

/-- Instructions one after the other. -/
def exec (code : List Instr) (c : Cpu) : Cpu := code.foldl (fun c i => step i c) c

/-- `ret`. -/
def ret (c : Cpu) : Cpu := { c.drop with rip := c.top }

/-- `syscall`, with the entry point and the mask of the flags. -/
def syscall (lstar fmask : Word) (c : Cpu) : Cpu :=
  { (c.set .rcx c.rip).set .r11 c.rflags with rip := lstar, rflags := c.rflags &&& ~~~fmask }

/-- `o64 sysret`. -/
def sysret (c : Cpu) : Cpu := { c with rip := c.regs .rcx, rflags := c.regs .r11 }

/-- An interrupt, with its entry point, the stack pointer that the processor takes, and the error code
if it pushes one. -/
def interrupt (entry sp : Word) (code : Option Word) (c : Cpu) : Cpu :=
  let saved := ((((c.set .rsp sp).pushWord c.ss).pushWord (c.regs .rsp)).pushWord c.rflags).pushWord c.cs
  let saved := saved.pushWord c.rip
  { code.elim saved saved.pushWord with rip := entry }

/-- `iretq`. -/
def iretq (c : Cpu) : Cpu :=
  let rip := c.top
  let c := c.drop
  let cs := c.top
  let c := c.drop
  let rflags := c.top
  let c := c.drop
  let rsp := c.top
  let c := c.drop
  { c.set .rsp rsp with rip, cs, rflags, ss := c.top }

/-! ## Registers and memory -/

variable {c c' d e : Cpu} {r q : Reg} {v w : Word} {a n : Nat} {ws vs : List Word}

@[simp] theorem set_mem : (c.set r v).mem = c.mem := rfl

@[simp] theorem set_self : (c.set r v).regs r = v := by
  simp [Cpu.set]

/-- Setting one register keeps every other. -/
theorem set_ne (ne : q ≠ r) : (c.set r v).regs q = c.regs q := by
  simp [Cpu.set, ne]

/-- A pop's change of `rsp` keeps the other registers. -/
theorem drop_ne (ne : q ≠ .rsp) : c.drop.regs q = c.regs q := set_ne ne

/-- A push keeps every register but `rsp`. -/
theorem pushWord_ne (ne : q ≠ .rsp) : (c.pushWord v).regs q = c.regs q := set_ne ne

@[simp] theorem ret_mem : (ret c).mem = c.mem := rfl

/-- A return changes the registers as a pop does. -/
theorem ret_regs : (ret c).regs = c.drop.regs := rfl

/-- A return keeps every register but `rsp`. -/
theorem ret_ne (ne : q ≠ .rsp) : (ret c).regs q = c.regs q := by
  rw [ret_regs, drop_ne ne]

/-- Two programs in a row run one after the other. -/
theorem exec_append (xs ys : List Instr) (c : Cpu) : exec (xs ++ ys) c = exec ys (exec xs c) :=
  List.foldl_append

/-- A word stored is loaded. -/
theorem word_store {m : Bytes} (v : Word) : load (store m a 8 v.toNat) a 8 = v.toNat :=
  load_store v.isLt

/-- A word is determined by its bytes in memory. -/
theorem word_of_load {x : Word} (h : load c.mem x.toNat 8 = v.toNat) : c.word x = v := by
  rw [Cpu.word, h, BitVec.ofNat_toNat, BitVec.setWidth_eq]

/-- A word apart from the one stored. -/
theorem word_setWord {x y : Word} (apart : y.toNat + 8 ≤ x.toNat ∨ x.toNat + 8 ≤ y.toNat) :
    (c.setWord x v).word y = c.word y := by
  have same : load (c.setWord x v).mem y.toNat 8 = load c.mem y.toNat 8 :=
    load_store_of_disjoint _ apart
  rw [Cpu.word, Cpu.word, same]

/-! ## The stack -/

/-- Words in memory from an address on. -/
def Words (m : Bytes) : Nat → List Word → Prop
  | _, [] => True
  | a, w :: ws => load m a 8 = w.toNat ∧ Words m (a + 8) ws

/-- Words are a matter of their bytes, wherever they stand. -/
theorem Words.shift {m m' : Bytes} {a' : Nat} (words : Words m a ws)
    (same : ∀ i < 8 * ws.length, m' (a' + i) = m (a + i)) : Words m' a' ws := by
  induction ws generalizing a a' with
  | nil => trivial
  | cons w ws ih =>
    rw [List.length_cons] at same
    constructor
    · rw [← words.1]
      exact load_shift fun i lt => same i (by omega)
    · apply ih words.2
      intro i lt
      rw [Nat.add_assoc, Nat.add_assoc]
      exact same (8 + i) (by omega)

/-- Words are where they were as long as their own bytes are kept. -/
theorem Words.congr {m m' : Bytes} (words : Words m a ws)
    (same : ∀ b, a ≤ b → b < a + 8 * ws.length → m' b = m b) : Words m' a ws :=
  words.shift fun i lt => same (a + i) (by omega) (by omega)

/-- Words in a row are the first ones and, behind them, the rest. -/
theorem words_append {m : Bytes} :
    Words m a (ws ++ vs) ↔ Words m a ws ∧ Words m (a + 8 * ws.length) vs := by
  induction ws generalizing a with
  | nil => simp [Words]
  | cons w ws ih =>
    have shift : a + 8 + 8 * ws.length = a + 8 * (ws.length + 1) := by omega
    rw [List.cons_append, Words, Words, List.length_cons, ih, and_assoc, shift]

/-- Zero bytes are zero words. -/
theorem words_zero {m : Bytes} (zero : ∀ b, a ≤ b → b < a + 8 * n → m b = 0) :
    Words m a (List.replicate n 0) := by
  induction n generalizing a with
  | zero => trivial
  | succ n ih =>
    constructor
    · exact load_eq_zero fun b low high => zero b low (by omega)
    · exact ih fun b low high => zero b (by omega) (by omega)

/-- A store to one of the words. -/
theorem Words.update {m : Bytes} (words : Words m a (ws ++ w :: vs)) (v : Word) :
    Words (store m (a + 8 * ws.length) 8 v.toNat) a (ws ++ v :: vs) := by
  obtain ⟨front, back⟩ := words_append.mp words
  rw [words_append]
  refine ⟨front.congr fun b _ high => store_outside _ (.inl high), word_store v, ?_⟩
  exact back.2.congr fun b low _ => store_outside _ (.inr low)

/-- The words on the stack, the top one first. -/
structure OnStack (c : Cpu) (ws : List Word) : Prop where
  words : Words c.mem c.sp ws
  high : c.sp + 8 * ws.length < 2 ^ 64

theorem OnStack.empty (c : Cpu) : OnStack c [] := ⟨trivial, (c.regs .rsp).isLt⟩

/-- The stack is a matter of its bytes. -/
theorem OnStack.congr (on : OnStack c ws) (rsp : c'.regs .rsp = c.regs .rsp)
    (same : ∀ b, c.sp ≤ b → b < c.sp + 8 * ws.length → c'.mem b = c.mem b) : OnStack c' ws := by
  have sp : c'.sp = c.sp := congrArg BitVec.toNat rsp
  exact ⟨sp ▸ on.words.congr same, sp ▸ on.high⟩

/-- Setting a register other than `rsp` keeps the stack. -/
theorem OnStack.set (on : OnStack c ws) (ne : r ≠ .rsp) (v : Word) : OnStack (c.set r v) ws :=
  on.congr (set_ne ne.symm) fun _ _ _ => rfl

/-- Setting a register other than `rsp` keeps the stack's top. -/
theorem set_sp (ne : r ≠ .rsp) : (c.set r v).sp = c.sp := congrArg BitVec.toNat (set_ne ne.symm)

/-- A push lowers `rsp` by 8 modulo `2^64`. -/
theorem pushWord_toNat (c : Cpu) (v : Word) : (c.pushWord v).sp = (c.regs .rsp - 8).toNat :=
  congrArg BitVec.toNat set_self

/-- With room below, a push lowers the top by 8. -/
theorem pushWord_sp (room : 8 ≤ c.sp) : (c.pushWord v).sp + 8 = c.sp := by
  rw [pushWord_toNat]
  simp only [Cpu.sp] at room ⊢
  bv_omega

/-- With room below, a push writes its own 8 bytes only. -/
theorem pushWord_outside (room : 8 ≤ c.sp) (out : a < (c.pushWord v).sp ∨ c.sp ≤ a) :
    (c.pushWord v).mem a = c.mem a := by
  have up := pushWord_sp (v := v) room
  rw [pushWord_toNat] at out up
  apply store_outside
  omega

/-- A pushed word lies on top of the words before it. -/
theorem OnStack.pushWord (on : OnStack c ws) (room : 8 ≤ c.sp) (v : Word) :
    OnStack (c.pushWord v) (v :: ws) := by
  have up := pushWord_sp (v := v) room
  refine ⟨⟨?_, ?_⟩, ?_⟩
  · rw [pushWord_toNat]
    exact word_store v
  · rw [up]
    exact on.words.congr fun b low _ => pushWord_outside room (.inr low)
  · have := on.high
    rw [List.length_cons]
    omega

/-- The top of the stack is its first word. -/
theorem OnStack.top (on : OnStack c (w :: ws)) : c.top = w := word_of_load on.words.1

/-- A pop raises the top by 8. -/
theorem OnStack.drop_sp (on : OnStack c (w :: ws)) : c.drop.sp = c.sp + 8 := by
  have up : c.drop.sp = (c.regs .rsp + 8).toNat := congrArg BitVec.toNat set_self
  have high := on.high
  rw [List.length_cons] at high
  simp only [Cpu.sp] at high up ⊢
  rw [up]
  bv_omega

/-- A pop leaves the words below the first. -/
theorem OnStack.drop (on : OnStack c (w :: ws)) : OnStack c.drop ws := by
  have up := on.drop_sp
  have high := on.high
  rw [List.length_cons] at high
  refine ⟨?_, by omega⟩
  rw [up]
  exact on.words.2

/-- A return jumps to the first word and leaves the rest. -/
theorem OnStack.ret (on : OnStack c (w :: ws)) : (ret c).rip = w ∧ OnStack (ret c) ws ∧
    (ret c).sp = c.sp + 8 := by
  have regs : (X86.ret c).regs .rsp = c.drop.regs .rsp := congrFun ret_regs .rsp
  refine ⟨on.top, on.drop.congr regs fun _ _ _ => rfl, ?_⟩
  rw [← on.drop_sp]
  exact congrArg BitVec.toNat regs

/-- Half of the top word overwritten. -/
theorem OnStack.movDword (on : OnStack c (w :: ws)) (n : Nat) :
    ∃ w', OnStack (step (.movDword 4 n) c) (w' :: ws) := by
  have high := on.high
  rw [List.length_cons] at high
  have up : (c.regs .rsp + 4).toNat = c.sp + 4 := by
    simp only [Cpu.sp] at high ⊢
    bv_omega
  have sp : (step (.movDword 4 n) c).sp = c.sp := rfl
  have fits : load (step (.movDword 4 n) c).mem c.sp 8 < 2 ^ 64 := load_lt _ _ 8
  refine ⟨BitVec.ofNat 64 (load (step (.movDword 4 n) c).mem c.sp 8), ⟨?_, ?_⟩, ?_⟩
  · rw [sp, BitVec.toNat_ofNat, Nat.mod_eq_of_lt fits]
  · rw [sp]
    refine on.words.2.congr fun b low _ => store_outside _ (.inr ?_)
    rw [up]
    omega
  · rw [sp, List.length_cons]
    exact high

/-- The upper half of the top word is then what was written. -/
theorem OnStack.movDword_high (on : OnStack c (w :: ws)) (n : Nat) :
    load (step (.movDword 4 n) c).mem c.sp 8 / 2 ^ 32 = n % 2 ^ 32 := by
  have high := on.high
  rw [List.length_cons] at high
  have up : (c.regs .rsp + 4).toNat = c.sp + 4 := by
    simp only [Cpu.sp] at high ⊢
    bv_omega
  show load (store c.mem (c.regs .rsp + 4).toNat 4 n) c.sp (4 + 4) / 256 ^ 4 = n % 256 ^ 4
  rw [load_div, up, load_store_self]

/-! ## Lists of registers -/

/-- What pushing registers does. -/
structure Pushed (rs : List Reg) (ws : List Word) (c c' : Cpu) : Prop where
  stack : OnStack c' ((rs.map c.regs).reverse ++ ws)
  regs : ∀ r, r ≠ .rsp → c'.regs r = c.regs r
  sp : c'.sp + 8 * rs.length = c.sp
  outside : ∀ a, a < c'.sp ∨ c.sp ≤ a → c'.mem a = c.mem a

/-- The registers of a list are pushed: their values are on the stack, the last on top. -/
theorem exec_pushes (rs : List Reg) (other : .rsp ∉ rs) (room : 8 * rs.length ≤ c.sp)
    (on : OnStack c ws) : Pushed rs ws c (exec (rs.map .push) c) := by
  induction rs generalizing c ws with
  | nil => exact ⟨on, fun _ _ => rfl, rfl, fun _ _ => rfl⟩
  | cons r rs ih =>
    obtain ⟨ne, rest⟩ := List.ne_and_not_mem_of_not_mem_cons other
    rw [List.length_cons] at room
    have up := pushWord_sp (c := c) (v := c.regs r) (by omega)
    have done := ih (c := c.pushWord (c.regs r)) rest (by omega) (on.pushWord (by omega) _)
    have same : rs.map (c.pushWord (c.regs r)).regs = rs.map c.regs :=
      List.map_congr_left fun q mem => pushWord_ne fun e => rest (e ▸ mem)
    refine ⟨?_, fun q other => ?_, ?_, fun a out => ?_⟩
    · have stack := done.stack
      have spelled : ((r :: rs).map c.regs).reverse ++ ws = (rs.map c.regs).reverse ++ c.regs r :: ws := by
        simp
      rw [same, ← spelled] at stack
      exact stack
    · exact (done.regs q other).trans (pushWord_ne other)
    · have := done.sp
      show (exec (rs.map .push) (c.pushWord (c.regs r))).sp + _ = _
      rw [List.length_cons]
      omega
    · have low := done.sp
      have out : a < (exec (rs.map .push) (c.pushWord (c.regs r))).sp ∨ c.sp ≤ a := out
      exact (done.outside a (by omega)).trans (pushWord_outside (by omega) (by omega))

/-- What popping registers does. -/
structure Popped (rs : List Reg) (vs ws : List Word) (c c' : Cpu) : Prop where
  stack : OnStack c' ws
  regs : ∀ x ∈ rs.zip vs, c'.regs x.1 = x.2
  others : ∀ r, r ∉ rs → r ≠ .rsp → c'.regs r = c.regs r
  sp : c'.sp = c.sp + 8 * rs.length
  mem : c'.mem = c.mem

/-- The registers of a list are popped: each has the word that was on the stack for it. -/
theorem exec_pops (rs : List Reg) (nodup : rs.Nodup) (other : .rsp ∉ rs) (fit : vs.length = rs.length)
    (on : OnStack c (vs ++ ws)) : Popped rs vs ws c (exec (rs.map .pop) c) := by
  induction rs generalizing c vs with
  | nil =>
    obtain rfl := List.length_eq_zero_iff.mp fit
    exact ⟨on, fun x mem => (by cases mem), fun _ _ _ => rfl, rfl, rfl⟩
  | cons r rs ih =>
    obtain ⟨v, vs, rfl⟩ := List.exists_cons_of_length_eq_add_one fit
    obtain ⟨fresh, nodup⟩ := List.nodup_cons.mp nodup
    obtain ⟨ne, rest⟩ := List.ne_and_not_mem_of_not_mem_cons other
    have up := on.drop_sp
    have below := on.drop.set ne.symm c.top
    have done := ih nodup rest (Nat.succ.inj fit) below
    refine ⟨done.stack, fun x mem => ?_, fun q out other => ?_, ?_, done.mem⟩
    · rcases List.mem_cons.mp mem with rfl | mem
      · refine (done.others r fresh (Ne.symm ne)).trans ?_
        rw [set_self]
        exact on.top
      · exact done.regs x mem
    · obtain ⟨differ, out⟩ := List.ne_and_not_mem_of_not_mem_cons out
      exact (done.others q out other).trans ((set_ne differ).trans (drop_ne other))
    · have sp := done.sp
      have same : (c.drop.set r c.top).sp = c.drop.sp := set_sp ne.symm
      show (exec (rs.map .pop) (c.drop.set r c.top)).sp = _
      rw [List.length_cons]
      omega

/-! ## A stack and its end -/

/-- `c'` is `c` with the words on a stack that ends at `top`. -/
structure Stacked (ws : List Word) (top : Nat) (c c' : Cpu) : Prop where
  stack : OnStack c' ws
  sp : c'.sp + 8 * ws.length = top
  regs : ∀ r, r ≠ .rsp → c'.regs r = c.regs r

namespace Stacked

variable {top : Nat}

/-- A fresh stack is empty and nothing is written above it. -/
theorem empty (c : Cpu) (sp : Word) : Stacked [] sp.toNat c (c.set .rsp sp) := by
  have same : (c.set .rsp sp).sp = sp.toNat := congrArg BitVec.toNat set_self
  exact ⟨.empty _, same, fun r ne => set_ne ne⟩

/-- A push onto a stack keeps what lies above its bottom. -/
theorem pushWord (on : Stacked ws top c d) (room : 8 * ws.length + 8 ≤ top) (v : Word) :
    Stacked (v :: ws) top c (d.pushWord v) := by
  have sp := on.sp
  have up := pushWord_sp (c := d) (v := v) (by omega)
  refine ⟨on.stack.pushWord (by omega) v, ?_, fun r ne => (pushWord_ne ne).trans (on.regs r ne)⟩
  rw [List.length_cons]
  omega

/-- Registers pushed one after the other lie in reverse, the last on top. -/
theorem pushes (on : Stacked ws top c d) (rs : List Reg) (other : .rsp ∉ rs)
    (room : 8 * ws.length + 8 * rs.length ≤ top) :
    Stacked ((rs.map c.regs).reverse ++ ws) top c (exec (rs.map .push) d) := by
  have sp := on.sp
  have pushed := exec_pushes rs other (by omega) on.stack
  have below := pushed.sp
  have same : rs.map d.regs = rs.map c.regs :=
    List.map_congr_left fun r mem => on.regs r fun e => other (e ▸ mem)
  refine ⟨?_, ?_, fun r ne => (pushed.regs r ne).trans (on.regs r ne)⟩
  · rw [← same]
    exact pushed.stack
  · rw [List.length_append, List.length_reverse, List.length_map]
    omega

/-- Half of the top word overwritten. -/
theorem movDword (on : Stacked (w :: ws) top c d) (n : Nat) :
    ∃ w', Stacked (w' :: ws) top c (step (.movDword 4 n) d) := by
  obtain ⟨w', stack⟩ := on.stack.movDword n
  exact ⟨w', stack, on.sp, on.regs⟩

end Stacked

/-- The frame that the processor pushes at an interrupt, the top word first. -/
def hardwareFrame (c : Cpu) : List Word := [c.rip, c.cs, c.rflags, c.regs .rsp, c.ss]

/-- An interrupt leaves its five words, and the error code if there is one, on the stack it picks.
-/
theorem interrupt_stacked (c : Cpu) (entry : Word) {sp : Word} (code : Option Word) (room : 48 ≤ sp.toNat) :
    Stacked (code.toList ++ hardwareFrame c) sp.toNat c (interrupt entry sp code c) := by
  have one := (Stacked.empty c sp).pushWord (by rw [List.length_nil]; omega) c.ss
  have two := one.pushWord (by rw [List.length_singleton]; omega) (c.regs .rsp)
  have three := two.pushWord (by simp only [List.length_cons, List.length_nil]; omega) c.rflags
  have four := three.pushWord (by simp only [List.length_cons, List.length_nil]; omega) c.cs
  have five := four.pushWord (by simp only [List.length_cons, List.length_nil]; omega) c.rip
  cases code with
  | none => exact ⟨five.stack.congr rfl fun _ _ _ => rfl, five.sp, five.regs⟩
  | some code =>
    have six := five.pushWord (by simp only [List.length_cons, List.length_nil]; omega) code
    exact ⟨six.stack.congr rfl fun _ _ _ => rfl, six.sp, six.regs⟩

/-- `iretq` from the processor's frame. -/
theorem iretq_regs {rip cs rflags rsp ss : Word} (on : OnStack c [rip, cs, rflags, rsp, ss]) :
    (iretq c).regs .rsp = rsp ∧ ∀ r, r ≠ .rsp → (iretq c).regs r = c.regs r := by
  have fourth : c.drop.drop.drop.top = rsp := on.drop.drop.drop.top
  have spelled : (iretq c).regs = (c.drop.drop.drop.drop.set .rsp c.drop.drop.drop.top).regs := rfl
  rw [spelled, fourth]
  refine ⟨set_self, fun r ne => ?_⟩
  rw [set_ne ne, drop_ne ne, drop_ne ne, drop_ne ne, drop_ne ne]

/-! ## C functions -/

/-- The registers that a C function gives back as it got them. -/
def calleeSaved : List Reg := [.rbx, .rbp, .rsp, .r12, .r13, .r14, .r15]

/-- What a C function keeps, from the call to the return: the callee-saved registers, and the bytes of
its callers, those of `own` from the stack pointer on. -/
structure Abi (own : Nat → Prop) (c c' : Cpu) : Prop where
  saved : ∀ r ∈ calleeSaved, c'.regs r = c.regs r
  stack : ∀ a, c.sp ≤ a → own a → c'.mem a = c.mem a

namespace Abi

variable {own less : Nat → Prop}

/-- A function that does nothing keeps to the calling convention. -/
theorem refl (c : Cpu) : Abi own c c := ⟨fun _ _ => rfl, fun _ _ _ => rfl⟩

theorem rsp (abi : Abi own c d) : d.regs .rsp = c.regs .rsp := abi.saved .rsp (by decide)

/-- The stack's top is kept. -/
theorem sp (abi : Abi own c d) : d.sp = c.sp := congrArg BitVec.toNat abi.rsp

/-- Two calls in a row keep to the convention when each does. -/
theorem trans (one : Abi own c d) (two : Abi own d e) : Abi own c e := by
  refine ⟨fun r mem => (two.saved r mem).trans (one.saved r mem), fun a low mine => ?_⟩
  rw [two.stack a (one.sp ▸ low) mine, one.stack a low mine]

/-- A function may always write less. -/
theorem mono (abi : Abi own c d) (le : ∀ a, less a → own a) : Abi less c d :=
  ⟨abi.saved, fun a low mine => abi.stack a low (le a mine)⟩

/-- A register that the callee does not save is free before. -/
theorem of_set (free : r ∉ calleeSaved) (abi : Abi own (c.set r v) d) : Abi own c d := by
  have ne : ∀ q ∈ calleeSaved, q ≠ r := fun q saved e => free (e ▸ saved)
  have sp : (c.set r v).sp = c.sp := set_sp (ne .rsp (by decide)).symm
  refine ⟨fun q saved => ?_, fun a low mine => ?_⟩
  · rw [abi.saved q saved, set_ne (ne q saved)]
  · exact abi.stack a (sp.symm ▸ low) mine

/-- The same word assigned on both sides. -/
theorem setWord (abi : Abi own c d) (x v : Word) : Abi own (c.setWord x v) (d.setWord x v) := by
  refine ⟨abi.saved, fun a low mine => ?_⟩
  have same : d.mem a = c.mem a := abi.stack a low mine
  simp only [Cpu.setWord, store, same]

/-- The words on the caller's stack stay there. -/
theorem onStack (abi : Abi own c d) (on : OnStack c ws)
    (inside : ∀ a, c.sp ≤ a → a < c.sp + 8 * ws.length → own a) : OnStack d ws :=
  on.congr abi.rsp fun a low high => abi.stack a low (inside a low high)

end Abi

/-- The run of a C function: code that keeps the promise of one, calls of an assembly routine `trip`,
any number of them one after the other, and functions around them, which save what they use and give
it back, as long as what they call keeps its promise. -/
inductive CRun (trip : Cpu → Cpu → Prop) (own : Nat → Prop) : Cpu → Cpu → Prop
  | code {c d : Cpu} (kept : Abi own c d) : CRun trip own c d
  | trip {c d : Cpu} (away : trip c d) : CRun trip own c d
  | seq {c d e : Cpu} (first : CRun trip own c d) (rest : CRun trip own d e) : CRun trip own c e
  | around {c d : Cpu} {enter leave : Cpu → Cpu}
      (restores : ∀ d, Abi own (enter c) d → Abi own c (leave d))
      (inside : CRun trip own (enter c) d) : CRun trip own c (leave d)

/-- If the assembly routine keeps the promise, so does the function. -/
theorem CRun.abi {trip : Cpu → Cpu → Prop} {own : Nat → Prop} (keeps : ∀ c d, trip c d → Abi own c d)
    (run : CRun trip own c d) : Abi own c d := by
  induction run with
  | code kept => exact kept
  | trip away => exact keeps _ _ away
  | seq _ _ one two => exact one.trans two
  | around restores _ inside => exact restores _ inside

end X86
