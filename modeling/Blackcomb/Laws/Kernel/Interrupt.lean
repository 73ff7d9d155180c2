import Blackcomb.Kernel.Interrupt
import Blackcomb.Laws.Kernel.Entry
import Blackcomb.Lib.Simulation

/-!
# From interrupts to calls

The stub of an interrupt puts its number into the upper half of a word on the stack, and `isr_main_entry`
finds it there (`deliver_vec`). A run of interrupts is then a run of the calls of the process system: a
tick for the timer, a key for a byte of the keyboard that is neither 0xf0 nor comes after it. Every
interrupt is acknowledged once to the first controller, and once to the second if it comes from there.
-/

namespace Blackcomb.Kernel

open Memory X86 Run

variable {a : Arrival} {d d' : Devices}

/-! ## The number of an interrupt -/

/-- The word that the stub leaves on top of the stack. -/
theorem isrStub_high {vec : Nat} {sp : Word} {code : Option Word} (c : Cpu) (entry : Word)
    (pushes : code.isSome = hasErrorCode vec) (room : 48 ≤ sp.toNat) :
    load (exec (isrStub vec) (interrupt entry sp code c)).mem
      (exec (isrStub vec) (interrupt entry sp code c)).sp 8 / 2 ^ 32 = vec % 2 ^ 32 := by
  have frame := interrupt_stacked c entry code room
  rw [isrStub, ← pushes]
  cases code with
  | none => exact (frame.pushWord (by simp [hardwareFrame]; omega) 0).stack.movDword_high vec
  | some code => exact frame.stack.movDword_high vec

/-- `isr_main_entry` finds the number of the interrupt. -/
theorem ctxInfo_vec (regular : a.Regular) :
    (ctxInfo (enterIsr a.vec a.entry a.sp a.code a.cpu) >>> 32).toNat = a.vec := by
  obtain ⟨table, pushes, room⟩ := regular
  have stub := isrStub_high a.cpu a.entry pushes (Nat.le_trans (by decide) room)
  obtain ⟨info, frame⟩ := isrStub_stacked a.cpu a.entry pushes (Nat.le_trans (by decide) room)
  have spelled : enterIsr a.vec a.entry a.sp a.code a.cpu = X86.step (.mov .rdi .rsp)
      (exec (isrSaved.map .push) (exec (isrStub a.vec) (interrupt a.entry a.sp a.code a.cpu))) := by
    rw [enterIsr, exec_append]
    rfl
  rw [spelled]
  generalize exec (isrStub a.vec) (interrupt a.entry a.sp a.code a.cpu) = p at stub frame
  have nine : isrSaved.length = 9 := rfl
  have six : (info :: hardwareFrame a.cpu).length = 6 := rfl
  have sp := frame.sp
  have high := frame.stack.high
  have pushed := exec_pushes isrSaved (by decide) (by omega) frame.stack
  generalize exec (isrSaved.map .push) p = q at pushed
  have below := pushed.sp
  have at_ : (q.regs .rsp + 72).toNat = p.sp := by
    simp only [Cpu.sp] at *
    bv_omega
  have same : load q.mem p.sp 8 = load p.mem p.sp 8 := load_congr fun b low _ => pushed.outside b (.inr low)
  have word : ctxInfo (X86.step (.mov .rdi .rsp) q) = BitVec.ofNat 64 (load p.mem p.sp 8) := by
    show BitVec.ofNat 64 (load q.mem ((q.set .rdi (q.regs .rsp)).regs .rdi + 72).toNat 8) = _
    rw [set_self, at_, same]
  have fits : load p.mem p.sp 8 < 2 ^ 64 := load_lt _ _ 8
  rw [word, BitVec.toNat_ushiftRight, BitVec.toNat_ofNat, Nat.mod_eq_of_lt fits, Nat.shiftRight_eq_div_pow,
    stub]
  omega

/-! ## One interrupt -/

/-- The vectors that `isr_main_entry` panics on. -/
def faulting : List Nat := [0x6, 0xD, 0xE]

/-- What a byte of the keyboard stands for: nothing if it says that a key is released, or which one. -/
def keyOf (release : Bool) (data : BitVec 8) : Option Ps2Key :=
  if release ∨ data = 0xf0 then none else some (scMap.getD data.toNat .reserved)

/-- The call that an interrupt is. -/
def Arrival.call (a : Arrival) (release : Bool) : Option Event :=
  if a.vec = 0x20 then some .tick
  else if a.vec = 0x21 then (keyOf release a.data).map .key
  else none

/-- Whether the next byte of the keyboard says which key was released. -/
def Arrival.releasing (a : Arrival) (release : Bool) : Bool :=
  if a.vec = 0x21 then !release && a.data = 0xf0 else release

/-- The acknowledgements of an interrupt, the last one first. -/
def Arrival.acks (a : Arrival) : List (Nat × BitVec 8) :=
  (pic1Command, picEoi) :: if a.vec ≥ pic2RemapBase then [(pic2Command, picEoi)] else []

theorem ps2KeyIn_iff {data : BitVec 8} : ps2KeyIn data d = .ok d' ↔
    follow Kernel.step d.kernel ((keyOf d.release data).map Event.key).toList = .ok d'.kernel ∧
      d'.release = (!d.release && data = 0xf0) ∧ d'.outb = d.outb := by
  obtain ⟨kernel, release, outb⟩ := d
  obtain ⟨kernel', release', outb'⟩ := d'
  unfold ps2KeyIn keyOf
  cases release with
  | true => simp [follow, eq_comm]
  | false =>
    by_cases prefixed : data = 0xf0
    · simp [prefixed, follow, eq_comm]
    · simp only [prefixed, Bool.false_eq_true, if_false, or_self, Option.map_some, Option.toList_some, follow,
        Kernel.step, decide_false, Bool.not_false, Bool.and_false]
      cases ttySendKey kernel (scMap.getD data.toNat .reserved) with
      | error e => simp
      | ok k => simp [eq_comm]

/-- What an interrupt does. -/
theorem deliver_iff (regular : a.Regular) : deliver a d = .ok d' ↔ a.vec ∉ faulting ∧
    follow Kernel.step d.kernel (a.call d.release).toList = .ok d'.kernel ∧
      d'.release = a.releasing d.release ∧ d'.outb = a.acks ++ d.outb := by
  have vec := ctxInfo_vec regular
  have table := regular.table
  have low : a.vec &&& 0xFFFF = a.vec := by
    rw [show 0xFFFF = 2 ^ 16 - 1 from rfl, Nat.and_two_pow_sub_one_eq_mod]
    omega
  have eoi : sendEoi (a.vec % 2 ^ 8) d = { d with outb := a.acks ++ d.outb } := by
    rw [Nat.mod_eq_of_lt (by omega), sendEoi, Arrival.acks]
    split <;> rfl
  rw [deliver, isrMainEntry, vec]
  simp only [low, eoi]
  by_cases fault : a.vec ∈ faulting
  · rw [iff_false_intro fun h : a.vec ∉ faulting ∧ _ => h.1 fault, iff_false]
    simp only [faulting, List.mem_cons, List.not_mem_nil, or_false] at fault
    rcases fault with e | e | e <;> simp [e]
  have other : a.vec ≠ 0x6 ∧ a.vec ≠ 0xD ∧ a.vec ≠ 0xE := by simpa [faulting] using fault
  rw [if_neg other.1, if_neg other.2.1, if_neg other.2.2, Arrival.call, Arrival.releasing]
  split
  · rename_i timer
    have key : a.vec ≠ 0x21 := by omega
    obtain ⟨kernel', release', outb'⟩ := d'
    simp only [fault, not_false_eq_true, true_and, Option.toList_some, follow, Kernel.step, if_neg key]
    cases schedMaybePreempt d.kernel with
    | error e => simp
    | ok k => simp [eq_comm]
  · split
    · rw [ps2KeyIn_iff]
      simp [fault]
    · obtain ⟨kernel', release', outb'⟩ := d'
      obtain ⟨kernel, release, outb⟩ := d
      simp [fault, follow, eq_comm]

/-! ## A run of them -/

/-- The calls that interrupts are. -/
def calls : Bool → List Arrival → List Event
  | _, [] => []
  | release, a :: as => (a.call release).toList ++ calls (a.releasing release) as

/-- The kernel as it starts, with its devices. -/
def startDevices (stack : Nat) : Devices := { kernel := startInit stack, release := false, outb := [] }

/-- A run of interrupts is the run of the calls that they are. -/
theorem deliver_follow_iff : ∀ {arrivals : List Arrival} {d : Devices},
    (∀ a ∈ arrivals, a.Regular) → ((∃ d', follow deliver d arrivals = .ok d') ↔
      (∀ a ∈ arrivals, a.vec ∉ faulting) ∧
        ∃ s, follow Kernel.step d.kernel (calls d.release arrivals) = .ok s)
  | [], d, _ => by simp [follow, calls]
  | a :: as, d, regular => by
    have first := regular a List.mem_cons_self
    have rest := fun d₁ => deliver_follow_iff (d := d₁) fun b mem => regular b (List.mem_cons_of_mem a mem)
    rw [follow, calls]
    constructor
    · rintro ⟨d', ran⟩
      split at ran
      · rename_i d₁ taken
        obtain ⟨met, call, release, _⟩ := (deliver_iff first).mp taken
        obtain ⟨mets, s, later⟩ := (rest d₁).mp ⟨d', ran⟩
        rw [release] at later
        exact ⟨List.forall_mem_cons.mpr ⟨met, mets⟩, s, follow_append.mpr ⟨_, call, later⟩⟩
      · cases ran
    · rintro ⟨mets, s, ran⟩
      obtain ⟨met, mets⟩ := List.forall_mem_cons.mp mets
      obtain ⟨k, call, later⟩ := follow_append.mp ran
      have taken : deliver a d = .ok ⟨k, a.releasing d.release, a.acks ++ d.outb⟩ :=
        (deliver_iff first).mpr ⟨met, call, rfl, rfl⟩
      rw [taken]
      exact (rest _).mpr ⟨mets, s, later⟩

/-- What it leaves. -/
theorem deliver_follow : ∀ {arrivals : List Arrival} {d d' : Devices}, (∀ a ∈ arrivals, a.Regular) →
    follow deliver d arrivals = .ok d' →
      follow Kernel.step d.kernel (calls d.release arrivals) = .ok d'.kernel ∧
        d'.outb = (arrivals.map Arrival.acks).reverse.flatten ++ d.outb
  | [], d, d', _, ran => by
    cases ran
    exact ⟨rfl, rfl⟩
  | a :: as, d, d', regular, ran => by
    unfold follow at ran
    split at ran
    · rename_i d₁ taken
      obtain ⟨_, call, release, outb⟩ := (deliver_iff (regular a List.mem_cons_self)).mp taken
      obtain ⟨later, rest⟩ := deliver_follow (fun b mem => regular b (List.mem_cons_of_mem a mem)) ran
      rw [release] at later
      refine ⟨follow_append.mpr ⟨_, call, later⟩, ?_⟩
      rw [rest, outb]
      simp
    · cases ran

theorem count_acks (arrivals : List Arrival) :
    (arrivals.map Arrival.acks).reverse.flatten.count (pic1Command, picEoi) = arrivals.length ∧
      (arrivals.map Arrival.acks).reverse.flatten.count (pic2Command, picEoi) =
        arrivals.countP fun a => pic2RemapBase ≤ a.vec := by
  induction arrivals with
  | nil => exact ⟨rfl, rfl⟩
  | cons a as ih =>
    have one : a.acks.count (pic1Command, picEoi) = 1 := by
      rw [Arrival.acks]
      split <;> rfl
    have two : a.acks.count (pic2Command, picEoi) = if pic2RemapBase ≤ a.vec then 1 else 0 := by
      rw [Arrival.acks]
      split <;> rfl
    simp only [List.map_cons, List.reverse_cons, List.flatten_append, List.flatten_singleton,
      List.count_append, List.length_cons, List.countP_cons, ih.1, ih.2, one, two, decide_eq_true_eq,
      and_self]

/-! ## What is typed -/

/-- The key of a call. -/
def Event.pressed : Event → Option Ps2Key
  | .key pressed => some pressed
  | _ => none

/-- What the keyboard sends. -/
inductive Keystroke
  | press (code : BitVec 8)
  | release (code : BitVec 8)

namespace Keystroke

def code : Keystroke → BitVec 8
  | press code => code
  | release code => code

def bytes : Keystroke → List (BitVec 8)
  | press code => [code]
  | release code => [0xf0, code]

def key : Keystroke → Option Ps2Key
  | press code => some (scMap.getD code.toNat .reserved)
  | release _ => none

end Keystroke

/-- The bytes of the keyboard. -/
def keyboardBytes (arrivals : List Arrival) : List (BitVec 8) :=
  (arrivals.filter fun a => a.vec = 0x21).map Arrival.data

/-- The keys among them. -/
def keysIn : Bool → List (BitVec 8) → List Ps2Key
  | _, [] => []
  | release, b :: bs => (keyOf release b).toList ++ keysIn (!release && b = 0xf0) bs

theorem calls_pressed (release : Bool) (arrivals : List Arrival) :
    (calls release arrivals).filterMap Event.pressed = keysIn release (keyboardBytes arrivals) := by
  induction arrivals generalizing release with
  | nil => rfl
  | cons a as ih =>
    rw [calls, List.filterMap_append, ih]
    by_cases key : a.vec = 0x21
    · have bytes : keyboardBytes (a :: as) = a.data :: keyboardBytes as := by simp [keyboardBytes, key]
      rw [bytes, keysIn, Arrival.releasing, if_pos key, Arrival.call, if_neg (by omega), if_pos key]
      cases keyOf release a.data <;> rfl
    · have bytes : keyboardBytes (a :: as) = keyboardBytes as := by simp [keyboardBytes, key]
      rw [bytes, Arrival.releasing, if_neg key, Arrival.call, if_neg key]
      split <;> rfl

theorem keysIn_strokes (strokes : List Keystroke) (codes : ∀ s ∈ strokes, s.code ≠ 0xf0) :
    keysIn false (strokes.flatMap Keystroke.bytes) = strokes.filterMap Keystroke.key := by
  induction strokes with
  | nil => rfl
  | cons s ss ih =>
    obtain ⟨code, rest⟩ := List.forall_mem_cons.mp codes
    rw [List.flatMap_cons, List.filterMap_cons]
    cases s with
    | press c =>
      have plain : c ≠ 0xf0 := code
      simp only [Keystroke.bytes, List.singleton_append, keysIn, keyOf, Keystroke.key, plain,
        Bool.false_eq_true, or_self, if_false, Option.toList_some, decide_false, Bool.and_false]
      rw [ih rest]
    | release c =>
      simp only [Keystroke.bytes, List.cons_append, List.nil_append, keysIn, keyOf, Keystroke.key, or_true,
        true_or, if_true, Option.toList_none, decide_true, Bool.not_false, Bool.and_true, Bool.not_true,
        Bool.false_and]
      exact ih rest

/-- Interrupts are calls. A run of them is gone through exactly if none of them is an exception that the
kernel stops at and the calls that they are can be made, one after the other; then the process system is
where these calls lead. Each interrupt is acknowledged once, and to the second controller if it comes from
there. And if the keyboard sends strokes, whatever comes between its bytes, the keys are those that are
pressed. -/
theorem interrupts_refine_calls (stack : Nat) (arrivals : List Arrival)
    (regular : ∀ a ∈ arrivals, a.Regular) :
    ((∃ d, follow deliver (startDevices stack) arrivals = .ok d) ↔
      (∀ a ∈ arrivals, a.vec ∉ faulting) ∧
        ∃ s, follow Kernel.step (startInit stack) (calls false arrivals) = .ok s) ∧
    (∀ d, follow deliver (startDevices stack) arrivals = .ok d →
      follow Kernel.step (startInit stack) (calls false arrivals) = .ok d.kernel ∧
        d.outb.count (pic1Command, picEoi) = arrivals.length ∧
        d.outb.count (pic2Command, picEoi) = arrivals.countP fun a => pic2RemapBase ≤ a.vec) ∧
    ∀ strokes : List Keystroke, keyboardBytes arrivals = strokes.flatMap Keystroke.bytes →
      (∀ s ∈ strokes, s.code ≠ 0xf0) →
        (calls false arrivals).filterMap Event.pressed = strokes.filterMap Keystroke.key := by
  refine ⟨deliver_follow_iff regular, fun d ran => ?_, fun strokes sent codes => ?_⟩
  · obtain ⟨called, outb⟩ := deliver_follow regular ran
    rw [outb]
    exact ⟨called, by simpa [startDevices] using count_acks arrivals⟩
  · rw [calls_pressed, sent, keysIn_strokes strokes codes]

/-- An interrupt of the keyboard. -/
def keyArrival (data : BitVec 8) : Arrival where
  vec := 0x21
  cpu := sampleUser fun _ => 0
  entry := 0x5000
  sp := 0x10000
  code := none
  data := data

/-- The key of the letter a is pressed and released. -/
theorem interrupts_refine_calls_letter : ∃ d,
    follow deliver (startDevices 0) [keyArrival 0x1c, keyArrival 0xf0, keyArrival 0x1c] = .ok d ∧
      follow Kernel.step (startInit 0) [.key .a] = .ok d.kernel ∧
      d.outb.count (pic1Command, picEoi) = 3 := by
  have regular : ∀ a ∈ [keyArrival 0x1c, keyArrival 0xf0, keyArrival 0x1c], a.Regular := by
    have one : ∀ data, (keyArrival data).Regular := fun data => ⟨(by decide : 0x21 < 48), rfl, (by decide : 120 ≤ (0x10000 : Word).toNat)⟩
    simp [one]
  obtain ⟨runs, leaves, _⟩ := interrupts_refine_calls 0 _ regular
  have letter : calls false [keyArrival 0x1c, keyArrival 0xf0, keyArrival 0x1c] = [.key .a] := rfl
  rw [letter] at runs leaves
  obtain ⟨s, typed, _⟩ := follow_of_observed Kernel.step (startInit 0) [.key .a] State.current 0
    (by decide +kernel)
  obtain ⟨d, ran⟩ := runs.mpr ⟨by decide, s, typed⟩
  obtain ⟨called, first, _⟩ := leaves d ran
  exact ⟨d, ran, called, first⟩

end Blackcomb.Kernel
