import Blackcomb.Lib.Memory

/-!
# Descriptor tables of x86-64

What the processor takes out of a global descriptor table and out of an interrupt descriptor table: the
fields of a descriptor are scattered over its bytes, and put together here.

A selector is looked up below the limit of the table's register, and a load of it succeeds for a
descriptor of the right kind; the load of a task register marks the descriptor busy, which is a
write.

**What is left out.** Local tables, call gates and the checks of privilege when control passes from
one segment to another.
-/

namespace X86

open Memory

/-- A segment descriptor. -/
structure Segment where
  base : Nat
  limit : Nat
  access : Nat
  flags : Nat
  deriving DecidableEq

namespace Segment

def present (s : Segment) : Bool := s.access.testBit 7

/-- The privilege level of its code. -/
def level (s : Segment) : Nat := s.access / 2 ^ 5 % 4

/-- It is for code or data, and not of the system. -/
def user (s : Segment) : Bool := s.access.testBit 4

def code (s : Segment) : Bool := s.user && s.access.testBit 3

/-- Its code is of 64 bits. -/
def long (s : Segment) : Bool := s.flags.testBit 1

end Segment

/-- The descriptor at an address. -/
def segmentAt (m : Bytes) (a : Nat) : Segment where
  base := (m (a + 2)).toNat + 2 ^ 8 * (m (a + 3)).toNat + 2 ^ 16 * (m (a + 4)).toNat +
    2 ^ 24 * (m (a + 7)).toNat
  limit := (m a).toNat + 2 ^ 8 * (m (a + 1)).toNat + 2 ^ 16 * ((m (a + 6)).toNat % 16)
  access := (m (a + 5)).toNat
  flags := (m (a + 6)).toNat / 16

/-- A descriptor of the system, which takes two places and has a base of 64 bits. -/
def systemAt (m : Bytes) (a : Nat) : Segment :=
  { segmentAt m a with base := (segmentAt m a).base + 2 ^ 32 * load m (a + 8) 4 }

/-- The descriptor of a selector. -/
def select (m : Bytes) (gdt selector : Nat) : Segment := segmentAt m (gdt + selector / 8 * 8)

/-- An interrupt gate. -/
structure Gate where
  offset : Nat
  selector : Nat
  ist : Nat
  attr : Nat
  deriving DecidableEq

/-- The gate of a vector. -/
def gateAt (m : Bytes) (idt vector : Nat) : Gate where
  offset := load m (idt + 16 * vector) 2 + 2 ^ 16 * load m (idt + 16 * vector + 6) 2 +
    2 ^ 32 * load m (idt + 16 * vector + 8) 4
  selector := load m (idt + 16 * vector + 2) 2
  ist := load m (idt + 16 * vector + 4) 1
  attr := load m (idt + 16 * vector + 5) 1

def Gate.present (g : Gate) : Bool := g.attr.testBit 7

/-- It is a matter of its sixteen bytes. -/
theorem gateAt_congr {m m' : Bytes} {idt vector : Nat}
    (same : ∀ b, idt + 16 * vector ≤ b → b < idt + 16 * vector + 16 → m' b = m b) :
    gateAt m' idt vector = gateAt m idt vector := by
  have part : ∀ k w, k + w ≤ 16 →
      load m' (idt + 16 * vector + k) w = load m (idt + 16 * vector + k) w := fun k w le =>
    load_congr fun b low high => same b (by omega) (by omega)
  have first := part 0 2 (by decide)
  rw [Nat.add_zero] at first
  rw [gateAt, gateAt, first, part 2 2 (by decide), part 4 1 (by decide), part 5 1 (by decide),
    part 6 2 (by decide), part 8 4 (by decide)]

/-! ## Loading them -/

/-- What `lgdt` and `lidt` load: where a table is, and the last offset that is looked at. -/
structure TableRegister where
  limit : Nat
  base : Nat
  deriving DecidableEq

namespace TableRegister

/-- The descriptor that a selector names, if there is a place for it in the table. -/
def descriptor (m : Bytes) (r : TableRegister) (selector : Nat) : Option Segment :=
  if selector / 8 = 0 ∨ selector.testBit 2 ∨ r.limit < selector / 8 * 8 + 7 then none
  else some (select m r.base selector)

/-- A selector that a return within its own level can load for code. -/
def loadsCode (m : Bytes) (r : TableRegister) (selector : Nat) : Bool :=
  match r.descriptor m selector with
  | some s => s.present && s.code && s.level == selector % 4
  | none => false

/-- A selector that can be loaded at its own level for data that is written, and for a stack. -/
def loadsData (m : Bytes) (r : TableRegister) (selector : Nat) : Bool :=
  match r.descriptor m selector with
  | some s => s.present && s.user && !s.code && s.access.testBit 1 && s.level == selector % 4
  | none => false

/-- `ltr`: the task state that the selector names, which must be free, becomes busy. -/
def loadTask (m : Bytes) (r : TableRegister) (selector : Nat) : Option Bytes :=
  match r.descriptor m selector with
  | some s =>
    if s.present ∧ s.access % 2 ^ 5 = 9 then
      some (store m (r.base + selector / 8 * 8 + 5) 1 (s.access ||| 2))
    else none
  | none => none

end TableRegister

/-- A segment is a matter of its eight bytes. -/
theorem segmentAt_congr {m m' : Bytes} {a : Nat} (same : ∀ b, a ≤ b → b < a + 8 → m' b = m b) :
    segmentAt m' a = segmentAt m a := by
  have byte : ∀ k < 8, m' (a + k) = m (a + k) := fun k lt => same _ (by omega) (by omega)
  rw [segmentAt, segmentAt, byte 1 (by decide), byte 2 (by decide), byte 3 (by decide), byte 4 (by decide),
    byte 5 (by decide), byte 6 (by decide), byte 7 (by decide), show m' a = m a from byte 0 (by decide)]

end X86
