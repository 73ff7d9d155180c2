import Blackcomb.Lib.Memory

/-!
# Paging of x86-64

The processor's way from a virtual address to a physical one, through four levels of tables. A table of
level `0` has the pages of 4 KiB; an entry of level `1` or `2` may be a large page instead of leading to
a table.

An address is translated if its upper bits are as its bit 47 (`SignExtended`) and the walk from the
top table comes to a page (`translate`). A walk reads the entries on its way and nothing else.

**What is left out.** The bits that allow writing and user mode, and those for caching, do not keep
an address from being translated here. The accessed and dirty bits, which the processor sets, are
not in the memory.
-/

namespace X86

open Memory

/-- Addresses whose upper bits are all as the bit 47 is. -/
def SignExtended (virt : Nat) : Prop := virt / 2 ^ 47 = 0 ∨ virt / 2 ^ 47 = 2 ^ 17 - 1

instance (virt : Nat) : Decidable (SignExtended virt) := inferInstanceAs (Decidable (_ ∨ _))

/-- What an entry of a level spans. -/
def span (level : Nat) : Nat := 2 ^ (12 + 9 * level)

/-- The index of an address into a table of a level. -/
def tableIndex (virt level : Nat) : Nat := virt / span level % 512

/-- The address in an entry of a level, in its bits below 52. -/
def frameOf (level e : Nat) : Nat := e % 2 ^ 52 / span level * span level

/-- An entry of a level, with the way on from a table that it leads to. -/
def entryWalk (virt level e : Nat) (down : Nat → Option Nat) : Option Nat :=
  if e.testBit 0 = false then none
  else if level = 0 then some (frameOf 0 e + virt % span 0)
  else if e.testBit 7 = false then down (frameOf 0 e)
  else if level < 3 then some (frameOf level e + virt % span level)
  else none

/-- The walk from a table; `n` is one more than its level. -/
def walkFrom (m : Bytes) (virt : Nat) : Nat → Nat → Option Nat
  | 0, _ => none
  | level + 1, table =>
    entryWalk virt level (load m (table + 8 * tableIndex virt level) 8) (walkFrom m virt level)

/-- The physical address of a virtual one, if it has one. -/
def translate (m : Bytes) (cr3 virt : Nat) : Option Nat :=
  if SignExtended virt then walkFrom m virt 4 (frameOf 0 cr3) else none

variable {m m' : Bytes} {virt level : Nat} {down : Nat → Option Nat}

theorem span_zero : span 0 = 4096 := rfl

theorem tableIndex_lt (virt level : Nat) : tableIndex virt level < 512 := Nat.mod_lt _ (by decide)

/-- An address of a frame with flags below it. -/
theorem frameOf_zero {f : Nat} (flags : Nat) (aligned : f % 4096 = 0) (small : flags < 4096) (fits : f < 2 ^ 52) :
    frameOf 0 (f + flags) = f := by
  rw [frameOf, span_zero]
  omega

theorem entryWalk_absent : entryWalk virt level 0 down = none := rfl

/-- An entry that leads to a table. -/
theorem entryWalk_table (virt level : Nat) (down : Nat → Option Nat) {f flags : Nat}
    (aligned : f % 4096 = 0) (fits : f < 2 ^ 52)
    (odd : flags % 2 = 1) (small : flags < 128) :
    entryWalk virt (level + 1) (f + flags) down = down f := by
  have present : (f + flags).testBit 0 = true := by
    rw [Nat.testBit_zero, decide_eq_true_iff]
    omega
  have table : (f + flags).testBit 7 = false := by
    rw [Nat.testBit_eq_decide_div_mod_eq, decide_eq_false_iff_not]
    omega
  rw [entryWalk, present, table, frameOf_zero _ aligned (by omega) fits]
  rfl

/-- An entry of the last level. -/
theorem entryWalk_page (virt : Nat) (down : Nat → Option Nat) {f flags : Nat}
    (aligned : f % 4096 = 0) (fits : f < 2 ^ 52)
    (odd : flags % 2 = 1) (small : flags < 4096) :
    entryWalk virt 0 (f + flags) down = some (f + virt % 4096) := by
  have present : (f + flags).testBit 0 = true := by
    rw [Nat.testBit_zero, decide_eq_true_iff]
    omega
  rw [entryWalk, present, frameOf_zero _ aligned small fits, span_zero]
  rfl

end X86
