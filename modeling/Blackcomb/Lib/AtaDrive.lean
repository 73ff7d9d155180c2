import Mathlib.Tactic.Common
import Blackcomb.Lib.Memory

/-!
# Drives behind ATA ports

Two drives that share one set of registers, with programmed input and output and linear sector
addresses. The host writes the registers and then a command; a bit of the head register says which of
the drives is meant. A drive is busy for some time before each sector that it moves and after the last,
and then moves the sector a word at a time through the data register. A command that comes to a sector
which the drive does not have ends there, with the error bit.

For how long a drive is busy, and what its status shows meanwhile, is a `Timing`, and may be anything.
An access that the protocol does not allow has no meaning: `none`. Such are a register written while the
drive is busy or moves a sector, and a word taken or given when the drive does not move one.
-/

namespace Ata

open Memory

/-! ## The drives -/

/-- The bit of the status that says that the drive is busy. -/
def busyBit : Nat := 0x80

/-- The bit that says that it is ready. -/
def readyBit : Nat := 0x40

/-- The bit that says that it moves a sector. -/
def requestBit : Nat := 0x08

/-- The bit that says that the last command ended with an error. -/
def errorBit : Nat := 0x01

/-- For how many readings of the status the drive is busy for the `n`th time, and what they show. -/
structure Timing where
  delay : Nat → Nat
  status : Nat → Nat → Nat
  busy : ∀ n k, status n k &&& busyBit ≠ 0

/-- The two ways to move a sector: to the host and from it. -/
inductive Direction
  | read
  | write
  deriving DecidableEq, Repr

/-- A command under way: the sector that is moved, how many are left with it, and how many words of it
have been moved. -/
structure Moving where
  direction : Direction
  second : Bool
  sector : Nat
  left : Nat
  word : Nat
  deriving DecidableEq, Repr

/-- The place of the next word on the disk. -/
def Moving.place (c : Moving) : Nat := 512 * c.sector + 2 * c.word

/-- The drives, the first at `false`. `waits` is how often they have been busy, and `busy` for how many
more readings of the status they are. -/
structure Drives where
  disk : Bool → Bytes
  sectors : Bool → Nat
  head : Nat
  count : Nat
  number : Nat
  low : Nat
  high : Nat
  moving : Option Moving
  error : Bool
  waits : Nat
  busy : Nat

namespace Drives

variable (t : Timing) (d : Drives)

/-- The sector that the registers say. -/
def sector : Nat := d.number + 2 ^ 8 * d.low + 2 ^ 16 * d.high + 2 ^ 24 * (d.head % 16)

/-- The number of sectors that the registers say. -/
def sectorCount : Nat := if d.count = 0 then 256 else d.count

/-- What is under way when `left` sectors from `sector` on are still to move. -/
def upcoming (direction : Direction) (second : Bool) (sector left : Nat) : Option Moving :=
  if left = 0 ∨ d.sectors second ≤ sector then none
  else some ⟨direction, second, sector, left, 0⟩

theorem upcoming_congr {d d' : Drives} (same : d'.sectors = d.sectors) (direction : Direction)
    (second : Bool) (sector left : Nat) :
    d'.upcoming direction second sector left = d.upcoming direction second sector left := by
  rw [upcoming, upcoming, same]

/-- A sector is moved when there is one. -/
theorem upcoming_eq_some_iff {d : Drives} {direction : Direction} {second : Bool} {sector left : Nat}
    {c : Moving} : d.upcoming direction second sector left = some c ↔
      left ≠ 0 ∧ sector < d.sectors second ∧ c = ⟨direction, second, sector, left, 0⟩ := by
  rw [upcoming]
  split
  · rename_i none
    constructor
    · intro h
      cases h
    · rintro ⟨some, inside, _⟩
      omega
  · rename_i there
    rw [Option.some.injEq]
    constructor
    · rintro rfl
      exact ⟨by omega, by omega, rfl⟩
    · rintro ⟨_, _, rfl⟩
      rfl

/-- No sector is moved when none is left, or the drive does not have it. -/
theorem upcoming_eq_none_iff {d : Drives} {direction : Direction} {second : Bool} {sector left : Nat} :
    d.upcoming direction second sector left = none ↔ left = 0 ∨ d.sectors second ≤ sector := by
  rw [upcoming]
  split <;> simp_all

/-- Be busy, and then move `left` sectors from `sector` on. -/
def begin (direction : Direction) (second : Bool) (sector left : Nat) : Drives :=
  { d with
    moving := d.upcoming direction second sector left
    error := decide (left ≠ 0 ∧ d.sectors second ≤ sector)
    waits := d.waits + 1
    busy := t.delay d.waits }

/-- Go on to the next word. -/
def advance (c : Moving) : Drives :=
  if c.word + 1 = 256 then begin t d c.direction c.second (c.sector + 1) (c.left - 1)
  else { d with moving := some { c with word := c.word + 1 } }

/-- Take a command, with a linear sector address in the registers. -/
def command (value : Nat) : Option Drives :=
  if ¬ d.head.testBit 6 then none
  else if value = 0x20 then some (begin t d .read (d.head.testBit 4) d.sector d.sectorCount)
  else if value = 0x30 then some (begin t d .write (d.head.testBit 4) d.sector d.sectorCount)
  else none

/-! ## Accesses -/

/-- Read the status. -/
def readStatus : Nat × Drives :=
  if d.busy = 0 then
    (readyBit + (if d.moving.isSome then requestBit else 0) + (if d.error then errorBit else 0), d)
  else (t.status d.waits d.busy, { d with busy := d.busy - 1 })

/-- What a value written to one of the registers does. They are numbered from the data register on. -/
def setRegister (register value : Nat) : Option Drives :=
  match register with
  | 2 => some { d with count := value }
  | 3 => some { d with number := value }
  | 4 => some { d with low := value }
  | 5 => some { d with high := value }
  | 6 => some { d with head := value }
  | 7 => command t d value
  | _ => none

/-- Write one of the registers. -/
def writeRegister (register value : Nat) : Option Drives :=
  if d.busy ≠ 0 ∨ d.moving.isSome then none else setRegister t d register value

/-- Take a word. -/
def readData : Option (Nat × Drives) :=
  match d.moving with
  | some c =>
    if d.busy = 0 ∧ c.direction = .read then some (load (d.disk c.second) c.place 2, advance t d c)
    else none
  | none => none

/-- Give a word. -/
def writeData (value : Nat) : Option Drives :=
  match d.moving with
  | some c =>
    if d.busy = 0 ∧ c.direction = .write then
      some (advance t { d with
        disk := Function.update d.disk c.second (store (d.disk c.second) c.place 2 value) } c)
    else none
  | none => none

end Drives

/-! ## Bytes carried from one memory to another -/

/-- The bytes `n` from `b` on are those of `src` from `a` on. -/
def carry (src : Bytes) (a : Nat) (dst : Bytes) (b n : Nat) : Bytes := fun x =>
  if b ≤ x ∧ x < b + n then src (a + (x - b)) else dst x

theorem carry_zero (src : Bytes) (a : Nat) (dst : Bytes) (b : Nat) : carry src a dst b 0 = dst := by
  funext x
  rw [carry, if_neg (by omega)]

/-- What is carried in two parts is carried. -/
theorem carry_carry (src : Bytes) (a : Nat) (dst : Bytes) (b k n : Nat) :
    carry src (a + k) (carry src a dst b k) (b + k) n = carry src a dst b (k + n) := by
  funext x
  simp only [carry]
  by_cases later : b + k ≤ x ∧ x < b + k + n
  · have place : a + k + (x - (b + k)) = a + (x - b) := by omega
    rw [if_pos later, if_pos (by omega), place]
  · rw [if_neg later]
    by_cases first : b ≤ x ∧ x < b + k
    · rw [if_pos first, if_pos (by omega)]
    · rw [if_neg first, if_neg (by omega)]

/-- A byte of a number that was loaded. -/
theorem load_byte (m : Bytes) (a : Nat) {w i : Nat} (lt : i < w) :
    BitVec.ofNat 8 (load m a w / 256 ^ i) = m (a + i) := by
  obtain ⟨k, rfl⟩ : ∃ k, w = i + (k + 1) := ⟨w - i - 1, by omega⟩
  rw [load_div, load]
  apply BitVec.eq_of_toNat_eq
  have byte : (m (a + i)).toNat < 256 := (m (a + i)).isLt
  rw [BitVec.toNat_ofNat]
  omega

/-- A number loaded and stored is its bytes carried. -/
theorem store_load (src : Bytes) (a : Nat) (dst : Bytes) (b w : Nat) :
    store dst b w (load src a w) = carry src a dst b w := by
  funext x
  simp only [store, carry]
  by_cases inside : b ≤ x ∧ x < b + w
  · rw [if_pos inside, if_pos inside, load_byte src a (by omega)]
  · rw [if_neg inside, if_neg inside]

/-! ## A host that moves words -/

/-- The memory of the host and the bytes of the disks. -/
structure Store where
  mem : Bytes
  disk : Bool → Bytes

/-- Move `n` bytes between the memory at `buf` and a disk at `place`. -/
def Store.move (s : Store) (direction : Direction) (buf : Nat) (second : Bool) (place n : Nat) : Store :=
  match direction with
  | .read => { s with mem := carry (s.disk second) place s.mem buf n }
  | .write => { s with
      disk := Function.update s.disk second (carry s.mem buf (s.disk second) place n) }

@[simp] theorem Store.move_zero (s : Store) (direction : Direction) (buf : Nat) (second : Bool)
    (place : Nat) : s.move direction buf second place 0 = s := by
  cases direction with
  | read => simp only [move, carry_zero]
  | write => simp only [move, carry_zero, Function.update_eq_self]

/-- What is moved in two parts is moved. -/
theorem Store.move_move (s : Store) (direction : Direction) (buf : Nat) (second : Bool)
    (place k n : Nat) :
    (s.move direction buf second place k).move direction (buf + k) second (place + k) n =
      s.move direction buf second place (k + n) := by
  cases direction with
  | read => simp only [move, carry_carry]
  | write => simp only [move, Function.update_self, carry_carry, Function.update_idem]

/-- The memory and the drives. -/
structure Host where
  mem : Bytes
  drives : Drives

namespace Host

variable {t : Timing} {h h' : Host} {c : Moving} {a : Nat} {direction : Direction}

/-- What is stored, without the state of the drives. -/
def store (h : Host) : Store := ⟨h.mem, h.drives.disk⟩

/-- Take a word to the memory at `a`, or give the one that is there. -/
def word (t : Timing) (direction : Direction) (a : Nat) (h : Host) : Option Host :=
  match direction with
  | .read => (h.drives.readData t).map fun p => ⟨Memory.store h.mem a 2 p.1, p.2⟩
  | .write => (h.drives.writeData t (load h.mem a 2)).map fun d => ⟨h.mem, d⟩

/-- A drive that waits for a word in this direction. -/
structure Waiting (h : Host) (c : Moving) : Prop where
  moving : h.drives.moving = some c
  free : h.drives.busy = 0

/-- What becomes of a word that a drive waits for. -/
structure Moved (h : Host) (c : Moving) (a : Nat) (h' : Host) : Prop where
  store : h'.store = h.store.move c.direction a c.second c.place 2
  sectors : h'.drives.sectors = h.drives.sectors
  next : c.word + 1 < 256 → h'.Waiting { c with word := c.word + 1 }
  last : c.word + 1 = 256 →
    h'.drives.moving = h.drives.upcoming c.direction c.second (c.sector + 1) (c.left - 1)

/-- The drive goes on. -/
theorem advance_moved {d : Drives} (m : Bytes)
    (sectors : d.sectors = h.drives.sectors) (free : d.busy = 0)
    (stored : Store.mk m d.disk = h.store.move c.direction a c.second c.place 2) :
    h.Moved c a ⟨m, Drives.advance t d c⟩ := by
  by_cases last : c.word + 1 = 256
  · have begins : Drives.advance t d c =
        Drives.begin t d c.direction c.second (c.sector + 1) (c.left - 1) := if_pos last
    rw [begins]
    refine ⟨stored, sectors, fun next => by omega, fun _ => ?_⟩
    simp only [Drives.begin, Drives.upcoming, sectors]
  · have goes : Drives.advance t d c = { d with moving := some { c with word := c.word + 1 } } :=
      if_neg last
    rw [goes]
    exact ⟨stored, sectors, fun _ => ⟨rfl, free⟩, fun last' => absurd last' last⟩

/-- A word moves when a drive waits for it in its direction. -/
theorem Waiting.word (waits : h.Waiting c) (t : Timing) (a : Nat) :
    ∃ h', h.word t c.direction a = some h' ∧ h.Moved c a h' := by
  cases way : c.direction with
  | read =>
    refine ⟨_, ?_, advance_moved (t := t)
      (Memory.store h.mem a 2 (load (h.drives.disk c.second) c.place 2)) rfl waits.free ?_⟩
    · simp only [Host.word, Drives.readData, waits.moving, waits.free, way, and_self, if_true,
        Option.map_some]
    · rw [store_load, way]
      rfl
  | write =>
    refine ⟨_, ?_, advance_moved (t := t) (d := { h.drives with
      disk := Function.update h.drives.disk c.second
        (Memory.store (h.drives.disk c.second) c.place 2 (load h.mem a 2)) }) h.mem rfl waits.free ?_⟩
    · simp only [Host.word, Drives.writeData, waits.moving, waits.free, way, and_self, if_true,
        Option.map_some]
    · rw [store_load, way]
      rfl

/-- And only then. -/
theorem waiting_of_word (moved : h.word t direction a = some h') :
    ∃ c, h.Waiting c ∧ c.direction = direction := by
  cases direction with
  | read =>
    simp only [Host.word, Drives.readData] at moved
    split at moved
    · rename_i c moving
      split at moved
      · rename_i waits
        exact ⟨c, ⟨moving, waits.1⟩, waits.2⟩
      · cases moved
    · cases moved
  | write =>
    simp only [Host.word, Drives.writeData] at moved
    split at moved
    · rename_i c moving
      split at moved
      · rename_i waits
        exact ⟨c, ⟨moving, waits.1⟩, waits.2⟩
      · cases moved
    · cases moved

end Host

end Ata
