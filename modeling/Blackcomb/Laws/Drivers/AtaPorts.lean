import Blackcomb.Drivers.AtaPorts
import Blackcomb.Laws.Drivers.Ata
import Blackcomb.Lib.Simulation

/-!
# The disk driver and its drives

The driver of `AtaPorts` talks to drives that answer in their own time. What it does to memory and disks is
what a driver without ports does, for every time that the drives may take:

* a wait returns once the drive is no longer busy (`waitReady_eq`), and the registers then say the sector
  without the bits that have no place in them, and the drive by the lowest of those (`addressed_sector`);
* a word moves if the drive waits for it in that direction, and so do the words of a sector (`moveWords_eq`);
  the sectors follow by induction, sound (`moveSectors_sound`) and total (`moveSectors_total`);
* a transfer is one of whole sectors of a disk (`transfer_sound`, `transfer_total`), reading is the
  `ata_read` of `Ata` (`carry_eq_readSectors`), and reading bytes its `ata_read_bytes`
  (`transferBytes_read`);
* any list of calls is the list of those calls on disks without ports (`driver_refines_disks`).

A count that is `0` in its byte is taken for 256 by the drive and for none by the loop: the drive stays in the
command, and no later call returns (`idle_of_transfer`).

**What it does not establish.** The drives are the model of `Lib.AtaDrive`: an access that the protocol does
not allow has no meaning there, whatever a real drive answers. How long a wait takes is not bounded. The
status is not looked at for errors, as the driver does not.
-/

namespace Blackcomb.Drivers.Ports

open Memory Run Mm Ata

variable {t : Timing} {d d' : Drives} {h h' : Host} {direction : Direction} {second : Bool}
  {fuel buf lba n left : Nat}

/-! ## Accesses -/

/-- An access returns what it gives. -/
theorem access_eq_ok {α : Type} {x : Option α} {a : α} : access x = .ok a ↔ x = some a := by
  cases x with
  | none =>
    constructor
    · intro h
      cases h
    · intro h
      cases h
  | some b =>
    constructor
    · intro h
      cases h
      rfl
    · intro h
      cases h
      rfl

/-- The status of a drive that is not busy says that it is ready. -/
theorem status_ready (moving error : Bool) :
    (readyBit + (if moving then requestBit else 0) + (if error then errorBit else 0)) &&& statusRdy ≠ 0 ∧
      ¬ (readyBit + (if moving then requestBit else 0) + (if error then errorBit else 0)) &&&
        statusBsy ≠ 0 := by
  revert moving error
  decide

/-- The drives when they are no longer busy. -/
def rested (d : Drives) : Drives := { d with busy := 0 }

/-- **wait_ready** returns when the drive is no longer busy. -/
theorem waitReady_eq (t : Timing) : ∀ (fuel : Nat) (d : Drives), waitReady t fuel d =
    if d.busy < fuel then .ok (rested d) else .error .diverge
  | 0, d => by rw [waitReady, if_neg (Nat.not_lt_zero _)]
  | fuel + 1, d => by
    rw [waitReady]
    by_cases free : d.busy = 0
    · have status : d.readStatus t = (_, d) := if_pos free
      rw [status]
      dsimp only
      rw [if_pos (status_ready _ _), if_pos (by omega)]
      have same : rested d = d := by
        cases d
        cases free
        rfl
      rw [same]
    · have status : d.readStatus t = (_, _) := if_neg free
      rw [status]
      dsimp only
      rw [if_neg (fun ready => ready.2 (t.busy _ _)), waitReady_eq t fuel]
      have less : (d.busy - 1 < fuel) ↔ (d.busy < fuel + 1) := by omega
      simp only [less]
      rfl

/-- A register is written when no drive is busy or moves a sector. -/
theorem outb_idle {port value : Nat} (wrote : outb t port value d = .ok d') :
    d.busy = 0 ∧ d.moving = none := by
  have accepted := access_eq_ok.mp wrote
  unfold Drives.writeRegister at accepted
  split at accepted
  · cases accepted
  · rename_i idle
    rw [not_or, not_not, Option.not_isSome_iff_eq_none] at idle
    exact idle

/-- And then what is written counts. -/
theorem outb_eq {port value : Nat} (free : d.busy = 0) (idle : d.moving = none) :
    outb t port value d = access (d.setRegister t (port - ataDataReg) value) := by
  rw [outb, Drives.writeRegister, if_neg]
  rw [free, idle]
  decide

/-- The registers that a sector and a count are written to. -/
def addressed (d : Drives) (lba nsectors : Nat) : Drives :=
  { d with
    head := 0xE0 ||| (lba >>> 24 &&& 0xFF)
    count := nsectors
    number := lba &&& 0xFF
    low := lba >>> 8 &&& 0xFF
    high := lba >>> 16 &&& 0xFF }

/-- `load_lba_nsectors` writes them. -/
theorem loadLbaNsectors_eq (free : d.busy = 0) (idle : d.moving = none) :
    loadLbaNsectors t lba n d = .ok (addressed d lba n) := by
  obtain ⟨disk, sectors, head, count, number, low, high, moving, error, waits, busy⟩ := d
  cases free
  cases idle
  rfl

/-- The registers say the sector without the bits that have no place in them, and the drive by the lowest
of those. -/
theorem addressed_sector (d : Drives) (lba nsectors : Nat) :
    (addressed d lba nsectors).sector = lba % 2 ^ 28 ∧
      (addressed d lba nsectors).head.testBit 4 = lba.testBit 28 ∧
      (addressed d lba nsectors).head.testBit 6 = true := by
  have byte : ∀ x, x &&& 0xFF = x % 2 ^ 8 := fun x => Nat.and_two_pow_sub_one_eq_mod x 8
  have low : ∀ x, (0xE0 ||| x) % 2 ^ 4 = x % 2 ^ 4 := fun x => by
    rw [Nat.or_mod_two_pow, show 0xE0 % 2 ^ 4 = 0 from rfl, Nat.zero_or]
  simp only [addressed, Drives.sector, byte, Nat.shiftRight_eq_div_pow]
  refine ⟨?_, ?_, ?_⟩
  · rw [show (16 : Nat) = 2 ^ 4 from rfl, low]
    omega
  · rw [Nat.testBit_or, Nat.testBit_mod_two_pow, Nat.testBit_div_two_pow]
    rfl
  · rw [Nat.testBit_or]
    rfl

/-! ## Words -/

variable {c : Moving} {j first : Nat}

/-- The words of a sector that a drive waits to move, from its first one on. -/
theorem moveWords_eq (t : Timing) (buf j : Nat) (waits : h.Waiting c) (way : c.direction = direction) (fresh : c.word = 0)
    (le : n ≤ 256) : ∃ h', moveWords t direction buf j h n = .ok h' ∧
      h'.store = h.store.move direction (buf + 512 * j) c.second (512 * c.sector) (2 * n) ∧
      h'.drives.sectors = h.drives.sectors ∧
      (n < 256 → h'.Waiting { c with word := n }) ∧
      (n = 256 → h'.drives.moving =
        h.drives.upcoming direction c.second (c.sector + 1) (c.left - 1)) := by
  induction n with
  | zero =>
    have same : { c with word := 0 } = c := by rw [← fresh]
    exact ⟨h, rfl, (Store.move_zero _ _ _ _ _).symm, rfl, fun _ => same ▸ waits,
      fun all => absurd all (by decide)⟩
  | succ n ih =>
    obtain ⟨h₁, ran, stored, sectors, next, _⟩ := ih (by omega)
    obtain ⟨h₂, moved, after⟩ := (next (by omega)).word t (buf + 2 * (n + j * 256))
    obtain ⟨stored', sectors', next', last'⟩ := after
    have place : Moving.place { c with word := n } = 512 * c.sector + 2 * n := rfl
    have target : buf + 2 * (n + j * 256) = buf + 512 * j + 2 * n := by omega
    rw [way] at moved
    refine ⟨h₂, bind_eq_ok.mpr ⟨h₁, ran, access_eq_ok.mpr moved⟩, ?_, sectors'.trans sectors,
      fun lt => next' lt, fun all => ?_⟩
    · rw [stored', stored, place, target]
      dsimp only
      rw [way]
      exact Store.move_move _ _ _ _ _ _ _
    · rw [last' all]
      dsimp only
      rw [way]
      exact Drives.upcoming_congr sectors _ _ _ _

/-- A word that was moved was waited for from the first one on. -/
theorem waiting_of_moveWords (ran : moveWords t direction buf j h (n + 1) = .ok h') :
    ∃ c, h.Waiting c ∧ c.direction = direction := by
  induction n generalizing h' with
  | zero =>
    obtain ⟨h₁, start, moved⟩ := bind_eq_ok.mp ran
    cases start
    exact Host.waiting_of_word (access_eq_ok.mp moved)
  | succ n ih =>
    obtain ⟨h₁, before, _⟩ := bind_eq_ok.mp ran
    exact ih before

/-! ## Sectors -/

/-- What `n` sectors from `first` on have become, of a command that has `left` of them. -/
structure Transferred (h : Host) (direction : Direction) (second : Bool) (buf first left n : Nat)
    (h' : Host) : Prop where
  store : h'.store = h.store.move direction buf second (512 * first) (512 * n)
  sectors : h'.drives.sectors = h.drives.sectors
  moving : h'.drives.moving = h.drives.upcoming direction second (first + n) (left - n)

/-- A sector more, once the drive is no longer busy. -/
theorem Transferred.next {h₁ : Host}
    (done : Transferred h direction second buf first left n h₁) (more : n < left)
    (inside : first + n < h.drives.sectors second) :
    ∃ h', moveWords t direction buf n ⟨h₁.mem, rested h₁.drives⟩ 256 = .ok h' ∧
      Transferred h direction second buf first left (n + 1) h' := by
  obtain ⟨stored, sectors, moving⟩ := done
  have current : h₁.drives.moving = some ⟨direction, second, first + n, left - n, 0⟩ :=
    moving.trans (Drives.upcoming_eq_some_iff.mpr ⟨by omega, inside, rfl⟩)
  have waits : Host.Waiting ⟨h₁.mem, rested h₁.drives⟩
      ⟨direction, second, first + n, left - n, 0⟩ := ⟨current, rfl⟩
  obtain ⟨h', ran, stored', sectors', _, last⟩ :=
    moveWords_eq t buf n waits rfl rfl (Nat.le_refl 256)
  refine ⟨h', ran, ?_, sectors'.trans sectors, ?_⟩
  · have before : Host.store ⟨h₁.mem, rested h₁.drives⟩ = h₁.store := rfl
    have whole : 512 * n + 2 * 256 = 512 * (n + 1) := by omega
    rw [stored', before, stored]
    dsimp only
    rw [Nat.mul_add 512 first n, Store.move_move, whole]
  · rw [last rfl]
    dsimp only
    rw [Nat.add_assoc, Nat.sub_sub]
    exact Drives.upcoming_congr sectors _ _ _ _

/-- A loop that ends has moved sectors that the drive has. -/
theorem moveSectors_sound (moving : h.drives.moving = h.drives.upcoming direction second first left)
    (le : n ≤ left) (ran : moveSectors t fuel direction buf h n = .ok h') :
    (n = 0 ∨ first + n ≤ h.drives.sectors second) ∧
      Transferred h direction second buf first left n h' := by
  induction n generalizing h' with
  | zero =>
    cases ran
    exact ⟨.inl rfl, (Store.move_zero _ _ _ _ _).symm, rfl, moving⟩
  | succ n ih =>
    obtain ⟨h₁, before, ran⟩ := bind_eq_ok.mp ran
    obtain ⟨drives, ready, ran⟩ := bind_eq_ok.mp ran
    obtain ⟨_, done⟩ := ih (by omega) before
    rw [waitReady_eq] at ready
    split at ready
    · cases ready
      -- the first word says that there is such a sector
      obtain ⟨c, waits, _⟩ := waiting_of_moveWords ran
      obtain ⟨_, inside, _⟩ := Drives.upcoming_eq_some_iff.mp (done.moving.symm.trans waits.moving)
      obtain ⟨h₂, ran', after⟩ := done.next (t := t) (by omega) inside
      cases ran.symm.trans ran'
      exact ⟨.inr (by omega), after⟩
    · cases ready

/-- And it ends for sectors that the drive has, if it may read the status often enough. -/
theorem moveSectors_total (t : Timing) (buf : Nat)
    (moving : h.drives.moving = h.drives.upcoming direction second first left) (le : n ≤ left)
    (inside : first + n ≤ h.drives.sectors second) :
    ∃ enough h', ∀ fuel ≥ enough, moveSectors t fuel direction buf h n = .ok h' := by
  induction n with
  | zero => exact ⟨0, h, fun _ _ => rfl⟩
  | succ n ih =>
    obtain ⟨enough, h₁, before⟩ := ih (by omega) (by omega)
    obtain ⟨_, done⟩ := moveSectors_sound moving (by omega) (before enough (Nat.le_refl _))
    obtain ⟨h', ran, _⟩ := done.next (t := t) (by omega) (by omega)
    refine ⟨enough + h₁.drives.busy + 1, h', fun fuel more => ?_⟩
    have ready : waitReady t fuel h₁.drives = .ok (rested h₁.drives) := by
      rw [waitReady_eq, if_pos (by omega)]
    exact bind_eq_ok.mpr ⟨h₁, before fuel (by omega), bind_eq_ok.mpr ⟨_, ready, ran⟩⟩

/-! ## Transfers -/

/-- The command of a direction. -/
def valueOf : Direction → Nat
  | .read => commandRead
  | .write => commandWrite

/-- The drives when they have taken a command. -/
def started (t : Timing) (direction : Direction) (lba nsectors : Nat) (d : Drives) : Drives :=
  Drives.begin t (addressed (rested d) lba (nsectors % 2 ^ 8)) direction (lba.testBit 28)
    (lba % 2 ^ 28) (if nsectors % 2 ^ 8 = 0 then 256 else nsectors % 2 ^ 8)

theorem started_moving (t : Timing) (direction : Direction) (lba nsectors : Nat) (d : Drives) :
    (started t direction lba nsectors d).moving =
      (started t direction lba nsectors d).upcoming direction (lba.testBit 28) (lba % 2 ^ 28)
        (if nsectors % 2 ^ 8 = 0 then 256 else nsectors % 2 ^ 8) := rfl

/-- A transfer begins when no other is under way. -/
theorem idle_of_transfer {value : Nat} (ran : transfer t fuel direction value buf lba n h = .ok h') :
    h.drives.moving = none := by
  obtain ⟨d₁, ready, ran⟩ := bind_eq_ok.mp ran
  obtain ⟨d₂, loaded, _⟩ := bind_eq_ok.mp ran
  obtain ⟨d₃, wrote, _⟩ := bind_eq_ok.mp loaded
  rw [waitReady_eq] at ready
  split at ready
  · cases ready
    exact (outb_idle wrote).2
  · cases ready

/-- What a transfer comes to, of drives that move no sector. -/
theorem transfer_eq (idle : h.drives.moving = none) (less : h.drives.busy < fuel) :
    transfer t fuel direction (valueOf direction) buf lba n h =
      moveSectors t fuel direction buf ⟨h.mem, started t direction lba n h.drives⟩ (n % 2 ^ 8) := by
  have ready : waitReady t fuel h.drives = .ok (rested h.drives) := by
    rw [waitReady_eq, if_pos less]
  have loaded : loadLbaNsectors t lba (n % 2 ^ 8) (rested h.drives) = _ :=
    loadLbaNsectors_eq (d := rested h.drives) rfl idle
  obtain ⟨sector, drive, linear⟩ := addressed_sector (rested h.drives) lba (n % 2 ^ 8)
  have taken : outb t ataStatusCommandReg (valueOf direction)
      (addressed (rested h.drives) lba (n % 2 ^ 8)) = .ok (started t direction lba n h.drives) := by
    have free : (addressed (rested h.drives) lba (n % 2 ^ 8)).busy = 0 := rfl
    rw [outb_eq free idle]
    refine access_eq_ok.mpr ?_
    show Drives.command t _ _ = _
    rw [Drives.command, if_neg (not_not.mpr linear), sector, drive, started]
    cases direction <;> rfl
  rw [transfer, ready, ok_bind, loaded, ok_bind, taken, ok_bind]

/-- The sectors of a transfer are on the drive: of a count that is `0` in its byte the drive has to have none,
since it takes that for 256. -/
def OnDrive (sectors : Bool → Nat) (lba nsectors : Nat) : Prop :=
  if nsectors % 2 ^ 8 = 0 then sectors (lba.testBit 28) ≤ lba % 2 ^ 28
  else lba % 2 ^ 28 + nsectors % 2 ^ 8 ≤ sectors (lba.testBit 28)

/-- What a transfer does to the memory and the disks. -/
def Store.transfer (s : Store) (direction : Direction) (buf lba nsectors : Nat) : Store :=
  s.move direction buf (lba.testBit 28) (512 * (lba % 2 ^ 28)) (512 * (nsectors % 2 ^ 8))

/-- A transfer that returns, and leaves the drive idle, was one of sectors that the drive has. -/
theorem transfer_sound (ran : transfer t fuel direction (valueOf direction) buf lba n h = .ok h')
    (idle : h'.drives.moving = none) :
    h.drives.moving = none ∧ OnDrive h.drives.sectors lba n ∧
      h'.store = Store.transfer h.store direction buf lba n ∧ h'.drives.sectors = h.drives.sectors := by
  have before := idle_of_transfer ran
  have less : h.drives.busy < fuel := by
    obtain ⟨_, ready, _⟩ := bind_eq_ok.mp ran
    rw [waitReady_eq] at ready
    by_contra not
    rw [if_neg not] at ready
    cases ready
  rw [transfer_eq before less] at ran
  have begun := started_moving t direction lba n h.drives
  obtain ⟨inside, stored, sectors, moving⟩ := moveSectors_sound begun (by split <;> omega) ran
  refine ⟨before, ?_, stored, sectors⟩
  rw [OnDrive]
  split
  · -- the drive was told 256 sectors, and the loop takes none of them
    rename_i zero
    rw [idle, if_pos zero, zero] at moving
    exact (Drives.upcoming_eq_none_iff.mp moving.symm).resolve_left (by decide)
  · rename_i some
    exact inside.resolve_left some

/-- And it returns for such sectors. -/
theorem transfer_total (t : Timing) (direction : Direction) (buf : Nat) (idle : h.drives.moving = none)
    (on : OnDrive h.drives.sectors lba n) : ∃ enough h', h'.drives.moving = none ∧
      ∀ fuel ≥ enough, transfer t fuel direction (valueOf direction) buf lba n h = .ok h' := by
  have begun := started_moving t direction lba n h.drives
  obtain ⟨enough, h', ran, moving⟩ : ∃ enough h', (∀ fuel ≥ enough, moveSectors t fuel direction buf
      ⟨h.mem, started t direction lba n h.drives⟩ (n % 2 ^ 8) = .ok h') ∧ h'.drives.moving = none := by
    rw [OnDrive] at on
    split at on
    · rename_i zero
      rw [zero]
      refine ⟨0, _, fun _ _ => rfl, ?_⟩
      rw [begun]
      exact Drives.upcoming_eq_none_iff.mpr (.inr on)
    · rename_i some
      rw [if_neg some] at begun
      obtain ⟨enough, h', ran⟩ := moveSectors_total (h := ⟨h.mem, started t direction lba n h.drives⟩) t buf
        begun (Nat.le_refl _) on
      obtain ⟨_, done⟩ := moveSectors_sound begun (Nat.le_refl _) (ran enough (Nat.le_refl _))
      refine ⟨enough, h', ran, done.moving.trans (Drives.upcoming_eq_none_iff.mpr (.inl ?_))⟩
      exact Nat.sub_self _
  refine ⟨enough + h.drives.busy + 1, h', moving, fun fuel more => ?_⟩
  rw [transfer_eq idle (by omega)]
  exact ran fuel (by omega)

/-! ## Calls -/

/-- The memory and the disks, as the driver's callers know them. -/
structure Disks where
  heap : Heap
  disk : Bool → Bytes

/-- The disks behind the ports. -/
def Kernel.disks (k : Kernel) : Disks := ⟨k.heap, k.drives.disk⟩

/-- `ata_read`, of disks without ports. -/
def Disks.read (buf lba nsectors : Nat) (k : Disks) : Disks :=
  { k with
    heap := { k.heap with
      mem := Drivers.ataRead (k.disk (lba.testBit 28)) k.heap.mem buf (lba % 2 ^ 28) nsectors } }

/-- `ata_write`: whole sectors of a disk are what the memory has. -/
def Disks.write (buf lba nsectors : Nat) (k : Disks) : Disks :=
  { k with
    disk := Function.update k.disk (lba.testBit 28)
      (carry k.heap.mem buf (k.disk (lba.testBit 28)) (512 * (lba % 2 ^ 28)) (512 * (nsectors % 2 ^ 8))) }

/-- A transfer of disks without ports. -/
def Disks.transfer : Direction → Nat → Nat → Nat → Disks → Disks
  | .read => Disks.read
  | .write => Disks.write

/-- `ata_read_bytes` and `ata_write_bytes`, of disks without ports. -/
def Disks.transferBytes (direction : Direction) (start buf off len : Nat) (k : Disks) : Except Fault Disks := do
  let (readbuf, heap) ← kmalloc k.heap (nsectors len * sectorSize % 2 ^ 32)
  if buf = 0 then .error (.panic "out of memory")
  let k := Disks.transfer direction readbuf (off / sectorSize) (nsectors len) { k with heap }
  pure { k with heap := free { k.heap with mem := memcpy k.heap.mem buf (readbuf + start) len } readbuf }

/-- A call of the driver. -/
def Disks.call : Call → Disks → Except Fault Disks
  | .read buf lba nsectors, k => .ok (k.read buf lba nsectors)
  | .write buf lba nsectors, k => .ok (k.write buf lba nsectors)
  | .readBytes buf off len, k =>
    (Drivers.ataReadBytes (k.disk false) k.heap buf (off % 2 ^ 32) (len % 2 ^ 32)).map
      fun heap => { k with heap }
  | .writeBytes buf off len, k => k.transferBytes .write 0 buf (off % 2 ^ 32) (len % 2 ^ 32)

/-- The sectors that a call asks for are on the drive that it asks. -/
def Call.OnDrive (sectors : Bool → Nat) : Call → Prop
  | .read _ lba nsectors | .write _ lba nsectors => Ports.OnDrive sectors lba nsectors
  | .readBytes _ off len | .writeBytes _ off len =>
    Ports.OnDrive sectors (off % 2 ^ 32 / sectorSize) (nsectors (len % 2 ^ 32))

/-- Sectors that are carried to memory are read. -/
theorem carry_eq_readSectors (disk mem : Bytes) (buf lba n : Nat) :
    carry disk (512 * lba) mem buf (512 * n) = readSectors disk buf lba mem n := by
  funext a
  rw [readSectors_apply, carry]

/-- What a transfer leaves in the kernel's memory and on the disks. -/
theorem disks_of_store {k : Kernel}
    (stored : h'.store = Store.transfer ⟨k.heap.mem, k.drives.disk⟩ direction buf lba n) :
    Kernel.disks ⟨{ k.heap with mem := h'.mem }, h'.drives⟩ = k.disks.transfer direction buf lba n := by
  have mem := congrArg Store.mem stored
  have disk := congrArg Store.disk stored
  cases direction with
  | read =>
    have read : h'.mem = carry (k.drives.disk (lba.testBit 28)) (512 * (lba % 2 ^ 28)) k.heap.mem buf
        (512 * (n % 2 ^ 8)) := mem
    have kept : h'.drives.disk = k.drives.disk := disk
    rw [carry_eq_readSectors] at read
    rw [Kernel.disks, read, kept]
    rfl
  | write =>
    have kept : h'.mem = k.heap.mem := mem
    have written : h'.drives.disk = (Kernel.disks k |>.write buf lba n).disk := disk
    rw [Kernel.disks, kept, written]
    rfl

/-- What a run of the driver comes to. -/
structure Done (k : Kernel) (disks : Disks) (k' : Kernel) : Prop where
  idle : k'.drives.moving = none
  disks : k'.disks = disks
  sectors : k'.drives.sectors = k.drives.sectors

variable {k k' : Kernel}

/-- A transfer of the kernel's memory, as one of disks without ports. -/
theorem onHeap_sound (direction : Direction)
    (ran : onHeap (transfer t fuel direction (valueOf direction) buf lba n) k = .ok k')
    (idle : k'.drives.moving = none) : k.drives.moving = none ∧ OnDrive k.drives.sectors lba n ∧
      Done k (k.disks.transfer direction buf lba n) k' := by
  obtain ⟨h', moved, done⟩ := bind_eq_ok.mp ran
  cases done
  obtain ⟨before, on, stored, sectors⟩ := transfer_sound moved idle
  exact ⟨before, on, idle, disks_of_store stored, sectors⟩

/-- And back. -/
theorem onHeap_total (t : Timing) (direction : Direction) (buf : Nat) (idle : k.drives.moving = none)
    (on : OnDrive k.drives.sectors lba n) : ∃ enough k', Done k (k.disks.transfer direction buf lba n) k' ∧
      ∀ fuel ≥ enough, onHeap (transfer t fuel direction (valueOf direction) buf lba n) k = .ok k' := by
  obtain ⟨enough, h', after, ran⟩ :=
    transfer_total (h := ⟨k.heap.mem, k.drives⟩) t direction buf idle on
  have all : ∀ fuel ≥ enough, onHeap (transfer t fuel direction (valueOf direction) buf lba n) k =
      .ok ⟨{ k.heap with mem := h'.mem }, h'.drives⟩ := fun fuel more =>
    bind_eq_ok.mpr ⟨h', ran fuel more, rfl⟩
  exact ⟨enough, _, (onHeap_sound direction (all enough (Nat.le_refl _)) after).2.2, all⟩

/-! ## Bytes -/

variable {start off len : Nat}

/-- The end of a call: the copy out of the temporary buffer, which is given back. -/
def copiedOut (start buf len readbuf : Nat) (heap : Heap) : Heap :=
  free { heap with mem := memcpy heap.mem buf (readbuf + start) len } readbuf

/-- The parts of a call that returns. -/
theorem transferBytes_eq_ok_iff {moves : Nat → Nat → Nat → Host → Except Fault Host} :
    transferBytes moves start buf off len k = .ok k' ↔
    ∃ readbuf heap k₁, kmalloc k.heap (nsectors len * sectorSize % 2 ^ 32) = .ok (readbuf, heap) ∧ buf ≠ 0 ∧
      onHeap (moves readbuf (off / sectorSize) (nsectors len)) { k with heap } = .ok k₁ ∧
      { k₁ with heap := copiedOut start buf len readbuf k₁.heap } = k' := by
  constructor
  · intro ran
    obtain ⟨⟨readbuf, heap⟩, allocated, ran⟩ := bind_eq_ok.mp ran
    dsimp only at ran
    split at ran
    · cases ran
    · rename_i notNull
      obtain ⟨k₁, moved, done⟩ := bind_eq_ok.mp ran
      exact ⟨readbuf, heap, k₁, allocated, notNull, moved, Except.ok.inj done⟩
  · rintro ⟨readbuf, heap, k₁, allocated, notNull, moved, rfl⟩
    refine bind_eq_ok.mpr ⟨_, allocated, ?_⟩
    dsimp only
    rw [if_neg notNull]
    exact bind_eq_ok.mpr ⟨k₁, moved, rfl⟩

/-- The parts of one without ports. -/
theorem disksTransferBytes_eq_ok_iff {d d' : Disks} : d.transferBytes direction start buf off len = .ok d' ↔
    ∃ readbuf heap, kmalloc d.heap (nsectors len * sectorSize % 2 ^ 32) = .ok (readbuf, heap) ∧ buf ≠ 0 ∧
      let d₁ := Disks.transfer direction readbuf (off / sectorSize) (nsectors len) { d with heap }
      { d₁ with heap := copiedOut start buf len readbuf d₁.heap } = d' := by
  constructor
  · intro ran
    obtain ⟨⟨readbuf, heap⟩, allocated, ran⟩ := bind_eq_ok.mp ran
    dsimp only at ran
    split at ran
    · cases ran
    · rename_i notNull
      exact ⟨readbuf, heap, allocated, notNull, Except.ok.inj ran⟩
  · rintro ⟨readbuf, heap, allocated, notNull, rfl⟩
    refine bind_eq_ok.mpr ⟨_, allocated, ?_⟩
    dsimp only
    rw [if_neg notNull]
    rfl

/-- Reading bytes is `ata_read_bytes` of the first disk. -/
theorem transferBytes_read (k : Disks) (below : off / sectorSize < 2 ^ 28) :
    k.transferBytes .read (off % sectorSize) buf off len =
      (Drivers.ataReadBytes (k.disk false) k.heap buf off len).map fun heap => { k with heap } := by
  have drive : (off / sectorSize).testBit 28 = false := Nat.testBit_lt_two_pow below
  have place : off / sectorSize % 2 ^ 28 = off / sectorSize := Nat.mod_eq_of_lt below
  have same : ∀ readbuf heap,
      Disks.transfer .read readbuf (off / sectorSize) (nsectors len) { k with heap } = { k with heap := { heap with
        mem := Drivers.ataRead (k.disk false) heap.mem readbuf (off / sectorSize) (nsectors len) } } := by
    intro readbuf heap
    rw [Disks.transfer, Disks.read, drive, place]
  unfold Disks.transferBytes Drivers.ataReadBytes
  cases kmalloc k.heap (nsectors len * sectorSize % 2 ^ 32) with
  | error e => rfl
  | ok r =>
    rw [ok_bind, ok_bind]
    dsimp only
    rw [same]
    split <;> rfl

/-- The heap is the kernel's, with ports and without. -/
theorem disks_with_heap (k : Kernel) (f : Heap → Heap) :
    Kernel.disks { k with heap := f k.heap } = { k.disks with heap := f k.disks.heap } := rfl

/-- A call that returns, and leaves the drive idle. -/
theorem transferBytes_sound (direction : Direction)
    (ran : transferBytes (transfer t fuel direction (valueOf direction)) start buf off len k = .ok k')
    (idle : k'.drives.moving = none) : k.drives.moving = none ∧
      OnDrive k.drives.sectors (off / sectorSize) (nsectors len) ∧
      ∃ d, k.disks.transferBytes direction start buf off len = .ok d ∧ Done k d k' := by
  obtain ⟨readbuf, heap, k₁, allocated, notNull, moved, rfl⟩ := transferBytes_eq_ok_iff.mp ran
  obtain ⟨before, on, after, disks, sectors⟩ := onHeap_sound direction moved idle
  have same : Disks.transfer direction readbuf (off / sectorSize) (nsectors len) { k.disks with heap } =
      k₁.disks := disks.symm
  refine ⟨before, on, _,
    disksTransferBytes_eq_ok_iff.mpr ⟨readbuf, heap, allocated, notNull, rfl⟩, idle, ?_, sectors⟩
  rw [same]
  exact disks_with_heap _ _

/-- And it returns where the one without ports does. -/
theorem transferBytes_total {d : Disks} (t : Timing) (direction : Direction) (idle : k.drives.moving = none)
    (on : OnDrive k.drives.sectors (off / sectorSize) (nsectors len))
    (spec : k.disks.transferBytes direction start buf off len = .ok d) : ∃ enough k', Done k d k' ∧
      ∀ fuel ≥ enough,
        transferBytes (transfer t fuel direction (valueOf direction)) start buf off len k = .ok k' := by
  obtain ⟨readbuf, heap, allocated, notNull, rfl⟩ := disksTransferBytes_eq_ok_iff.mp spec
  obtain ⟨enough, k₁, ⟨after, disks, sectors⟩, ran⟩ :=
    onHeap_total (k := { k with heap }) t direction readbuf idle on
  have same : Disks.transfer direction readbuf (off / sectorSize) (nsectors len) { k.disks with heap } =
      k₁.disks := disks.symm
  refine ⟨enough, { k₁ with heap := copiedOut start buf len readbuf k₁.heap }, ⟨after, ?_, sectors⟩,
    fun fuel more => ?_⟩
  · rw [same]
    exact disks_with_heap _ _
  · exact transferBytes_eq_ok_iff.mpr ⟨readbuf, heap, k₁, allocated, notNull, ran fuel more, rfl⟩

/-! ## Runs -/

/-- The sector of a byte at a `uint32_t` is on the first drive. -/
theorem uint32_sector (off : Nat) : off % 2 ^ 32 / sectorSize < 2 ^ 28 := by
  rw [sectorSize]
  omega

/-- A step of a run: what a call has done if it leaves the drive idle. -/
theorem call_sound {c : Call} (ran : call t fuel c k = .ok k') (idle : k'.drives.moving = none) :
    k.drives.moving = none ∧ c.OnDrive k.drives.sectors ∧
      ∃ d, Disks.call c k.disks = .ok d ∧ Done k d k' := by
  cases c with
  | read buf lba n =>
    obtain ⟨before, on, done⟩ := onHeap_sound .read ran idle
    exact ⟨before, on, _, rfl, done⟩
  | write buf lba n =>
    obtain ⟨before, on, done⟩ := onHeap_sound .write ran idle
    exact ⟨before, on, _, rfl, done⟩
  | readBytes buf off len =>
    obtain ⟨before, on, d, spec, done⟩ := transferBytes_sound .read ran idle
    exact ⟨before, on, d, (transferBytes_read k.disks (uint32_sector off)).symm.trans spec, done⟩
  | writeBytes buf off len => exact transferBytes_sound .write ran idle

/-- And that it returns. -/
theorem call_total {c : Call} {d : Disks} (t : Timing) (idle : k.drives.moving = none)
    (on : c.OnDrive k.drives.sectors) (spec : Disks.call c k.disks = .ok d) :
    ∃ enough k', Done k d k' ∧ ∀ fuel ≥ enough, call t fuel c k = .ok k' := by
  cases c with
  | read buf lba n =>
    cases spec
    exact onHeap_total t .read buf idle on
  | write buf lba n =>
    cases spec
    exact onHeap_total t .write buf idle on
  | readBytes buf off len =>
    have read := (transferBytes_read k.disks (uint32_sector off)).trans spec
    exact transferBytes_total t .read idle on read
  | writeBytes buf off len => exact transferBytes_total t .write idle on spec

/-- What a run has done. A drive that is left in a command is refused by the next call, so every call before
the last left it idle as well. -/
theorem run_sound {calls : List Call} (ran : follow (call t fuel) k calls = .ok k')
    (idle : k'.drives.moving = none) : k.drives.moving = none ∧ (∀ c ∈ calls, c.OnDrive k.drives.sectors) ∧
      ∃ d, follow Disks.call k.disks calls = .ok d ∧ Done k d k' := by
  induction calls generalizing k with
  | nil =>
    cases ran
    exact ⟨idle, fun c mem => absurd mem List.not_mem_nil, _, rfl, idle, rfl, rfl⟩
  | cons c calls ih =>
    rw [follow] at ran
    split at ran
    · rename_i k₁ taken
      obtain ⟨before, on, d, spec, done⟩ := ih ran
      obtain ⟨first, on', d₁, spec₁, done₁⟩ := call_sound taken before
      rw [done₁.sectors] at on
      refine ⟨first, List.forall_mem_cons.mpr ⟨on', on⟩, d, ?_, idle, done.disks,
        done.sectors.trans done₁.sectors⟩
      rw [follow, spec₁]
      dsimp only
      rw [← done₁.disks, spec]
    · cases ran

/-- And that it returns: there is a number of readings that is enough for every wait of it. -/
theorem run_total {calls : List Call} {d : Disks} (t : Timing) (idle : k.drives.moving = none)
    (on : ∀ c ∈ calls, c.OnDrive k.drives.sectors) (spec : follow Disks.call k.disks calls = .ok d) :
    ∃ enough k', Done k d k' ∧ ∀ fuel ≥ enough, follow (call t fuel) k calls = .ok k' := by
  induction calls generalizing k with
  | nil =>
    cases spec
    exact ⟨0, k, ⟨idle, rfl, rfl⟩, fun _ _ => rfl⟩
  | cons c calls ih =>
    rw [follow] at spec
    split at spec
    · rename_i d₁ spec₁
      obtain ⟨on', on⟩ := List.forall_mem_cons.mp on
      obtain ⟨enough₁, k₁, done₁, ran₁⟩ := call_total t idle on' spec₁
      obtain ⟨enough, k', done, ran⟩ :=
        ih done₁.idle (done₁.sectors.symm ▸ on) (done₁.disks.symm ▸ spec)
      refine ⟨enough₁ + enough, k', ⟨done.idle, done.disks, done.sectors.trans done₁.sectors⟩,
        fun fuel more => ?_⟩
      rw [follow, ran₁ fuel (by omega)]
      exact ran fuel (by omega)
    · cases spec

/-- **The driver at its ports.** For drives that are busy as long as they like before and after every sector,
and show what they like meanwhile, and every list of calls: the calls return, from some number of readings of
the status on that each wait is given, with no drive left in a command, if and only if none was at the start,
every call asks for sectors that its drive has, and the calls return of disks without ports; and then memory
and disks are what they are there. -/
theorem driver_refines_disks (t : Timing) (calls : List Call) (k : Kernel) (d : Disks) :
    (∃ enough k', k'.drives.moving = none ∧ k'.disks = d ∧
      ∀ fuel ≥ enough, follow (call t fuel) k calls = .ok k') ↔
    k.drives.moving = none ∧ (∀ c ∈ calls, c.OnDrive k.drives.sectors) ∧
      follow Disks.call k.disks calls = .ok d := by
  constructor
  · rintro ⟨enough, k', idle, rfl, ran⟩
    obtain ⟨before, on, d, spec, done⟩ := run_sound (ran enough (Nat.le_refl _)) idle
    exact ⟨before, on, done.disks ▸ spec⟩
  · rintro ⟨idle, on, spec⟩
    obtain ⟨enough, k', done, ran⟩ := run_total t idle on spec
    exact ⟨enough, k', done.idle, done.disks, ran⟩

end Blackcomb.Drivers.Ports
