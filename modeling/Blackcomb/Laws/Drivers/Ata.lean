import Blackcomb.Drivers.Ata
import Blackcomb.Laws.Mm.Payloads

/-!
# Reading the disk

`ata_read` puts whole sectors into a buffer, byte for byte as they are stored, and `ata_read_bytes`
copies out of a temporary one. It counts the sectors of the length alone: what it returns is what the
disk has as long as the bytes asked for lie in that many sectors, which they do when they begin at a
sector or stay inside one, and as long as the count is below 256.

Which bytes come out is a matter of offset and length alone, and so is whether they are the right
ones.

**What it does not establish.** A read is a function of the disk here. The ports, the time a drive
takes and writing are in `AtaPorts`; errors of the drive are nowhere, for the driver does not look
for them.
-/

namespace Blackcomb.Drivers

open Memory Mm

variable {disk disk' m : Bytes} {s : Clients} {bs : List Block} {buf off len lba a : Nat}

/-! ## Sectors -/

theorem readWords_apply (j n : Nat) : readWords disk buf lba j m n a =
    if buf + 512 * j ≤ a ∧ a < buf + 512 * j + 2 * n then
      disk (512 * (lba + j) + (a - (buf + 512 * j))) else m a := by
  induction n with
  | zero => rw [readWords, if_neg (by omega)]
  | succ n ih =>
    rw [readWords, store, ih]
    by_cases here : buf + 2 * (n + j * 256) ≤ a ∧ a < buf + 2 * (n + j * 256) + 2
    · rw [if_pos here, if_pos (by omega)]
      -- a word is its two bytes, the lower one first
      have low : (disk (sectorSize * (lba + j) + 2 * n)).toNat < 256 := BitVec.isLt _
      have high : (disk (sectorSize * (lba + j) + 2 * n + 1)).toNat < 256 := BitVec.isLt _
      simp only [load]
      apply BitVec.eq_of_toNat_eq
      rcases Nat.lt_or_ge a (buf + 2 * (n + j * 256) + 1) with first | second
      · have place : 512 * (lba + j) + (a - (buf + 512 * j)) = sectorSize * (lba + j) + 2 * n := by
          rw [sectorSize]
          omega
        have zero : a - (buf + 2 * (n + j * 256)) = 0 := by omega
        rw [place, zero, BitVec.toNat_ofNat]
        omega
      · have place : 512 * (lba + j) + (a - (buf + 512 * j)) =
            sectorSize * (lba + j) + 2 * n + 1 := by
          rw [sectorSize]
          omega
        have one : a - (buf + 2 * (n + j * 256)) = 1 := by omega
        rw [place, one, BitVec.toNat_ofNat]
        omega
    · rw [if_neg here]
      split
      · rw [if_pos (by omega)]
      · rw [if_neg (by omega)]

/-- Sectors are read byte for byte. -/
theorem readSectors_apply (n : Nat) : readSectors disk buf lba m n a =
    if buf ≤ a ∧ a < buf + 512 * n then disk (512 * lba + (a - buf)) else m a := by
  induction n with
  | zero => rw [readSectors, if_neg (by omega)]
  | succ n ih =>
    rw [readSectors, readWords_apply, ih]
    split
    · rw [if_pos (by omega)]
      congr 1
      omega
    · split
      · rw [if_pos (by omega)]
      · rw [if_neg (by omega)]

/-- What is read depends on the sectors read only. -/
theorem readSectors_congr {n : Nat} (same : ∀ i < 512 * n, disk (512 * lba + i) = disk' (512 * lba + i)) :
    readSectors disk buf lba m n = readSectors disk' buf lba m n := by
  funext a
  rw [readSectors_apply, readSectors_apply]
  split
  · exact same _ (by omega)
  · rfl

/-! ## Bytes -/

theorem nsectors_eq (len : Nat) (fits : len + 511 < 2 ^ 32) : nsectors len = (len + 511) / 512 := by
  rw [nsectors, sectorSize, Nat.mod_eq_of_lt (by omega)]

/-- What `ata_read_bytes` has done with `n` bytes at `buf`. -/
structure ReadBytes (disk : Bytes) (s : Clients) (bs : List Block) (buf off len : Nat) (h' : Heap) :
    Prop where
  served : ∃ bs', Served ⟨h', s.live⟩ bs' ∧ Ready (512 * nsectors len) bs'
  bytes : ∀ i < len, off % 512 + i < 512 * (nsectors len % 256) → h'.mem (buf + i) = disk (off + i)
  kept : ∀ a, s.Owns a → a < buf ∨ buf + len ≤ a → h'.mem a = s.heap.mem a
  brk : h'.kernelBrk ≤ s.heap.kernelBrk + 32 + 512 * nsectors len
  still : Ready (512 * nsectors len) bs → h'.kernelBrk = s.heap.kernelBrk

/-- **ata_read_bytes.** Into owned bytes, from a place whose bytes lie in the sectors counted, it reads
the bytes of the sectors that the drive is asked for, and changes nothing else that is owned; the
temporary buffer is free again. -/
theorem ataReadBytes_serves (disk : Bytes) (off : Nat) (inv : Served s bs) (owned : ∀ i < len, s.Owns (buf + i))
    (notNull : buf ≠ 0) (pos : 0 < len) (fits : len + 511 < 2 ^ 32)
    (inside : off % 512 + len ≤ 512 * nsectors len) :
    Serves (Room s bs (512 * nsectors len)) (ataReadBytes disk s.heap buf off len)
      (ReadBytes disk s bs buf off len) := by
  have count := nsectors_eq _ fits
  have size : nsectors len * 512 % 2 ^ 32 = 512 * nsectors len := by
    rw [Nat.mod_eq_of_lt (by omega), Nat.mul_comm]
  unfold ataReadBytes
  simp only [sectorSize, size, if_neg notNull]
  refine (inv.serves_kmalloc (by omega) (by omega)).bind ?_
  intro r allotted
  obtain ⟨readbuf, h₁⟩ := r
  obtain ⟨bs₁, inv₁⟩ := allotted.served
  have fresh : ∀ a, readbuf ≤ a → a < readbuf + 512 * nsectors len → ¬ s.Owns a :=
    fun a => allotted.fresh
  dsimp only at allotted inv₁ ⊢
  -- the temporary buffer and the caller's do not overlap
  have apart : buf + len ≤ readbuf + off % 512 ∨ readbuf + off % 512 + len ≤ buf := by
    by_contra overlap
    rcases Nat.le_total buf (readbuf + off % 512) with le | le
    · exact fresh (readbuf + off % 512) (by omega) (by omega)
        (by
          have := owned (readbuf + off % 512 - buf) (by omega)
          rwa [Nat.add_sub_of_le le] at this)
    · exact fresh buf (by omega) (by omega) (owned 0 pos)
  -- the memory with the sectors, and with the bytes copied out of them
  generalize first : ataRead disk h₁.mem readbuf (off / 512) (nsectors len) = m₁
  generalize second : memcpy m₁ buf (readbuf + off % 512) len = m₂
  have sectors : ∀ a, m₁ a = if readbuf ≤ a ∧ a < readbuf + 512 * (nsectors len % 256) then
      disk (512 * (off / 512) + (a - readbuf)) else h₁.mem a := by
    intro a
    rw [← first]
    exact readSectors_apply _
  have copied : ∀ a, m₂ a = if buf ≤ a ∧ a < buf + len then m₁ (readbuf + off % 512 + (a - buf))
      else m₁ a := by
    intro a
    rw [← second]
    exact memcpy_apply apart a
  have few : nsectors len % 256 ≤ nsectors len := Nat.mod_le _ _
  have buffer : ∀ a, s.Owns a → m₁ a = h₁.mem a := by
    intro a owns
    rw [sectors, if_neg]
    exact fun here => fresh a here.1 (by omega) owns
  have inv₂ : Served ⟨{ h₁ with mem := m₂ }, (readbuf, 512 * nsectors len) :: s.live⟩ bs₁ := by
    apply inv₁.rewrite
    intro a not
    have other : ¬ (buf ≤ a ∧ a < buf + len) := by
      intro here
      have owns := owned (a - buf) (by omega)
      rw [Nat.add_sub_of_le here.1] at owns
      exact not (owns.mono fun x mem => List.mem_cons_of_mem _ mem)
    rw [copied, if_neg other, sectors, if_neg]
    intro here
    exact not (.inl ⟨_, List.mem_cons_self, here.1, by simp only; omega⟩)
  obtain ⟨bs₂, inv₃, ready, kept, brk⟩ := inv₂.frees
  generalize Mm.free { h₁ with mem := m₂ } readbuf = h₂ at inv₃ kept brk ⊢
  apply Serves.ok
  constructor
  case served => exact ⟨bs₂, inv₃, ready⟩
  case bytes =>
    intro i lt first
    have owns : Clients.Owns ⟨{ h₁ with mem := m₂ }, (readbuf, 512 * nsectors len) :: s.live⟩
        (buf + i) := (owned i lt).mono fun x mem => List.mem_cons_of_mem _ mem
    refine (kept _ owns).trans ?_
    show m₂ (buf + i) = _
    rw [copied, if_pos (by omega), sectors, if_pos (by omega)]
    congr 1
    omega
  case kept =>
    intro a owns out
    refine (kept _ (owns.mono fun x mem => List.mem_cons_of_mem _ mem)).trans ?_
    show m₂ a = _
    rw [copied, if_neg (by omega), buffer a owns, allotted.kept a owns]
  case brk => exact brk.le.trans allotted.brk
  case still => exact fun ready => brk.trans (allotted.still ready)

/-- A read that returns had room for its sectors. -/
theorem ataReadBytes_room {h' : Heap} (inv : Served s bs) (pos : 0 < len) (fits : len + 511 < 2 ^ 32)
    (done : ataReadBytes disk s.heap buf off len = .ok h') : Room s bs (512 * nsectors len) := by
  have count := nsectors_eq _ fits
  have size : nsectors len * 512 % 2 ^ 32 = 512 * nsectors len := by
    rw [Nat.mod_eq_of_lt (by omega), Nat.mul_comm]
  unfold ataReadBytes at done
  simp only [sectorSize, size] at done
  obtain ⟨_, allocated, _⟩ := bind_eq_ok.mp done
  exact inv.room_of_kmalloc (by omega) (by omega) allocated

/-- What `ata_read_bytes` does depends on the sectors read only. -/
theorem ataReadBytes_congr {h : Heap} (same : ∀ i < 512 * (nsectors len % 256),
    disk (512 * (off / 512) + i) = disk' (512 * (off / 512) + i)) :
    ataReadBytes disk h buf off len = ataReadBytes disk' h buf off len := by
  have sectors : ∀ m readbuf, ataRead disk m readbuf (off / sectorSize) (nsectors len) =
      ataRead disk' m readbuf (off / sectorSize) (nsectors len) := by
    intro m readbuf
    exact readSectors_congr same
  unfold ataReadBytes
  simp only [sectors]

/-! ## Where the bytes are right -/

/-- What is promised of `ata_read_bytes`: it returns with the bytes asked for in `buf`, nothing else that is
owned has changed, and every byte that its `memcpy` read was in the temporary buffer. -/
def BytesRight (disk : Bytes) (s : Clients) (buf off len : Nat) : Prop :=
  ∃ readbuf h₁ h', kmalloc s.heap (nsectors len * sectorSize % 2 ^ 32) = .ok (readbuf, h₁) ∧
    ataReadBytes disk s.heap buf off len = .ok h' ∧
    (∀ i < len, h'.mem (buf + i) = disk (off + i)) ∧
    (∀ a, s.Owns a → a < buf ∨ buf + len ≤ a → h'.mem a = s.heap.mem a) ∧
    ∀ i < len, readbuf + off % sectorSize + i < readbuf + nsectors len * sectorSize

/-- **Byte reads.** For every disk, every place on it and every length up to 255 sectors, into any bytes of
the caller: the read is right exactly when the heap has room for the temporary buffer, and the bytes lie in
as many sectors as are counted from the length alone. -/
theorem ataReadBytes_right_iff (disk : Bytes) (s : Clients) (bs : List Block) (buf off len : Nat)
    (inv : Served s bs) (owned : ∀ i < len, s.Owns (buf + i)) (notNull : buf ≠ 0) (pos : 1 ≤ len)
    (most : len ≤ 255 * 512) : BytesRight disk s buf off len ↔
      Room s bs (512 * nsectors len) ∧ off % 512 + len ≤ 512 * nsectors len := by
  have fits : len + 511 < 2 ^ 32 := by omega
  have count := nsectors_eq len fits
  constructor
  · rintro ⟨readbuf, h₁, h', _, done, _, _, reads⟩
    refine ⟨ataReadBytes_room inv pos fits done, ?_⟩
    have last := reads (len - 1) (by omega)
    simp only [sectorSize] at last
    omega
  · rintro ⟨room, inside⟩
    have served := ataReadBytes_serves disk off inv owned notNull pos fits inside
    rcases served with ⟨_, full⟩ | ⟨h', done, read⟩
    · exact absurd room full
    have done' := done
    unfold ataReadBytes at done'
    obtain ⟨⟨readbuf, h₁⟩, allocated, _⟩ := bind_eq_ok.mp done'
    refine ⟨readbuf, h₁, h', allocated, done, fun i lt => read.bytes i lt (by omega), read.kept, ?_⟩
    intro i lt
    simp only [sectorSize]
    omega

/-- A disk on which only the second sector begins with a byte that is not zero. -/
def secondSector : Bytes := Function.update (fun _ => 0) 512 1

/-- The last byte of the first sector. -/
theorem ataReadBytes_right_iff_last : ∃ s : Clients, BytesRight secondSector s 4096 511 1 := by
  obtain ⟨s, bs, inv, room⟩ := fresh_heap
  refine ⟨s, (ataReadBytes_right_iff secondSector s bs 4096 511 1 inv
    (fun i lt => owns_below s (by omega)) (by decide) (by decide) (by decide)).mpr ⟨?_, by decide⟩⟩
  have one : 512 * nsectors 1 = 512 := by decide
  rw [one]
  exact .inr (by omega)

/-- The two bytes around the end of the first sector: what comes for the second does not depend on the
disk's second sector, and is read behind the temporary buffer. -/
theorem ataReadBytes_two_sectors : ∃ (s : Clients) (bs : List Block), Served s bs ∧
    Room s bs (512 * nsectors 2) ∧ (∀ i < 2, s.Owns (4096 + i)) ∧
    ataReadBytes secondSector s.heap 4096 511 2 = ataReadBytes (fun _ => 0) s.heap 4096 511 2 ∧
    ¬ BytesRight secondSector s 4096 511 2 := by
  obtain ⟨s, bs, inv, room⟩ := fresh_heap
  have one : nsectors 2 = 1 := by decide
  refine ⟨s, bs, inv, .inr (by omega), fun i lt => owns_below s (by omega), ?_, ?_⟩
  · apply ataReadBytes_congr
    intro i lt
    rw [one] at lt
    exact Function.update_of_ne (by omega) _ _
  · rintro ⟨readbuf, _, _, _, _, _, _, reads⟩
    have last := reads 1 (by decide)
    rw [one] at last
    simp only [sectorSize] at last
    omega

end Blackcomb.Drivers
