import Blackcomb.Kernel.Boot
import Blackcomb.Laws.Mm.Boot

/-!
# What the kernel starts on

The tables are followed through every assignment of `_start` as a function from table and index to entry
(`Holds`). In the end the processor translates four ranges and nothing else (`entryStart_translates`).

**What it does not establish.** The walk is the processor's, without what it keeps of earlier walks.
The multiboot header, the loads of the segment registers and the set-up of the stack are left out;
that the boot loader enters in protected mode without paging is where it begins.
-/

namespace Blackcomb.Kernel

open Memory X86 Mm

variable {m₀ m m' : Bytes} {pt v eax step stop i k : Nat} {t : BootTable} {T T' : BootTable → Nat → Nat}

/-! ## Entries -/

/-- No two tables have one place. -/
theorem BootTable.place_injective {t u : BootTable} (same : t.place = u.place) : t = u := by
  cases t <;> cases u <;> first | rfl | cases same

theorem BootTable.place_le (t : BootTable) : t.place ≤ 9 := by
  cases t <;> decide

/-- What the tables hold, with the rest of memory as it was before them. Every entry is below `2 ^ 32`:
its upper half is never written. -/
structure Holds (m₀ m : Bytes) (pt : Nat) (T : BootTable → Nat → Nat) : Prop where
  entry : ∀ t, ∀ i < 512, load m (t.at pt + 8 * i) 8 = T t i
  low : ∀ t, ∀ i < 512, T t i < 2 ^ 32
  outside : ∀ b, b < pt ∨ pt + 0xA000 ≤ b → m b = m₀ b

/-- The cleared bytes hold empty tables. -/
theorem Holds.zero (zero : ∀ b, pt ≤ b → b < pt + 0xA000 → m b = 0) : Holds m m pt fun _ _ => 0 where
  entry t i lt := load_eq_zero fun b low high => by
    have place := t.place_le
    rw [BootTable.at] at low high
    exact zero b (by omega) (by omega)
  low _ _ _ := by decide
  outside _ _ := rfl

/-- The tables are a matter of their bytes. -/
theorem Holds.congr (holds : Holds m₀ m pt T) (same : ∀ b, pt ≤ b → b < pt + 0xA000 → m' b = m b) :
    Holds m' m' pt T where
  entry t i lt := by
    have place := t.place_le
    rw [← holds.entry t i lt]
    refine load_congr fun b low high => ?_
    rw [BootTable.at] at low high
    exact same b (by omega) (by omega)
  low := holds.low
  outside _ _ := rfl

/-- Tables with the same entries are held by the same bytes. -/
theorem Holds.eq (holds : Holds m₀ m pt T) (same : ∀ t, ∀ i < 512, T t i = T' t i) : Holds m₀ m pt T' where
  entry t i lt := (holds.entry t i lt).trans (same t i lt)
  low t i lt := same t i lt ▸ holds.low t i lt
  outside := holds.outside

/-- An assignment of the lower half of an entry. -/
theorem Holds.put (holds : Holds m₀ m pt T) (lt : k < 512) (fits : v < 2 ^ 32) :
    Holds m₀ (store m (t.at pt + 8 * k) 4 v) pt fun u i => if u = t ∧ i = k then v else T u i where
  entry u i ltI := by
    by_cases here : u = t ∧ i = k
    · obtain ⟨rfl, rfl⟩ := here
      have old := holds.entry u i ltI
      have upper : load m (u.at pt + 8 * i + 4) 4 = 0 := by
        have half := load_div m (u.at pt + 8 * i) 4 4
        have low := holds.low u i ltI
        rw [show 4 + 4 = 8 from rfl, old] at half
        omega
      rw [if_pos ⟨rfl, rfl⟩, show 8 = 4 + 4 from rfl, load_add, load_store fits,
        load_store_of_disjoint _ (.inr (Nat.le_refl _)), upper, Nat.mul_zero, Nat.add_zero]
    · rw [if_neg here, ← holds.entry u i ltI]
      refine load_store_of_disjoint _ ?_
      rw [BootTable.at, BootTable.at]
      by_cases table : u = t
      · subst table
        have ne : i ≠ k := fun same => here ⟨rfl, same⟩
        omega
      · have ne : u.place ≠ t.place := fun same => table (BootTable.place_injective same)
        omega
  low u i ltI := by
    split
    · exact fits
    · exact holds.low u i ltI
  outside b out := by
    have place := t.place_le
    rw [store_outside _ (by rw [BootTable.at]; omega), holds.outside b out]

/-- A loop fills as many entries as `eax` takes values below its end. -/
theorem Holds.fillFrom (n : Nat) (holds : Holds m₀ m pt T) (low : pt + 0xA000 ≤ 2 ^ 32) (room : i + n < 512)
    (more : ∀ j, 0 < j → j ≤ n → eax + j * step < stop) (last : stop ≤ eax + (n + 1) * step)
    (fits : eax + (n + 1) * step < 2 ^ 32) {rounds : Nat} (enough : n < rounds) :
    ∃ m', bootFill step stop rounds m (t.at pt + 8 * i) eax = .ok m' ∧
      Holds m₀ m' pt fun u k => if u = t ∧ i ≤ k ∧ k ≤ i + n then eax + (k - i) * step else T u k := by
  have place := t.place_le
  induction n generalizing m T i eax rounds with
  | zero =>
    obtain ⟨r, rfl⟩ : ∃ r, rounds = r + 1 := ⟨rounds - 1, by omega⟩
    have one : (0 + 1) * step = step := Nat.one_mul step
    rw [one] at last fits
    have put := holds.put (t := t) (k := i) (v := eax) (by omega) (by omega)
    refine ⟨store m (t.at pt + 8 * i) 4 eax, ?_, put.eq fun u k lt => ?_⟩
    · rw [bootFill, Nat.mod_eq_of_lt fits]
      exact if_neg (by omega)
    · by_cases here : u = t ∧ k = i
      · rw [if_pos here, if_pos ⟨here.1, by omega, by omega⟩, here.2, Nat.sub_self, Nat.zero_mul,
          Nat.add_zero]
      · rw [if_neg here, if_neg fun both => here ⟨both.1, by omega⟩]
  | succ n ih =>
    obtain ⟨r, rfl⟩ : ∃ r, rounds = r + 1 := ⟨rounds - 1, by omega⟩
    have rest : eax + step + (n + 1) * step = eax + (n + 1 + 1) * step := by
      rw [Nat.add_mul (n + 1) 1, Nat.one_mul]
      omega
    have below : eax + step < stop := by
      have first := more 1 Nat.one_pos (Nat.succ_le_succ (Nat.zero_le n))
      rwa [Nat.one_mul] at first
    have small : eax + step < 2 ^ 32 := by
      have := Nat.le_mul_of_pos_left step (Nat.succ_pos n)
      omega
    have edi : (t.at pt + 8 * i + 8) % 2 ^ 32 = t.at pt + 8 * (i + 1) := by
      rw [BootTable.at]
      omega
    have later : ∀ j, 0 < j → j ≤ n → eax + step + j * step < stop := fun j pos le => by
      have next := more (j + 1) (Nat.succ_pos j) (Nat.succ_le_succ le)
      rw [Nat.add_mul, Nat.one_mul] at next
      omega
    have put := holds.put (t := t) (k := i) (v := eax) (by omega) (by omega)
    have enough : n < r := by omega
    rw [← rest] at last fits
    obtain ⟨m', ran, held⟩ := ih (i := i + 1) put (by omega) later last fits enough
    refine ⟨m', ?_, held.eq fun u k lt => ?_⟩
    · rw [bootFill, edi, Nat.mod_eq_of_lt small]
      exact (if_pos below).trans ran
    · by_cases first : u = t ∧ k = i
      · have past : ¬ (u = t ∧ i + 1 ≤ k ∧ k ≤ i + 1 + n) := by omega
        rw [if_neg past, if_pos first, if_pos ⟨first.1, by omega, by omega⟩, first.2, Nat.sub_self,
          Nat.zero_mul, Nat.add_zero]
      · by_cases behind : u = t ∧ i + 1 ≤ k ∧ k ≤ i + 1 + n
        · have shift : k - i = k - (i + 1) + 1 := by omega
          rw [if_pos behind, if_pos ⟨behind.1, by omega, by omega⟩, shift, Nat.add_mul, Nat.one_mul]
          omega
        · rw [if_neg behind, if_neg first, if_neg fun both => ?_]
          rcases Nat.lt_or_ge i k with lt | ge
          · exact behind ⟨both.1, by omega, by omega⟩
          · exact first ⟨both.1, by omega⟩

/-- The same from the first entry on. -/
theorem Holds.fill (t : BootTable) (eax step stop n : Nat) (holds : Holds m₀ m pt T)
    (low : pt + 0xA000 ≤ 2 ^ 32) (room : n < 512)
    (more : ∀ j, 0 < j → j ≤ n → eax + j * step < stop) (last : stop ≤ eax + (n + 1) * step)
    (fits : eax + (n + 1) * step < 2 ^ 32) :
    ∃ m', bootFill step stop bootRounds m (t.at pt) eax = .ok m' ∧
      Holds m₀ m' pt fun u k => if u = t ∧ k ≤ n then eax + k * step else T u k := by
  have enough : n < bootRounds := Nat.lt_trans room (by decide)
  obtain ⟨m', ran, held⟩ :=
    holds.fillFrom (t := t) (i := 0) n low (by omega) more last fits enough
  simp only [Nat.zero_add, Nat.zero_le, true_and, Nat.sub_zero] at held
  exact ⟨m', ran, held⟩

/-- What `_start` leaves in the tables. -/
def bootEntry (pt : Nat) : BootTable → Nat → Nat
  | .p4, i =>
    if i = 0 then BootTable.p3Lower.at pt + 3 else if i = 273 then BootTable.p3Physmem.at pt + 3
    else if i = 510 then BootTable.p3Stack.at pt + 3 else if i = 511 then BootTable.p3Upper.at pt + 3 else 0
  | .p3Upper, i => if i = 510 then BootTable.p2Upper.at pt + 3 else 0
  | .p2Upper, i => if i = 0 then BootTable.p1Code.at pt + 3 else 0
  | .p3Lower, i => if i = 0 then BootTable.p2Lower.at pt + 3 else 0
  | .p2Lower, i => if i = 0 then BootTable.p1Code.at pt + 3 else 0
  | .p1Code, i => 3 + i * 0x1000
  | .p3Stack, i => if i = 0 then BootTable.p2Stack.at pt + 3 else 0
  | .p2Stack, i => if i = 0 then BootTable.p1Stack.at pt + 3 else 0
  | .p1Stack, i => if i < 8 then 3 + i * 0x1000 else 0
  | .p3Physmem, i => if i = 0 then 0x83 else 0

theorem bootFlags_eq : bootFlags = 3 := rfl

/-- An entry is made to lead to a table. -/
theorem Holds.link (holds : Holds m₀ m pt T) (aligned : pt % 4096 = 0) (low : pt + 0xA000 ≤ 2 ^ 32)
    (lt : i < 512) (t u : BootTable) :
    Holds m₀ (bootLink pt m t i u) pt fun u' k => if u' = t ∧ k = i then u.at pt + 3 else T u' k := by
  have place := u.place_le
  have value : u.at pt ||| bootFlags = u.at pt + 3 := by
    obtain ⟨f, eq⟩ : ∃ f, u.at pt = 2 ^ 12 * f := ⟨u.at pt / 4096, by rw [BootTable.at]; omega⟩
    rw [eq, bootFlags_eq, Nat.two_pow_add_eq_or_of_lt (by decide)]
  have fits : u.at pt + 3 < 2 ^ 32 := by
    rw [BootTable.at]
    omega
  rw [bootLink, value, Nat.mul_comm i 8]
  exact holds.put lt fits

/-- All tables are filled, and nothing beside them is written. -/
theorem bootTables_spec (aligned : pt % 4096 = 0) (low : pt + 0xA000 ≤ 2 ^ 32)
    (zero : ∀ b, pt ≤ b → b < pt + 0xA000 → m b = 0) :
    ∃ m', bootTables pt m = .ok m' ∧ Holds m m' pt (bootEntry pt) := by
  have holds := Holds.zero zero
  have holds := holds.link aligned low (show 0 < 512 by decide) .p4 .p3Lower
  have holds := holds.link aligned low (show 0 < 512 by decide) .p3Lower .p2Lower
  have holds := holds.link aligned low (show 0 < 512 by decide) .p2Lower .p1Code
  have holds := holds.link aligned low (show 511 < 512 by decide) .p4 .p3Upper
  have holds := holds.link aligned low (show 510 < 512 by decide) .p3Upper .p2Upper
  have holds := holds.link aligned low (show 0 < 512 by decide) .p2Upper .p1Code
  obtain ⟨m₁, ran₁, holds⟩ := holds.fill .p1Code bootFlags 0x1000 0x200000 511 low (by decide)
    (fun j pos le => by rw [bootFlags_eq]; omega) (by decide) (by decide)
  have holds := holds.link aligned low (show 510 < 512 by decide) .p4 .p3Stack
  have holds := holds.link aligned low (show 0 < 512 by decide) .p3Stack .p2Stack
  have holds := holds.link aligned low (show 0 < 512 by decide) .p2Stack .p1Stack
  obtain ⟨m₂, ran₂, holds⟩ := holds.fill .p1Stack bootFlags 0x1000 (1 <<< 15) 7 low (by decide)
    (fun j pos le => by rw [bootFlags_eq]; omega) (by decide) (by decide)
  have holds := holds.link aligned low (show 273 < 512 by decide) .p4 .p3Physmem
  obtain ⟨m₃, ran₃, holds⟩ := holds.fill .p3Physmem (bootFlags ||| (1 <<< 7)) (1 <<< 30) (1 <<< 20) 0
    low (by decide) (fun j pos le => absurd pos (by omega))
    (by decide) (by decide)
  refine ⟨m₃, ?_, holds.eq fun t i lt => ?_⟩
  · rw [bootTables, ran₁, ok_bind]
    dsimp only
    rw [ran₂, ok_bind]
    exact ran₃
  · cases t <;> simp [bootEntry, bootFlags_eq] <;> (try split_ifs) <;> omega

/-! ## Translation -/

/-- `0xffffff0000000000`, where the stack is to be mapped. -/
def bootStackBase : Nat := 0xffffff0000000000

/-- The ranges that are mapped. -/
def bootMap (virt : Nat) : Option Nat :=
  if virt < 0x200000 then some virt
  else if physMappingStart ≤ virt ∧ virt < physMappingStart + 2 ^ 30 then some (virt - physMappingStart)
  else if bootStackBase ≤ virt ∧ virt < bootStackBase + 2 ^ 15 then some (virt - bootStackBase)
  else if kernelTextBase ≤ virt ∧ virt < kernelTextBase + 0x200000 then some (virt - kernelTextBase)
  else none

section

variable {virt : Nat} (holds : Holds m₀ m pt (bootEntry pt)) (aligned : pt % 4096 = 0)
  (low : pt + 0xA000 ≤ 2 ^ 32)
include holds

/-- One level of the walk, at the table that holds it. -/
theorem Holds.walk (t : BootTable) (level : Nat) : walkFrom m virt (level + 1) (t.at pt) =
    entryWalk virt level (bootEntry pt t (tableIndex virt level)) (walkFrom m virt level) := by
  rw [walkFrom, holds.entry t _ (tableIndex_lt virt level)]

include aligned low

/-- An entry that leads to a table of `page_tables`. -/
theorem Holds.down (u : BootTable) (level : Nat) :
    entryWalk virt (level + 1) (u.at pt + 3) (walkFrom m virt (level + 1)) =
      entryWalk virt level (bootEntry pt u (tableIndex virt level)) (walkFrom m virt level) := by
  have place := u.place_le
  rw [entryWalk_table _ _ _ (by rw [BootTable.at]; omega) (by rw [BootTable.at]; omega) (by decide) (by decide),
    holds.walk]

omit holds aligned low in
/-- A table of pages from address `0` on. -/
theorem entryWalk_linear {down : Nat → Option Nat} :
    entryWalk virt 0 (3 + tableIndex virt 0 * 0x1000) down = some (virt % 2 ^ 21) := by
  have index : tableIndex virt 0 = virt / 2 ^ 12 % 512 := rfl
  rw [Nat.add_comm, entryWalk_page _ _ (by omega) (by omega) (by decide) (by decide), index]
  congr 1
  omega

/-- The way through `p2_lower` and `p2_upper`. -/
theorem Holds.code {u : BootTable} (two : u = .p2Lower ∨ u = .p2Upper) :
    entryWalk virt 1 (bootEntry pt u (tableIndex virt 1)) (walkFrom m virt 1) =
      if tableIndex virt 1 = 0 then some (virt % 2 ^ 21) else none := by
  have entry : bootEntry pt u (tableIndex virt 1) =
      if tableIndex virt 1 = 0 then BootTable.p1Code.at pt + 3 else 0 := by
    rcases two with rfl | rfl <;> rfl
  rw [entry]
  split
  · rw [holds.down aligned low .p1Code 0]
    exact entryWalk_linear
  · exact entryWalk_absent

/-- Through the lower table: the first two megabytes, one to one. -/
theorem Holds.lower : entryWalk virt 2 (bootEntry pt .p3Lower (tableIndex virt 2)) (walkFrom m virt 2) =
    if tableIndex virt 2 = 0 ∧ tableIndex virt 1 = 0 then some (virt % 2 ^ 21) else none := by
  rw [bootEntry, ite_and]
  split
  · rw [holds.down aligned low .p2Lower 1, holds.code aligned low (.inl rfl)]
  · exact entryWalk_absent

/-- Through the upper table: the same two megabytes at the kernel's addresses. -/
theorem Holds.upper : entryWalk virt 2 (bootEntry pt .p3Upper (tableIndex virt 2)) (walkFrom m virt 2) =
    if tableIndex virt 2 = 510 ∧ tableIndex virt 1 = 0 then some (virt % 2 ^ 21) else none := by
  rw [bootEntry, ite_and]
  split
  · rw [holds.down aligned low .p2Upper 1, holds.code aligned low (.inr rfl)]
  · exact entryWalk_absent

/-- Through the stack's table: its eight pages. -/
theorem Holds.stack : entryWalk virt 2 (bootEntry pt .p3Stack (tableIndex virt 2)) (walkFrom m virt 2) =
    if tableIndex virt 2 = 0 ∧ tableIndex virt 1 = 0 ∧ tableIndex virt 0 < 8 then some (virt % 2 ^ 21)
    else none := by
  rw [bootEntry, ite_and, ite_and]
  split
  · rw [holds.down aligned low .p2Stack 1, bootEntry]
    split
    · rw [holds.down aligned low .p1Stack 0, bootEntry]
      split
      · exact entryWalk_linear
      · exact entryWalk_absent
    · exact entryWalk_absent
  · exact entryWalk_absent

omit holds aligned low in
/-- The large page of physical memory. -/
theorem entryWalk_physmem {down : Nat → Option Nat} :
    entryWalk virt 2 (bootEntry pt .p3Physmem (tableIndex virt 2)) down =
      if tableIndex virt 2 = 0 then some (virt % 2 ^ 30) else none := by
  rw [bootEntry]
  split
  · have page : entryWalk virt 2 0x83 down = some (frameOf 2 0x83 + virt % span 2) := rfl
    rw [page, show frameOf 2 0x83 = 0 from by decide, Nat.zero_add]
    rfl
  · exact entryWalk_absent

/-- What the processor translates on the tables. -/
theorem Holds.translate (fits : virt < 2 ^ 64) : translate m pt virt = bootMap virt := by
  have root : frameOf 0 pt = BootTable.p4.at pt := by
    rw [frameOf, span_zero, BootTable.at, BootTable.place]
    omega
  have top : ∀ u : BootTable, entryWalk virt 3 (u.at pt + 3) (walkFrom m virt 3) =
      entryWalk virt 2 (bootEntry pt u (tableIndex virt 2)) (walkFrom m virt 2) := fun u =>
    holds.down aligned low u 2
  have i₃ : tableIndex virt 3 = virt / 2 ^ 39 % 512 := rfl
  have i₂ : tableIndex virt 2 = virt / 2 ^ 30 % 512 := rfl
  have i₁ : tableIndex virt 1 = virt / 2 ^ 21 % 512 := rfl
  have i₀ : tableIndex virt 0 = virt / 2 ^ 12 % 512 := rfl
  rw [X86.translate, bootMap, physMappingStart, bootStackBase, kernelTextBase]
  by_cases extended : SignExtended virt
  · rw [if_pos extended, root, holds.walk .p4 3, bootEntry, i₃]
    unfold SignExtended at extended
    by_cases lower : virt / 2 ^ 39 % 512 = 0
    · rw [if_pos lower, top, holds.lower aligned low, i₂, i₁]
      split_ifs <;> first | exact congrArg some (by omega) | omega | rfl
    by_cases physmem : virt / 2 ^ 39 % 512 = 273
    · rw [if_neg lower, if_pos physmem, top, entryWalk_physmem, i₂]
      split_ifs <;> first | exact congrArg some (by omega) | omega | rfl
    by_cases stack : virt / 2 ^ 39 % 512 = 510
    · rw [if_neg lower, if_neg physmem, if_pos stack, top, holds.stack aligned low, i₂, i₁, i₀]
      split_ifs <;> first | exact congrArg some (by omega) | omega | rfl
    by_cases upper : virt / 2 ^ 39 % 512 = 511
    · rw [if_neg lower, if_neg physmem, if_neg stack, if_pos upper, top, holds.upper aligned low, i₂, i₁]
      split_ifs <;> first | exact congrArg some (by omega) | omega | rfl
    rw [if_neg lower, if_neg physmem, if_neg stack, if_neg upper, entryWalk_absent, if_neg (by omega),
      if_neg (by omega), if_neg (by omega), if_neg (by omega)]
  · rw [if_neg extended]
    unfold SignExtended at extended
    rw [if_neg (by omega), if_neg (by omega), if_neg (by omega), if_neg (by omega)]

end

/-! ## Long mode -/

/-- The image as it is loaded: the tables are zeros, in the first 4 GiB, and the descriptors are beside
them. -/
structure BootLinked (m : Bytes) (pt gdt : Nat) : Prop where
  aligned : pt % 4096 = 0
  low : pt + 0xA000 ≤ 2 ^ 32
  zero : ∀ b, pt ≤ b → b < pt + 0xA000 → m b = 0
  apart : gdt + 24 ≤ pt ∨ pt + 0xA000 ≤ gdt
  quads : ∀ k < 3, load m (gdt + 8 * k) 8 = bootGdt.getD k 0

/-- A byte of a quad in memory. -/
theorem byte_of_quad (m : Bytes) (a : Nat) {w : Nat} (lt : w < 8) :
    (m (a + w)).toNat = load m a 8 / 256 ^ w % 256 := by
  obtain ⟨k, eight⟩ : ∃ k, 8 = w + (1 + k) := ⟨7 - w, by omega⟩
  have split : load m a 8 = load m a (w + (1 + k)) := congrArg _ eight
  have one : load m (a + w) 1 = (m (a + w)).toNat := by
    rw [load, load, Nat.mul_zero, Nat.add_zero]
  have small := (m (a + w)).isLt
  rw [split, load_div, load_add, one]
  omega

/-- The descriptor in a quad. -/
theorem segmentAt_quad (m : Bytes) (a : Nat) : segmentAt m a =
    { base := load m a 8 / 2 ^ 16 % 2 ^ 24 + 2 ^ 24 * (load m a 8 / 2 ^ 56 % 256),
      limit := load m a 8 % 2 ^ 16 + 2 ^ 16 * (load m a 8 / 2 ^ 48 % 16),
      access := load m a 8 / 2 ^ 40 % 256, flags := load m a 8 / 2 ^ 52 % 16 } := by
  have byte := fun w (lt : w < 8) => byte_of_quad m a lt
  have zero := byte 0 (by decide)
  rw [Nat.add_zero] at zero
  rw [segmentAt, zero, byte 1 (by decide), byte 2 (by decide), byte 3 (by decide), byte 4 (by decide),
    byte 5 (by decide), byte 6 (by decide), byte 7 (by decide), Segment.mk.injEq]
  generalize load m a 8 = q
  refine ⟨?_, ?_, ?_, ?_⟩ <;> omega

/-- **The way into long mode.** Wherever the linker put the tables and the descriptors, `_start` comes to
its far jump with long mode on, a code segment of 64 bits at `CODE_SEG` and a data segment at `DATA_SEG`,
and the processor translates the first 2 MiB to themselves and at `KERNEL_TEXT_BASE`, the first GiB at
`PHYS_MAPPING_START`, the first 32 KiB at the place meant for the stack, and no other address. Only the
tables are written. -/
theorem entryStart_translates (c : Control) (pt gdt : Nat) (linked : BootLinked c.mem pt gdt) :
    ∃ c', entryStart pt c = .ok c' ∧ c'.long = true ∧
      (∀ virt < 2 ^ 64, translate c'.mem c'.cr3 virt = bootMap virt) ∧
      ((select c'.mem gdt bootCodeSeg).present ∧ (select c'.mem gdt bootCodeSeg).code ∧
        (select c'.mem gdt bootCodeSeg).long ∧ (select c'.mem gdt bootCodeSeg).level = 0) ∧
      ((select c'.mem gdt bootDataSeg).present ∧ (select c'.mem gdt bootDataSeg).user ∧
        !(select c'.mem gdt bootDataSeg).code) ∧
      ∀ b, b < pt ∨ pt + 0xA000 ≤ b → c'.mem b = c.mem b := by
  obtain ⟨aligned, low, zero, apart, quads⟩ := linked
  obtain ⟨m', ran, holds⟩ := bootTables_spec aligned low zero
  have kept : ∀ k < 3, load m' (gdt + 8 * k) 8 = bootGdt.getD k 0 := fun k lt => by
    rw [← quads k lt]
    exact load_congr fun b from_ to_ => holds.outside b (by omega)
  have code : select m' gdt bootCodeSeg = { base := 0, limit := 0, access := 0x9A, flags := 2 } := by
    have quad : load m' (gdt + bootCodeSeg / 8 * 8) 8 = 0x00209A0000000000 := kept 1 (by decide)
    rw [select, segmentAt_quad, quad]
    rfl
  have data : select m' gdt bootDataSeg = { base := 0, limit := 0, access := 0x92, flags := 0 } := by
    have quad : load m' (gdt + bootDataSeg / 8 * 8) 8 = 0x0000920000000000 := kept 2 (by decide)
    rw [select, segmentAt_quad, quad]
    rfl
  refine ⟨_, by rw [entryStart, ran]; rfl, ?_, fun virt fits => ?_, ?_, ?_, holds.outside⟩
  · simp only [Control.long, Nat.testBit_or]
    rw [show Nat.testBit 0x80000001 31 = true by decide, show Nat.testBit 0x80000001 0 = true by decide,
      show Nat.testBit 0b10100000 5 = true by decide, show Nat.testBit 0x00000100 8 = true by decide]
    simp
  · exact holds.translate aligned low fits
  · dsimp only
    rw [code]
    decide
  · dsimp only
    rw [data]
    decide

/-- An image with the descriptors at 1 MiB and the tables behind them. -/
def bootImage : Bytes :=
  store (store (fun _ => 0) 0x100008 8 0x00209A0000000000) 0x100010 8 0x0000920000000000

/-- The sample is linked as the script asks. -/
theorem bootImage_linked : BootLinked bootImage 0x101000 0x100000 := by
  refine ⟨by decide, by decide, fun b low high => ?_, by decide, fun k lt => ?_⟩
  · rw [bootImage, store_outside _ (by omega), store_outside _ (by omega)]
  · rw [bootImage]
    obtain rfl | rfl | rfl : k = 0 ∨ k = 1 ∨ k = 2 := by omega
    · rw [load_store_of_disjoint _ (by decide), load_store_of_disjoint _ (by decide)]
      exact load_eq_zero fun _ _ _ => rfl
    · rw [load_store_of_disjoint _ (by decide), load_store (by decide)]
      rfl
    · rw [load_store (by decide)]
      rfl

/-- The screen at its place in the higher half, after `_start` of that image. -/
theorem entryStart_translates_screen : ∃ c', entryStart 0x101000 ⟨bootImage, 0x11, 0, 0, 0⟩ = .ok c' ∧
    c'.long = true ∧ translate c'.mem c'.cr3 0xffffffff800b8000 = some 0xb8000 := by
  obtain ⟨c', ran, long, translates, _⟩ :=
    entryStart_translates ⟨bootImage, 0x11, 0, 0, 0⟩ 0x101000 0x100000 bootImage_linked
  exact ⟨c', ran, long, (translates _ (by decide)).trans (by decide)⟩

end Blackcomb.Kernel
