import Blackcomb.Kernel.Tables
import Blackcomb.Laws.Mm.Pmm

/-!
# What the processor finds in its tables

A descriptor that is encoded is decoded to what was encoded, if its limit has a place there; else the
encoder panics before it writes anything (`encodeGdtEntry_spec`). So `gdt_init` can load what it encoded
(`loadGdt_spec`), the selectors that the kernel loads name the segments they are meant for, and each of
the first 48 gates leads to its stub, at the kernel's level (`tables_hold`).

**What it does not establish.** The two functions also write to the stack they run on, which is left out:
the frame of `tables_hold` is about static memory. Nothing is said of the ports that `remap_pic` writes to,
and nothing of the stacks that the task state would give an interrupt, which is zero until `sched.c` fills
it in.
-/

namespace Blackcomb.Kernel

open Memory X86 Mm

variable {m m' : Bytes} {gdt tss idt vectors base limit access flags a b v : Nat}

/-! ## Segments -/

theorem store_byte (m : Bytes) (a v b : Nat) :
    store m a 1 v b = if b = a then BitVec.ofNat 8 v else m b := by
  by_cases here : b = a
  · subst here
    rw [if_pos rfl, store_inside (Nat.le_refl b) (Nat.lt_succ_self b), Nat.sub_self, Nat.pow_zero,
      Nat.div_one]
  · rw [if_neg here, store_outside]
    omega

/-- The upper half of the byte that the limit and the flags share. -/
theorem nibbles (low high : Nat) (ltLow : low < 16) (ltHigh : high < 16) :
    (low % 2 ^ 8 ||| high <<< 4) % 2 ^ 8 = low + 16 * high := by
  revert high
  revert low
  decide

theorem and_ff (x : Nat) : x &&& 0xFF = x % 2 ^ 8 := Nat.and_two_pow_sub_one_eq_mod x 8

theorem and_f (x : Nat) : x &&& 0x0F = x % 2 ^ 4 := Nat.and_two_pow_sub_one_eq_mod x 4

theorem encodeGdtEntry_spec (m : Bytes) (target limit : Nat) (fits : base < 2 ^ 32)
    (byte : access < 2 ^ 8) (nibble : flags < 2 ^ 4) :
    (limit > 0xFFFFF → ∃ msg, encodeGdtEntry m target base limit access flags = .error (.panic msg)) ∧
      (limit ≤ 0xFFFFF → ∃ m', encodeGdtEntry m target base limit access flags = .ok m' ∧
        segmentAt m' target = { base, limit, access, flags } ∧
        ∀ b, b < target ∨ target + 8 ≤ b → m' b = m b) := by
  refine ⟨fun gt => ⟨_, if_pos gt⟩, fun le => ⟨_, if_neg (by omega), ?_, fun b out => ?_⟩⟩
  · have shared := nibbles (limit / 2 ^ 16 % 2 ^ 4) flags (Nat.mod_lt _ (by decide)) nibble
    simp only [segmentAt, store_byte, and_ff, and_f, Nat.shiftRight_eq_div_pow]
    simp only [Nat.add_left_cancel_iff, Nat.add_eq_left, Nat.reduceEqDiff, if_true, if_false, Nat.left_eq_add,
      BitVec.toNat_ofNat, Segment.mk.injEq]
    rw [shared]
    refine ⟨?_, ?_, Nat.mod_eq_of_lt byte, ?_⟩ <;> omega
  · simp only [store_byte]
    repeat rw [if_neg (by omega)]

/-- A descriptor of the system has a base of 64 bits. -/
theorem encodeTssGdtEntry_spec (m : Bytes) (target : Nat) (fits : base < 2 ^ 64)
    (byte : access < 2 ^ 8) (nibble : flags < 2 ^ 4) (le : limit ≤ 0xFFFFF) :
    ∃ m', encodeTssGdtEntry m target base limit access flags = .ok m' ∧
      systemAt m' target = { base, limit, access, flags } ∧
      ∀ b, b < target ∨ target + 16 ≤ b → m' b = m b := by
  obtain ⟨m₁, encoded, segment, outside⟩ :=
    (encodeGdtEntry_spec m target limit (show 0 < 2 ^ 32 by decide) byte nibble).2 le
  refine ⟨_, by rw [encodeTssGdtEntry, encoded]; rfl, ?_, fun b out => ?_⟩
  · simp only [segmentAt, Segment.mk.injEq] at segment
    obtain ⟨_, limits, accesses, flagses⟩ := segment
    simp only [systemAt, segmentAt, load, store_byte, and_ff, Nat.shiftRight_eq_div_pow]
    simp only [Nat.add_left_cancel_iff, Nat.reduceEqDiff, if_true, if_false, Nat.left_eq_add,
      BitVec.toNat_ofNat, Segment.mk.injEq, Nat.add_assoc, Nat.reduceAdd]
    refine ⟨?_, (Nat.add_assoc _ _ _).symm.trans limits, accesses, flagses⟩
    omega
  · simp only [store_byte]
    repeat rw [if_neg (by omega)]
    exact outside b (by omega)

/-- The segments that `gdt_init` encodes, with the access byte of the task state. -/
structure Segments (m : Bytes) (gdt tss access : Nat) : Prop where
  null : (select m gdt 0).present = false
  kernelCode : select m gdt 0x08 = { base := 0, limit := 0xFFFFF, access := 0x9A, flags := 0xA }
  kernelData : select m gdt 0x10 = { base := 0, limit := 0xFFFFF, access := 0x92, flags := 0xC }
  userData : select m gdt 0x18 = { base := 0, limit := 0xFFFFF, access := 0xF2, flags := 0xC }
  userCode : select m gdt 0x20 = { base := 0, limit := 0xFFFFF, access := 0xFA, flags := 0xA }
  task : systemAt m (gdt + 0x28) = { base := tss, limit := sizeofTss, access, flags := 0 }

/-- They are a matter of the table's bytes. -/
theorem Segments.congr (segments : Segments m gdt tss access)
    (same : ∀ b, gdt ≤ b → b < gdt + 56 → m' b = m b) : Segments m' gdt tss access := by
  have one : ∀ k, k + 8 ≤ 56 → segmentAt m' (gdt + k) = segmentAt m (gdt + k) := fun k le =>
    segmentAt_congr fun b low high => same b (by omega) (by omega)
  have wide : load m' (gdt + 0x28 + 8) 4 = load m (gdt + 0x28 + 8) 4 :=
    load_congr fun b low high => same b (by omega) (by omega)
  obtain ⟨null, kernelCode, kernelData, userData, userCode, task⟩ := segments
  refine ⟨?_, (one 8 (by decide)).trans kernelCode, (one 16 (by decide)).trans kernelData,
    (one 24 (by decide)).trans userData, (one 32 (by decide)).trans userCode, ?_⟩
  · rw [← null]
    exact congrArg Segment.present (one 0 (by decide))
  · rw [← task, systemAt, systemAt, one 0x28 (by decide), wide]

/-- **load_gdt.** Once the segments are encoded their selectors can be loaded, and the processor marks the
task state busy, by one byte. -/
theorem loadGdt_spec (segments : Segments m gdt tss 0x89) : ∃ m', loadGdt m gdt = .ok m' ∧
    Segments m' gdt tss 0x8B ∧ ∀ b, b ≠ gdt + 45 → m' b = m b := by
  obtain ⟨null, kernelCode, kernelData, userData, userCode, task⟩ := segments
  have system : (select m gdt 0x28).access = 0x89 := congrArg Segment.access task
  have code : (select m gdt flushCode).present && (select m gdt flushCode).code &&
      (select m gdt flushCode).level == 0 := by
    rw [show select m gdt flushCode = _ from kernelCode]
    decide
  have data : (select m gdt flushData).present && (select m gdt flushData).user &&
      !(select m gdt flushData).code && (select m gdt flushData).access.testBit 1 &&
      (select m gdt flushData).level == 0 := by
    rw [show select m gdt flushData = _ from kernelData]
    decide
  have free : (select m gdt flushTss).present ∧ (select m gdt flushTss).access % 2 ^ 5 = 9 := by
    rw [Segment.present, show (select m gdt flushTss).access = 0x89 from system]
    decide
  have loaded : loadGdt m gdt = .ok (store m (gdt + 40 + 5) 1 0x8B) := by
    have codes : X86.TableRegister.loadsCode m { limit := 7 * 8, base := gdt } flushCode = true := code
    have datas : X86.TableRegister.loadsData m { limit := 7 * 8, base := gdt } flushData = true := data
    have tasks : X86.TableRegister.loadTask m { limit := 7 * 8, base := gdt } flushTss =
        some (store m (gdt + 40 + 5) 1 ((select m gdt 0x28).access ||| 2)) := if_pos free
    rw [loadGdt, flushGdt, if_pos ⟨codes, datas⟩, tasks, system]
    rfl
  refine ⟨_, loaded, ?_, fun b other => ?_⟩
  · -- the byte lies in no other descriptor, and no other field of this one is in it
    have one : ∀ k, k + 8 ≤ 40 → segmentAt (store m (gdt + 40 + 5) 1 0x8B) (gdt + k) =
        segmentAt m (gdt + k) := fun k le => segmentAt_congr fun b low high => store_outside _ (by omega)
    refine ⟨?_, (one 8 (by decide)).trans kernelCode, (one 16 (by decide)).trans kernelData,
      (one 24 (by decide)).trans userData, (one 32 (by decide)).trans userCode, ?_⟩
    · rw [← null]
      exact congrArg Segment.present (one 0 (by decide))
    · simp only [systemAt, segmentAt, Segment.mk.injEq] at task ⊢
      rw [load_store_of_disjoint _ (by omega)]
      simp only [store_byte, Nat.add_assoc, Nat.add_left_cancel_iff, Nat.reduceAdd, Nat.reduceEqDiff,
        if_true, if_false] at task ⊢
      exact ⟨task.1, task.2.1, rfl, task.2.2.2⟩
  · exact store_outside _ (by omega)

/-- **gdt_init** encodes and loads its segments, and writes nothing but them and the task state. -/
theorem gdtInit_spec (m : Bytes) (low : tss < 2 ^ 64) (apart : tss + sizeofTss ≤ gdt ∨ gdt + 56 ≤ tss) :
    ∃ m', gdtInit m gdt tss = .ok m' ∧ Segments m' gdt tss 0x8B ∧
      ∀ b, b < gdt ∨ gdt + 56 ≤ b → b < tss ∨ tss + sizeofTss ≤ b → m' b = m b := by
  have entry : ∀ (m : Bytes) (k limit access flags : Nat), limit ≤ 0xFFFFF → access < 2 ^ 8 →
      flags < 2 ^ 4 → ∃ m', encodeGdtEntry m (gdt + k) 0 limit access flags = .ok m' ∧
        segmentAt m' (gdt + k) = { base := 0, limit, access, flags } ∧
        ∀ b, b < gdt + k ∨ gdt + k + 8 ≤ b → m' b = m b := fun m k limit access flags le byte nibble =>
    (encodeGdtEntry_spec m (gdt + k) limit (by decide) byte nibble).2 le
  obtain ⟨m₀, encoded₀, null, out₀⟩ := entry m 0 0 0 0 (by decide) (by decide) (by decide)
  obtain ⟨m₁, encoded₁, seg₁, out₁⟩ := entry m₀ 8 0xFFFFF 0x9A 0xA (by decide) (by decide) (by decide)
  obtain ⟨m₂, encoded₂, seg₂, out₂⟩ := entry m₁ 16 0xFFFFF 0x92 0xC (by decide) (by decide) (by decide)
  obtain ⟨m₃, encoded₃, seg₃, out₃⟩ := entry m₂ 24 0xFFFFF 0xF2 0xC (by decide) (by decide) (by decide)
  obtain ⟨m₄, encoded₄, seg₄, out₄⟩ := entry m₃ 32 0xFFFFF 0xFA 0xA (by decide) (by decide) (by decide)
  obtain ⟨m₅, encoded₅, seg₅, out₅⟩ := encodeTssGdtEntry_spec (memset m₄ tss 0 sizeofTss) (gdt + 40) low
    (show 0x89 < 2 ^ 8 by decide) (show 0 < 2 ^ 4 by decide) (show sizeofTss ≤ 0xFFFFF by decide)
  have zeroed : ∀ b, gdt ≤ b → b < gdt + 56 → memset m₄ tss 0 sizeofTss b = m₄ b := fun b from_ to_ => by
    rw [memset_apply, if_neg (by omega)]
  -- each descriptor is left alone by the ones after it
  have last : ∀ b, gdt ≤ b → b < gdt + 40 → m₅ b = m₄ b := fun b from_ to_ =>
    (out₅ b (by omega)).trans (zeroed b from_ (by omega))
  have segments : Segments m₅ gdt tss 0x89 := by
    refine ⟨?null, ?kernelCode, ?kernelData, ?userData, ?userCode, seg₅⟩
    case null =>
      have kept : segmentAt m₅ (gdt + 0) = segmentAt m₀ (gdt + 0) := segmentAt_congr fun b low high =>
        (last b (by omega) (by omega)).trans <| (out₄ b (by omega)).trans <|
          (out₃ b (by omega)).trans <| (out₂ b (by omega)).trans (out₁ b (by omega))
      exact congrArg Segment.present (kept.trans null)
    case kernelCode =>
      exact (segmentAt_congr fun b low high => (last b (by omega) (by omega)).trans <|
        (out₄ b (by omega)).trans <| (out₃ b (by omega)).trans (out₂ b (by omega))).trans seg₁
    case kernelData =>
      exact (segmentAt_congr fun b low high => (last b (by omega) (by omega)).trans <|
        (out₄ b (by omega)).trans (out₃ b (by omega))).trans seg₂
    case userData =>
      exact (segmentAt_congr fun b low high =>
        (last b (by omega) (by omega)).trans (out₄ b (by omega))).trans seg₃
    case userCode => exact (segmentAt_congr fun b low high => last b (by omega) (by omega)).trans seg₄
  obtain ⟨m₆, loaded, busy, out₆⟩ := loadGdt_spec segments
  refine ⟨m₆, ?_, busy, fun b outGdt outTss => ?_⟩
  · rw [gdtInit]
    simp only [Nat.add_zero] at encoded₀
    rw [encoded₀, ok_bind, encoded₁, ok_bind, encoded₂, ok_bind, encoded₃, ok_bind, encoded₄, ok_bind]
    dsimp only
    rw [encoded₅, ok_bind, loaded]
  · rw [out₆ b (by omega), out₅ b (by omega), memset_apply, if_neg (by omega), out₄ b (by omega), out₃ b (by omega),
      out₂ b (by omega), out₁ b (by omega), out₀ b (by omega)]

/-! ## Interrupts -/

theorem idtSetDescriptor_gate (m : Bytes) (idt vector : Nat) {isr attr : Nat} (fits : isr < 2 ^ 64)
    (byte : attr < 2 ^ 8) :
    gateAt (idtSetDescriptor m idt vector isr attr) idt vector =
      { offset := isr, selector := 0x08, ist := 0, attr := attr } := by
  have word (x : Nat) : x &&& 0xFFFF = x % 2 ^ 16 := Nat.and_two_pow_sub_one_eq_mod x 16
  have dword (x : Nat) : x &&& 0xFFFFFFFF = x % 2 ^ 32 := Nat.and_two_pow_sub_one_eq_mod x 32
  rw [gateAt, idtSetDescriptor]
  simp (disch := omega) only [load_store_self, load_store_of_disjoint, word, dword,
    Nat.shiftRight_eq_div_pow, Gate.mk.injEq]
  refine ⟨?_, by decide, by decide, Nat.mod_eq_of_lt byte⟩
  omega

theorem idtSetDescriptor_outside (m : Bytes) (idt vector isr attr : Nat) {b : Nat}
    (out : b < idt + 16 * vector ∨ idt + 16 * vector + 16 ≤ b) :
    idtSetDescriptor m idt vector isr attr b = m b := by
  simp only [idtSetDescriptor]
  repeat rw [store_outside _ (by omega)]

/-- The gates that are set, each by its own turn of the loop, with its entry of `vectors`. -/
theorem idtFill_spec (m : Bytes) (idt : Nat) {isrStubTable : Nat → Nat}
    (fits : ∀ v, isrStubTable v < 2 ^ 64) (n : Nat)
    (apart : idt + 16 * n ≤ vectors ∨ vectors + 4 * n ≤ idt) :
    (∀ v < n, gateAt (idtFill m idt vectors isrStubTable n) idt v =
      { offset := isrStubTable v, selector := 0x08, ist := 0, attr := 0x8E }) ∧
    (∀ v < n, load (idtFill m idt vectors isrStubTable n) (vectors + 4 * v) 4 = 1) ∧
    ∀ b, b < idt ∨ idt + 16 * n ≤ b → b < vectors ∨ vectors + 4 * n ≤ b →
      idtFill m idt vectors isrStubTable n b = m b := by
  induction n with
  | zero =>
    exact ⟨fun v lt => absurd lt (Nat.not_lt_zero v), fun v lt => absurd lt (Nat.not_lt_zero v),
      fun b _ _ => rfl⟩
  | succ n ih =>
    obtain ⟨gates, marked, outside⟩ := ih (by omega)
    -- the turn's two stores, one after the other
    have turn : ∀ b, b < vectors + 4 * n ∨ vectors + 4 * n + 4 ≤ b →
        idtFill m idt vectors isrStubTable (n + 1) b =
          idtSetDescriptor (idtFill m idt vectors isrStubTable n) idt n (isrStubTable n) 0x8E b :=
      fun b out => store_outside _ out
    refine ⟨fun v lt => ?_, fun v lt => ?_, fun b outIdt outVectors => ?_⟩
    · rw [gateAt_congr fun b low high => turn b (by omega)]
      rcases Nat.lt_succ_iff_lt_or_eq.mp lt with before | rfl
      · rw [← gates v before]
        exact gateAt_congr fun b _ high => idtSetDescriptor_outside _ _ _ _ _ (.inl (by omega))
      · exact idtSetDescriptor_gate _ _ _ (fits v) (by decide)
    · rcases Nat.lt_succ_iff_lt_or_eq.mp lt with before | rfl
      · refine Eq.trans (load_congr fun b low high => ?_) (marked v before)
        rw [turn b (by omega), idtSetDescriptor_outside _ _ _ _ _ (by omega)]
      · exact load_store (by decide)
    · rw [turn b (by omega), idtSetDescriptor_outside _ _ _ _ _ (by omega)]
      exact outside b (by omega) (by omega)

/-! ## All of them -/

/-- The tables are apart in memory, and the one of the gates is empty. -/
structure Linked (m : Bytes) (gdt tss idt vectors : Nat) (isrStubTable : Nat → Nat) : Prop where
  low : tss < 2 ^ 64
  stubs : ∀ v, isrStubTable v < 2 ^ 64
  tssGdt : tss + sizeofTss ≤ gdt ∨ gdt + 56 ≤ tss
  gdtIdt : gdt + 56 ≤ idt ∨ idt + 16 * idtMaxDescriptors ≤ gdt
  tssIdt : tss + sizeofTss ≤ idt ∨ idt + 16 * idtMaxDescriptors ≤ tss
  gdtVectors : gdt + 56 ≤ vectors ∨ vectors + 4 * idtMaxDescriptors ≤ gdt
  idtVectors : idt + 16 * idtMaxDescriptors ≤ vectors ∨ vectors + 4 * idtMaxDescriptors ≤ idt
  empty : ∀ b, idt ≤ b → b < idt + 16 * idtMaxDescriptors → m b = 0

/-- What the tables promise to the processor, which finds the gates by the register that was loaded. -/
structure Promised (m : Bytes) (gdt tss : Nat) (idtr : TableRegister) (isrStubTable : Nat → Nat) : Prop where
  /-- The kernel's code has 64 bits, and its level, however it is come to. -/
  kernelCode : ∀ s ∈ [flushCode, syscallCode, 0x08], s % 4 = 0 ∧ (select m gdt s).present ∧
    (select m gdt s).code ∧ (select m gdt s).long ∧ (select m gdt s).level = 0
  kernelStack : ∀ s ∈ [flushData, syscallStack], s % 4 = 0 ∧ (select m gdt s).present ∧
    (select m gdt s).user ∧ !(select m gdt s).code ∧ (select m gdt s).level = 0
  userCode : sysretCode % 4 = 3 ∧ (select m gdt sysretCode).present ∧ (select m gdt sysretCode).code ∧
    (select m gdt sysretCode).long ∧ (select m gdt sysretCode).level = 3
  userStack : ∀ s ∈ [sysretStack, sysretData], s % 4 = 3 ∧ (select m gdt s).present ∧
    (select m gdt s).user ∧ !(select m gdt s).code ∧ (select m gdt s).level = 3
  /-- The task state that `ltr` has loaded is marked busy. -/
  task : systemAt m (gdt + flushTss) = { base := tss, limit := sizeofTss, access := 0x8B, flags := 0 }
  /-- Every vector has its place in the table. -/
  whole : ∀ v < idtMaxDescriptors, 16 * v + 15 ≤ idtr.limit
  /-- A gate that is present leads to its stub, and masks interrupts; the others are not present. -/
  gates : ∀ v < idtMaxDescriptors, if v < 48 then
      gateAt m idtr.base v = { offset := isrStubTable v, selector := 0x08, ist := 0, attr := 0x8E }
    else (gateAt m idtr.base v).present = false

/-- The selectors name the segments that were encoded. -/
theorem Segments.promised {isrStubTable : Nat → Nat} {idtr : TableRegister}
    (segments : Segments m gdt tss 0x8B) (whole : ∀ v < idtMaxDescriptors, 16 * v + 15 ≤ idtr.limit)
    (gates : ∀ v < idtMaxDescriptors, if v < 48 then
      gateAt m idtr.base v = { offset := isrStubTable v, selector := 0x08, ist := 0, attr := 0x8E }
    else (gateAt m idtr.base v).present = false) : Promised m gdt tss idtr isrStubTable := by
  obtain ⟨_, kernelCode, kernelData, userData, userCode, task⟩ := segments
  have three : select m gdt sysretCode = select m gdt 0x20 := rfl
  have stack : select m gdt sysretStack = select m gdt 0x18 := rfl
  have data : select m gdt sysretData = select m gdt 0x18 := rfl
  refine ⟨fun s mem => ?_, fun s mem => ?_, ?_, fun s mem => ?_, task, whole, gates⟩
  · obtain rfl : s = 0x08 := by simpa [flushCode, syscallCode, starHigh] using mem
    rw [kernelCode]
    decide
  · obtain rfl : s = 0x10 := by simpa [flushData, syscallStack, starHigh] using mem
    rw [kernelData]
    decide
  · rw [three, userCode]
    decide
  · simp only [List.mem_cons, List.not_mem_nil, or_false] at mem
    rcases mem with rfl | rfl
    · rw [stack, userData]
      decide
    · rw [data, userData]
      decide

/-- After `gdt_init` and `idt_init`, wherever the linker put the tables, the selectors that the kernel
loads name the segments that they are meant for, and the gates of the vectors up to 47 are the only ones,
and lead to their stubs; those vectors are marked. No other static memory was written. -/
theorem tables_hold (m : Bytes) (gdt tss idt vectors : Nat) (isrStubTable : Nat → Nat)
    (linked : Linked m gdt tss idt vectors isrStubTable) :
    ∃ m₁ m₂ idtr, gdtInit m gdt tss = .ok m₁ ∧ idtInit m₁ idt vectors isrStubTable = (m₂, idtr) ∧
      Promised m₂ gdt tss idtr isrStubTable ∧ idtr.base = idt ∧
      (∀ v < 48, load m₂ (vectors + 4 * v) 4 = 1) ∧
      ∀ b, b < gdt ∨ gdt + 56 ≤ b → b < tss ∨ tss + sizeofTss ≤ b →
        b < idt ∨ idt + 16 * idtMaxDescriptors ≤ b →
        b < vectors ∨ vectors + 4 * idtMaxDescriptors ≤ b → m₂ b = m b := by
  obtain ⟨low, stubs, tssGdt, gdtIdt, tssIdt, gdtVectors, idtVectors, empty⟩ := linked
  unfold idtMaxDescriptors at *
  obtain ⟨m₁, ran, segments, outside⟩ := gdtInit_spec m low tssGdt
  have apart : idt + 16 * 48 ≤ vectors ∨ vectors + 4 * 48 ≤ idt := by omega
  obtain ⟨set_, marked, kept⟩ := idtFill_spec m₁ idt stubs 48 apart
  refine ⟨m₁, _, _, ran, rfl, Segments.promised (segments.congr fun b _ _ => kept b (by omega) (by omega))
    (fun v lt => ?_) fun v lt => ?_, rfl, marked, fun b outGdt outTss outIdt outVectors => ?_⟩
  · unfold idtMaxDescriptors at lt ⊢
    dsimp only
    omega
  · split
    · exact set_ v ‹_›
    · have zero : (idtFill m₁ idt vectors isrStubTable 48) (idt + 16 * v + 5) = 0 := by
        unfold idtMaxDescriptors at lt
        rw [kept _ (by omega) (by omega), outside _ (by omega) (by omega)]
        exact empty _ (by omega) (by omega)
      simp [Gate.present, gateAt, load, zero]
  · exact (kept b (by omega) (by omega)).trans (outside b outGdt outTss)

/-- The tables at some places of the kernel's image. -/
theorem tables_hold_linked : ∃ m₁ m₂ idtr, gdtInit (fun _ => 0) 0x1000 0x2000 = .ok m₁ ∧
    idtInit m₁ 0x3000 0x4000 (fun v => 0x8000 + 32 * v % 2 ^ 32) = (m₂, idtr) ∧
    Promised m₂ 0x1000 0x2000 idtr (fun v => 0x8000 + 32 * v % 2 ^ 32) := by
  obtain ⟨m₁, m₂, idtr, ran, set_, promised, _⟩ := tables_hold (fun _ => 0) 0x1000 0x2000 0x3000 0x4000
    (fun v => 0x8000 + 32 * v % 2 ^ 32)
    ⟨by decide, fun v => by omega, by decide, by decide, by decide, by decide, by decide, fun _ _ _ => rfl⟩
  exact ⟨m₁, m₂, idtr, ran, set_, promised⟩

end Blackcomb.Kernel
