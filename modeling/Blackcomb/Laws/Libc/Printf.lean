import Blackcomb.Laws.Kernel.Descriptor

/-!
# What a write sends

`stdout_write` gives its count to `printf` as a precision. It is cut to an `int`, both loops over the string
end at a NUL, and both have read the byte they end at before they look at the precision. So what is sent are
the bytes before the first NUL, of as many as the `int` says, and the byte behind them has been read.

**What it does not establish.** The format is the one that `stdout_write` passes. Where the byte
behind the buffer lies, and whether reading it faults, is not asked.
-/

namespace Blackcomb.Libc

open Memory X86 Mm Kernel

variable {number : Char → Directive → List Word → Except Fault (List (BitVec 8) × List Word)} {m : Bytes}
  {buf n : Word} {max p i : Nat}

/-- The bytes of a string from `p` on, before its NUL, `max` of them at most. -/
def stringOf (m : Bytes) (max p : Nat) : List (BitVec 8) := (List.range (strnlenS m max p)).map fun i => m (p + i)

/-- The precision that a count becomes. -/
def precisionOf (n : Word) : Nat := (n.setWidth 32).toInt.toNat

/-- A write that is exact: it sends the bytes of the buffer in order, reads no other, and returns their
number. -/
structure WritesExactly (m : Bytes) (buf n : Word) (written : Except Fault Printed) : Prop where
  returned : ∃ done, written = .ok done ∧
    done.putchar = (List.range n.toNat).map (fun i => m (buf.toNat + i)) ∧
    (∀ a ∈ done.reads, buf.toNat ≤ a ∧ a < buf.toNat + n.toNat) ∧ done.value = n.toNat

/-! ## A string -/

theorem strnlenS_le (m : Bytes) (max p : Nat) : strnlenS m max p ≤ max := by
  induction max generalizing p with
  | zero => exact Nat.le_refl 0
  | succ max ih =>
    rw [strnlenS]
    split
    · exact Nat.zero_le _
    · exact Nat.succ_le_succ (ih (p + 1))

/-- No byte that is counted is NUL. -/
theorem strnlenS_nonzero (lt : i < strnlenS m max p) : m (p + i) ≠ 0 := by
  induction max generalizing p i with
  | zero => cases lt
  | succ max ih =>
    rw [strnlenS] at lt
    split at lt
    · cases lt
    · rename_i nonzero
      cases i with
      | zero => exact nonzero
      | succ i =>
        have later := ih (p := p + 1) (Nat.lt_of_succ_lt_succ lt)
        rwa [Nat.add_assoc, Nat.add_comm 1] at later

/-- The count is as large as it may be just when there is no NUL. -/
theorem strnlenS_eq_iff : strnlenS m max p = max ↔ ∀ i < max, m (p + i) ≠ 0 := by
  constructor
  · intro all i lt
    have inside : i < strnlenS m max p := by omega
    exact strnlenS_nonzero inside
  · intro nonzero
    induction max generalizing p with
    | zero => rfl
    | succ max ih =>
      have first : m p ≠ 0 := nonzero 0 (Nat.succ_pos max)
      rw [strnlenS, if_neg first, ih fun i lt => ?_]
      have later := nonzero (i + 1) (Nat.succ_lt_succ lt)
      rwa [Nat.add_assoc, Nat.add_comm 1]

theorem stringOf_succ (nonzero : m p ≠ 0) : stringOf m (max + 1) p = m p :: stringOf m max (p + 1) := by
  rw [stringOf, strnlenS, if_neg nonzero, List.range_succ_eq_map, List.map_cons, List.map_map]
  refine congrArg (m p :: ·) (List.map_congr_left fun i _ => ?_)
  rw [Function.comp_apply, Nat.succ_eq_add_one, Nat.add_assoc, Nat.add_comm 1]

/-- With a precision, the string is sent as far as it is counted. -/
theorem strOut_eq : strOut m true max p = .ok (stringOf m max p) := by
  induction max generalizing p with
  | zero => exact if_pos (.inr rfl)
  | succ max ih =>
    rw [strOut]
    split
    · rename_i zero
      rw [stringOf, strnlenS, if_pos zero]
      rfl
    · rename_i nonzero
      rw [ih, ok_bind, stringOf_succ nonzero]
      rfl

/-- A string has no NUL to drop. -/
theorem outChar_stringOf : outChar (stringOf m max p) = stringOf m max p := by
  rw [outChar, List.filter_append]
  have none : ([0] : List (BitVec 8)).filter (· ≠ 0) = [] := by decide
  rw [none, List.append_nil]
  refine List.filter_eq_self.mpr fun c mem => ?_
  obtain ⟨i, inside, rfl⟩ := List.mem_map.mp mem
  exact decide_eq_true (strnlenS_nonzero (List.mem_range.mp inside))

/-! ## The write -/

/-- The directive of `stdout_write`. -/
def writeDirective (n : Word) : Directive :=
  { flags := { precision := true }, precision := precisionOf n }

theorem precision_eq (n : Word) :
    (if (n.setWidth 32).toInt > 0 then (n.setWidth 32).toInt.toNat else 0) = precisionOf n := by
  unfold precisionOf
  split <;> omega

theorem precisionOf_eq (short : n.toNat < 2 ^ 31) : precisionOf n = n.toNat := by
  have whole : n.toNat % 2 ^ 32 = n.toNat := Nat.mod_eq_of_lt (by omega)
  rw [precisionOf, BitVec.toInt_eq_toNat_cond, BitVec.toNat_setWidth, whole, if_pos (by omega)]
  exact Int.toNat_natCast _

theorem precisionOf_lt (n : Word) : precisionOf n < 2 ^ 31 := by
  have bound : (n.setWidth 32).toInt < 2 ^ 31 := BitVec.toInt_lt
  unfold precisionOf
  omega

/-- The format of `stdout_write` is one directive. -/
theorem vsnprintf_write : vsnprintf number m 4 ['%', '.', '*', 's'] [n, buf] = (do
    let sent ← sendString m (writeDirective n) buf.toNat
    pure { out := sent.out ++ [], reads := sent.reads ++ [] }) := by
  have parsed : vsnprintf number m 4 ['%', '.', '*', 's'] [n, buf] = (do
      let done ← evalSpecifier number m (writeDirective n) ['s'] [buf]
      let rest ← vsnprintf number m 3 done.2.1 done.2.2
      pure { out := done.1.out ++ rest.out, reads := done.1.reads ++ rest.reads }) := by
    rw [writeDirective, ← precision_eq]
    rfl
  have specified : evalSpecifier number m (writeDirective n) ['s'] [buf] = (do
      let sent ← sendString m (writeDirective n) buf.toNat
      pure (sent, [], [])) := rfl
  rw [parsed, specified]
  cases sendString m (writeDirective n) buf.toNat <;> rfl

/-- How many bytes `_strnlen_s` counts. -/
def counted (m : Bytes) (buf n : Word) : Nat :=
  strnlenS m (if precisionOf n ≠ 0 then precisionOf n else 2 ^ 64 - 1) buf.toNat

/-- **A write.** It sends the bytes before the first NUL of as many as the count says as an `int`, returns
how many these are, and has read the byte behind them. -/
theorem stdoutWrite_eq : stdoutWrite number m buf n = .ok
    { putchar := stringOf m (precisionOf n) buf.toNat
      reads := (List.range (counted m buf n + 1)).map (buf.toNat + ·) ++
        (List.range (strnlenS m (precisionOf n) buf.toNat + 1)).map (buf.toNat + ·)
      value := strnlenS m (precisionOf n) buf.toNat } := by
  have length : (stringOf m (precisionOf n) buf.toNat).length = strnlenS m (precisionOf n) buf.toNat := by
    rw [stringOf, List.length_map, List.length_range]
  have small := precisionOf_lt n
  have most := strnlenS_le m (precisionOf n) buf.toNat
  have value : (BitVec.ofNat 32 (strnlenS m (precisionOf n) buf.toNat)).toInt =
      strnlenS m (precisionOf n) buf.toNat := by
    rw [BitVec.toInt_ofNat', Int.bmod_eq_of_le] <;> omega
  have sent : sendString m (writeDirective n) buf.toNat = .ok
      { out := stringOf m (precisionOf n) buf.toNat
        reads := (List.range (counted m buf n + 1)).map (buf.toNat + ·) ++
          (List.range (strnlenS m (precisionOf n) buf.toNat + 1)).map (buf.toNat + ·) } := by
    have string : strOut m true (precisionOf n) buf.toNat = .ok (stringOf m (precisionOf n) buf.toNat) :=
      strOut_eq
    simp only [sendString, writeDirective, if_true, string, ok_bind, length, Nat.zero_sub,
      List.replicate_zero, List.nil_append]
    rfl
  have format : ['%', '.', '*', 's'].length = 4 := rfl
  rw [stdoutWrite, printf, format, vsnprintf_write, sent]
  simp only [ok_bind, pure_eq_ok, List.append_nil, outChar_stringOf, length, value]

/-- Apart from what it reads, a write is right just when its count is an `int` and no byte of it is NUL. -/
theorem stdoutWrite_sends_iff {done : Printed} (written : stdoutWrite number m buf n = .ok done) :
    (done.putchar = (List.range n.toNat).map (fun i => m (buf.toNat + i)) ∧ done.value = n.toNat) ↔
      n.toNat < 2 ^ 31 ∧ ∀ i < n.toNat, m (buf.toNat + i) ≠ 0 := by
  rw [stdoutWrite_eq] at written
  cases written
  have most := strnlenS_le m (precisionOf n) buf.toNat
  constructor
  · rintro ⟨_, value⟩
    have all : strnlenS m (precisionOf n) buf.toNat = n.toNat := Int.ofNat.inj value
    have enough : n.toNat ≤ precisionOf n := by omega
    have short : n.toNat < 2 ^ 31 := Nat.lt_of_le_of_lt enough (precisionOf_lt n)
    rw [precisionOf_eq short] at all
    exact ⟨short, strnlenS_eq_iff.mp all⟩
  · rintro ⟨short, nonzero⟩
    have all := strnlenS_eq_iff.mpr nonzero
    simp only [precisionOf_eq short, stringOf, all]
    exact ⟨trivial, trivial⟩

/-- A write that reaches `stdout_write` is one. -/
theorem sysWriteOut_eq {stdoutWriteAt current f : Nat} {other : Nat → Nat → Except Fault Printed} {h : Heap}
    {rdi : Word} (reached : (fdSyscall .write h current rdi).result = .ok (.calls stdoutWriteAt f)) :
    sysWriteOut number stdoutWriteAt other h current rdi buf n = stdoutWrite number h.mem buf n := by
  rw [sysWriteOut, reached, ok_bind]
  exact if_pos rfl

/-- **No write is exact.** For every call of `write` that reaches `stdout_write`, whatever else is in memory,
every buffer and every count: it is not the case that exactly the bytes of the buffer are sent and read and
their number is returned. -/
theorem sysWriteOut_never
    (number : Char → Directive → List Word → Except Fault (List (BitVec 8) × List Word))
    (stdoutWriteAt : Nat) (other : Nat → Nat → Except Fault Printed) (h : Heap) (current f : Nat)
    (rdi buf n : Word)
    (reached : (fdSyscall .write h current rdi).result = .ok (.calls stdoutWriteAt f)) :
    ¬ WritesExactly h.mem buf n (sysWriteOut number stdoutWriteAt other h current rdi buf n) := by
  rintro ⟨done, written, sent, inside, _⟩
  rw [sysWriteOut_eq reached, stdoutWrite_eq] at written
  cases written
  have length := congrArg List.length sent
  simp only [stringOf, List.length_map, List.length_range] at length
  -- the loop that sends has read the byte behind the last one
  have behind := inside (buf.toNat + n.toNat) (List.mem_append_right _ (List.mem_map.mpr
    ⟨n.toNat, List.mem_range.mpr (by omega), rfl⟩))
  exact Nat.lt_irrefl _ behind.2

/-- A task whose descriptor `1` is the terminal, and a buffer with a NUL between two letters. -/
def stdoutHeap : Heap where
  mem := store (store (store (store (fun _ => 0) (fdtabAt 0x100000 1) 8 0x3000) 0x3000 8 0x4000)
    (0x4000 + FileOp.write.offset) 8 0x5000) 0x6000 3 0x690068
  heapBase := 0
  kernelBrk := 0

theorem stdoutHeap_reached :
    (fdSyscall .write stdoutHeap 0x100000 1).result = .ok (.calls 0x5000 0x3000) := by
  have file : load stdoutHeap.mem (fdtabAt 0x100000 1) 8 = 0x3000 := by decide
  have entry : opEntry stdoutHeap.mem .write 0x3000 = 0x5000 := by decide
  have called : (sysFileOp .write stdoutHeap 0x100000 1).result = _ :=
    sysFileOp_calls (by rw [file]; decide) (by rw [file, entry]; decide)
  rw [file, entry] at called
  exact called

/-- Nor is one of a single letter. -/
theorem sysWriteOut_never_letter : ¬ WritesExactly stdoutHeap.mem 0x6000 1
    (sysWriteOut (fun _ _ _ => .error .undefined) 0x5000 (fun _ _ => .error .undefined) stdoutHeap
      0x100000 1 0x6000 1) :=
  sysWriteOut_never _ 0x5000 _ stdoutHeap 0x100000 0x3000 1 0x6000 1 stdoutHeap_reached

/-- No specifier of a number, and no operation but `stdout_write`. -/
def onlyStdout (n : Word) : Except Fault Printed :=
  sysWriteOut (fun _ _ _ => .error .undefined) 0x5000 (fun _ _ => .error .undefined) stdoutHeap 0x100000 1
    0x6000 n

/-- One letter is sent, and the byte behind it read. Of three bytes with a NUL among them the letter before
it is sent, and nothing more. -/
theorem sysWriteOut_inexact :
    onlyStdout 1 = .ok { putchar := [104], reads := [0x6000, 0x6001, 0x6000, 0x6001], value := 1 } ∧
    onlyStdout 3 = .ok { putchar := [104], reads := [0x6000, 0x6001, 0x6000, 0x6001], value := 1 } ∧
    ¬ WritesExactly stdoutHeap.mem 0x6000 1 (onlyStdout 1) ∧
    ¬ WritesExactly stdoutHeap.mem 0x6000 3 (onlyStdout 3) := by
  have one : onlyStdout 1 =
      .ok { putchar := [104], reads := [0x6000, 0x6001, 0x6000, 0x6001], value := 1 } :=
    (sysWriteOut_eq stdoutHeap_reached).trans (by decide)
  have three : onlyStdout 3 =
      .ok { putchar := [104], reads := [0x6000, 0x6001, 0x6000, 0x6001], value := 1 } :=
    (sysWriteOut_eq stdoutHeap_reached).trans (by decide +kernel)
  refine ⟨one, three, ?_, ?_⟩
  · rintro ⟨done, written, _, inside, _⟩
    rw [one] at written
    cases written
    exact absurd (inside 0x6001 (by decide)).2 (by decide)
  · rintro ⟨done, written, _, _, value⟩
    rw [three] at written
    cases written
    exact absurd value (by decide)

end Blackcomb.Libc
