import Mathlib.Data.Nat.Digits.Lemmas
import Blackcomb.Libc.Ntoa

/-!
# What a number denotes

A reader of numbers, and what it makes of the text of a specifier. The buffer has room for 32 characters,
and is filled from the right: the digits, the zeros, the prefix, the sign. What no longer fits is left
out. And the prefix of `#` takes the place of the first digits where the field is full, which it holds to be
zeros. So the number is read back exactly when it has no more than 32 digits, its sign has a place, and the
digits that the prefix replaces are zeros (`number_reads_iff`).

**What it does not establish.** The conversions of characters, strings, pointers and floating-point
numbers are not numbers here. The reader is a way of saying what a text means, and no code of the
kernel.
-/

namespace Blackcomb.Libc

open X86

variable {base value n len prec width : Nat} {u : Bool} {flags : Flags} {buf : List (BitVec 8)}

/-! ## Reading -/

/-- The value of a digit, in a base of at most 16. -/
def digitValue (c : BitVec 8) : Option Nat :=
  if byteOf '0' ≤ c ∧ c ≤ byteOf '9' then some (c.toNat - '0'.toNat)
  else if byteOf 'a' ≤ c ∧ c ≤ byteOf 'f' then some (c.toNat - 'a'.toNat + 10)
  else if byteOf 'A' ≤ c ∧ c ≤ byteOf 'F' then some (c.toNat - 'A'.toNat + 10)
  else none

def digitOf (base : Nat) (c : BitVec 8) : Option Nat := (digitValue c).filter (· < base)

/-- Digits, the first one first. None at all are zero, as zero is printed with the precision 0. -/
def readDigits (base : Nat) (text : List (BitVec 8)) : Option Nat :=
  (text.mapM (digitOf base)).map fun digits => Nat.ofDigits base digits.reverse

/-- What `#` puts before the digits of a base. -/
def isPrefix (base : Nat) (z c : BitVec 8) : Bool :=
  z = byteOf '0' && (base = 16 && (c = byteOf 'x' || c = byteOf 'X') || base = 2 && c = byteOf 'b')

def readUnsigned (base : Nat) : List (BitVec 8) → Option Nat
  | z :: c :: rest => readDigits base (if isPrefix base z c then rest else z :: c :: rest)
  | text => readDigits base text

def skipSpaces (text : List (BitVec 8)) : List (BitVec 8) := text.dropWhile (· = byteOf ' ')

def readSigned (base : Nat) : List (BitVec 8) → Option Int
  | c :: rest =>
    if c = byteOf '-' then (readUnsigned base rest).map fun v : Nat => -(v : Int)
    else if c = byteOf '+' then (readUnsigned base rest).map Int.ofNat
    else (readUnsigned base (c :: rest)).map Int.ofNat
  | [] => some 0

/-- A number, its sign, and the spaces around it. -/
def readNumber (base : Nat) (text : List (BitVec 8)) : Option Int :=
  readSigned base (skipSpaces (skipSpaces text).reverse).reverse

/-! ## Digits -/

/-- The last digits of a number, the last one first. -/
def lowDigits (base value n : Nat) : List Nat := (List.range n).map fun i => value / base ^ i % base

/-- Their characters. -/
def lastDigits (u : Bool) (base value n : Nat) : List (BitVec 8) :=
  (lowDigits base value n).map (digitChar u)

/-- As many digits as were asked for, whatever the value. -/
theorem length_lastDigits : (lastDigits u base value n).length = n := by
  simp [lastDigits, lowDigits]

/-- One digit more is the last digit of the value followed by the digits of its quotient. -/
theorem lowDigits_succ (base value n : Nat) :
    lowDigits base value (n + 1) = value % base :: lowDigits base (value / base) n := by
  rw [lowDigits, List.range_succ_eq_map, List.map_cons, List.map_map]
  refine congrArg₂ (· :: ·) (by simp) (List.map_congr_left fun i _ => ?_)
  rw [Function.comp_apply, Nat.pow_succ', Nat.div_div_eq_div_mul]

/-- Every digit lies below the base. -/
theorem lowDigits_lt (pos : 0 < base) {d : Nat} (mem : d ∈ lowDigits base value n) : d < base := by
  obtain ⟨i, _, rfl⟩ := List.mem_map.mp mem
  exact Nat.mod_lt _ pos

/-- The last `n` digits have the value modulo the base's `n`-th power. -/
theorem ofDigits_lowDigits (base value n : Nat) :
    Nat.ofDigits base (lowDigits base value n) = value % base ^ n := by
  induction n generalizing value with
  | zero => simp [lowDigits, Nat.mod_one]
  | succ n ih => rw [lowDigits_succ, Nat.ofDigits_cons, ih, Nat.pow_succ', Nat.mod_mul]

/-- The reader gives back the value of the character the printer wrote, in both cases. -/
theorem digitValue_digitChar (u : Bool) : ∀ d < 16, digitValue (digitChar u d) = some d := by
  revert u
  decide

/-- Below the base, too, the reader takes each character for the digit it was written for. -/
theorem digitOf_digitChar {d : Nat} (lt : d < base) (le : base ≤ 16) :
    digitOf base (digitChar u d) = some d := by
  rw [digitOf, digitValue_digitChar u d (by omega), Option.filter_some, if_pos (by simpa using lt)]

/-- The digits that `_ntoa_long` finds. -/
def digitLength (base value : Nat) : Nat := max 1 (Nat.digits base value).length

/-- A value with a quotient has one digit more than its quotient. -/
theorem digitLength_div (big : 2 ≤ base) (more : value / base ≠ 0) :
    digitLength base value = digitLength base (value / base) + 1 := by
  have pos : 0 < value := Nat.pos_of_ne_zero fun zero => more (by rw [zero, Nat.zero_div])
  have next : 0 < (Nat.digits base (value / base)).length :=
    List.length_pos_of_ne_nil (Nat.digits_ne_nil_iff_ne_zero.mpr more)
  rw [digitLength, Nat.digits_def' big pos, List.length_cons, digitLength]
  omega

/-- A value below the base has one digit. -/
theorem digitLength_small (big : 2 ≤ base) (one : value / base = 0) : digitLength base value = 1 := by
  rcases Nat.eq_zero_or_pos value with zero | pos
  · rw [zero, digitLength, Nat.digits_zero]
    rfl
  · rw [digitLength, Nat.digits_def' big pos, one, Nat.digits_zero]
    rfl

/-- The digit loop leaves the value's digits, cut at the room that is left. -/
theorem ntoaDigits_eq (big : 2 ≤ base) (room value : Nat) :
    ntoaDigits u base room value = lastDigits u base value (min room (digitLength base value)) := by
  induction room generalizing value with
  | zero => rw [Nat.zero_min]; rfl
  | succ room ih =>
    rw [ntoaDigits]
    split
    · rename_i more
      rw [ih, digitLength_div big more, Nat.succ_min_succ, lastDigits, lastDigits, lowDigits_succ]
      rfl
    · rename_i one
      rw [digitLength_small big (not_not.mp one), show min (room + 1) 1 = 0 + 1 by omega,
        lastDigits, lowDigits_succ]
      rfl

/-- The digits of a value are enough to tell it from every other. -/
theorem lt_pow_digitLength (big : 2 ≤ base) : value < base ^ digitLength base value :=
  (Nat.lt_base_pow_length_digits big).trans_le (Nat.pow_le_pow_right (by omega) (Nat.le_max_right _ _))

/-- Zeros before a number that has no more digits are digits of it. -/
theorem padZeros_lastDigits (full : ntoaBufferSize ≤ n ∨ value < base ^ n) (pos : 0 < base) :
    padZeros (lastDigits u base value n) len =
      lastDigits u base value (max n (min len ntoaBufferSize)) := by
  rw [padZeros, length_lastDigits]
  rcases Nat.le_total (min len ntoaBufferSize) n with le | le
  · rw [Nat.sub_eq_zero_of_le le, max_eq_left le]
    simp
  · rw [max_eq_right le]
    obtain ⟨k, h⟩ := Nat.exists_eq_add_of_le le
    rw [h, Nat.add_sub_cancel_left, lastDigits, lastDigits, lowDigits, lowDigits, List.range_add,
      List.map_append, List.map_append, List.map_map, List.map_map, List.map_map]
    refine congrArg (_ ++ ·) (List.ext_getElem (by simp) fun i lt _ => ?_)
    have lt : i < k := by simpa using lt
    have small : value < base ^ n := full.resolve_left (by omega)
    have zero : value / base ^ (n + i) = 0 :=
      Nat.div_eq_of_lt (small.trans_le (Nat.pow_le_pow_right pos (by omega)))
    simp [zero, digitChar]

/-- A list of digits is read back digit by digit. -/
theorem mapM_digitOf (le : base ≤ 16) : ∀ {digits : List Nat}, (∀ d ∈ digits, d < base) →
    (digits.map (digitChar u)).mapM (digitOf base) = some digits
  | [], _ => rfl
  | d :: digits, below => by
    rw [List.map_cons, List.mapM_cons, digitOf_digitChar (below d List.mem_cons_self) le,
      mapM_digitOf le fun x mem => below x (List.mem_cons_of_mem d mem)]
    rfl

/-- The reader makes of the digits written what is left of the value modulo the power. -/
theorem readDigits_lastDigits (pos : 0 < base) (le : base ≤ 16) (u : Bool) (value n : Nat) :
    readDigits base (lastDigits u base value n).reverse = some (value % base ^ n) := by
  have below : ∀ d ∈ (lowDigits base value n).reverse, d < base := fun d mem =>
    lowDigits_lt pos (List.mem_reverse.mp mem)
  rw [readDigits, lastDigits, ← List.map_reverse, mapM_digitOf le below, Option.map_some,
    List.reverse_reverse, ofDigits_lowDigits]

/-- A zero before digits. -/
theorem readDigits_zero (pos : 0 < base) (text : List (BitVec 8)) :
    readDigits base (byteOf '0' :: text) = readDigits base text := by
  have zero : digitOf base (byteOf '0') = some 0 := by
    rw [digitOf, show digitValue (byteOf '0') = some 0 from rfl, Option.filter_some,
      if_pos (by simpa using pos)]
  rw [readDigits, readDigits, List.mapM_cons, zero]
  cases text.mapM (digitOf base) with
  | none => rfl
  | some digits =>
    show some (Nat.ofDigits base (0 :: digits).reverse) = some (Nat.ofDigits base digits.reverse)
    rw [List.reverse_cons, Nat.ofDigits_append_zero]

/-! ## The text -/

/-- The width that zeros fill. -/
def zeroWidth (negative : Bool) (width : Nat) (flags : Flags) : Nat :=
  if !flags.left ∧ width ≠ 0 ∧ flags.zeropad ∧ (negative ∨ flags.plus ∨ flags.space) then width - 1
  else width

/-- The digits that `_ntoa_long` finds, as far as there is room. -/
def foundDigits (base value : Nat) (flags : Flags) : Nat :=
  if !flags.precision ∨ value ≠ 0 then min ntoaBufferSize (digitLength base value) else 0

/-- The zeros with them. -/
def padCount (found : Nat) (negative : Bool) (prec width : Nat) (flags : Flags) : Nat :=
  if flags.left then found
  else max (max found (min prec ntoaBufferSize))
    (if flags.zeropad then min (zeroWidth negative width flags) ntoaBufferSize else 0)

/-- The digits that the prefix takes the place of. -/
def replaced (base len prec width : Nat) (flags : Flags) : Nat :=
  if !flags.precision ∧ len ≠ 0 ∧ (len = prec ∨ len = width) then
    if len - 1 ≠ 0 ∧ base = 16 then 2 else 1
  else 0

/-- The sign at the end of the buffer. -/
def pushSign (buf : List (BitVec 8)) (negative : Bool) (flags : Flags) : List (BitVec 8) :=
  if negative then push buf '-'
  else if flags.plus then push buf '+'
  else if flags.space then push buf ' '
  else buf

/-- The prefix at the end of the buffer. -/
def pushPrefix (buf : List (BitVec 8)) (base : Nat) (u : Bool) : List (BitVec 8) :=
  push (if base = 16 then push buf (if u then 'X' else 'x') else if base = 2 then push buf 'b' else buf) '0'

/-- The first digits in the buffer do not depend on how many follow. -/
theorem take_lastDigits (le : len ≤ n) :
    (lastDigits u base value n).take len = lastDigits u base value len := by
  rw [lastDigits, lastDigits, lowDigits, lowDigits, ← List.map_take, ← List.map_take, List.take_range,
    min_eq_left le]

/-- The `#` flag takes its place back from the digits before it pushes the base's prefix. -/
theorem handleHash_lastDigits :
    handleHash (lastDigits u base value n) base prec width flags u =
      pushPrefix (lastDigits u base value (n - replaced base n prec width flags)) base u := by
  have kept : (lastDigits u base value n).take
      (if !flags.precision ∧ n ≠ 0 ∧ (n = prec ∨ n = width) then
        if n - 1 ≠ 0 ∧ base = 16 then n - 2 else n - 1
      else n) = lastDigits u base value (n - replaced base n prec width flags) := by
    rw [replaced]
    split
    · split
      · exact take_lastDigits (Nat.sub_le n 2)
      · exact take_lastDigits (Nat.sub_le n 1)
    · exact take_lastDigits (Nat.le_refl n)
  rw [handleHash]
  simp only [length_lastDigits]
  rw [kept]
  rfl

/-- More digits keep a number complete, or the buffer full. -/
theorem full_max (pos : 0 < base) (full : ntoaBufferSize ≤ n ∨ value < base ^ n) (k : Nat) :
    ntoaBufferSize ≤ max n k ∨ value < base ^ max n k :=
  full.imp (fun le => le.trans (le_max_left n k)) fun lt =>
    lt.trans_le (Nat.pow_le_pow_right pos (le_max_left n k))

/-- What `_ntoa_format` writes for complete digits: zeros up to the padding, the base's prefix,
the sign, then `_out_rev` over all of it. -/
theorem ntoaFormat_eq (pos : 0 < base) (full : ntoaBufferSize ≤ n ∨ value < base ^ n)
    (negative u : Bool) (prec width : Nat) (flags : Flags) :
    ntoaFormat (lastDigits u base value n) negative base prec width flags u =
      let len := padCount n negative prec width flags
      let zeroed := zeroWidth negative width flags
      outRev (pushSign
        (if flags.hash then
          pushPrefix (lastDigits u base value (len - replaced base len prec zeroed flags)) base u
        else lastDigits u base value len) negative flags) zeroed flags := by
  have zeros : (if !flags.left ∧ flags.zeropad then
      padZeros (if flags.left then lastDigits u base value n else
        padZeros (lastDigits u base value n) prec) (zeroWidth negative width flags)
      else if flags.left then lastDigits u base value n else
        padZeros (lastDigits u base value n) prec) =
      lastDigits u base value (padCount n negative prec width flags) := by
    rw [padCount]
    cases flags.left with
    | true => rfl
    | false =>
      cases flags.zeropad with
      | true =>
        exact (congrArg (padZeros · _) (padZeros_lastDigits full pos)).trans
          (padZeros_lastDigits (full_max pos full _) pos)
      | false => exact (padZeros_lastDigits full pos).trans (by simp)
  rw [ntoaFormat]
  simp only
  rw [← zeroWidth, zeros, handleHash_lastDigits]
  rfl

/-- As many digits as there are, or as there is room for. -/
theorem foundDigits_full (big : 2 ≤ base) (value : Nat) (flags : Flags) :
    ntoaBufferSize ≤ foundDigits base value flags ∨ value < base ^ foundDigits base value flags := by
  rw [foundDigits]
  split
  · rcases Nat.le_total ntoaBufferSize (digitLength base value) with le | le
    · exact .inl (le_min (Nat.le_refl _) le)
    · rw [min_eq_right le]
      exact .inr (lt_pow_digitLength big)
  · rename_i zero
    exact .inr (by simp_all)

/-- What `_ntoa_long` prints. -/
theorem ntoaLong_eq (big : 2 ≤ base) (negative : Bool) :
    ntoaLong value negative base prec width flags u =
      let len := padCount (foundDigits base value flags) negative prec width flags
      let zeroed := zeroWidth negative width flags
      outRev (pushSign
        (if flags.hash ∧ value ≠ 0 then
          pushPrefix (lastDigits u base value (len - replaced base len prec zeroed flags)) base u
        else lastDigits u base value len) negative flags) zeroed flags := by
  have found : (if !flags.precision ∨ value ≠ 0 then ntoaDigits u base ntoaBufferSize value else []) =
      lastDigits u base value (foundDigits base value flags) := by
    rw [foundDigits]
    split
    · exact ntoaDigits_eq big _ _
    · rfl
  have full := foundDigits_full big value flags
  rcases eq_or_ne value 0 with zero | nonzero
  · have format := ntoaFormat_eq (by omega) full negative u prec width { flags with hash := false }
    rw [ntoaLong]
    simp only [zero, ne_eq, not_true_eq_false, and_false, if_true, if_false] at *
    rw [found]
    exact format
  · rw [ntoaLong, if_neg nonzero]
    simp only [nonzero, ne_eq, not_false_eq_true, and_true, if_true, or_true] at *
    rw [found]
    exact ntoaFormat_eq (by omega) full negative u prec width flags

/-! ## What is read of it -/

section Spaces

variable {text : List (BitVec 8)}

/-- Leading spaces are skipped. -/
theorem skipSpaces_replicate (k : Nat) (text : List (BitVec 8)) :
    skipSpaces (List.replicate k (byteOf ' ') ++ text) = skipSpaces text := by
  induction k with
  | zero => rfl
  | succ k ih => rw [List.replicate_succ, List.cons_append, skipSpaces, List.dropWhile_cons_of_pos (by simp),
      ← skipSpaces, ih]

/-- A text without spaces stops the skipping: the spaces behind it stay, and go only behind the
empty text. -/
theorem skipSpaces_eq (none : ∀ c ∈ text, c ≠ byteOf ' ') (k : Nat) :
    skipSpaces (text ++ List.replicate k (byteOf ' ')) =
      if text = [] then [] else text ++ List.replicate k (byteOf ' ') := by
  cases text with
  | nil =>
    have blank := skipSpaces_replicate k []
    rw [List.append_nil] at blank
    exact blank
  | cons c rest =>
    have first : c ≠ byteOf ' ' := none c List.mem_cons_self
    rw [List.cons_append, skipSpaces, List.dropWhile_cons_of_neg (by simpa using first)]
    rfl

/-- Spaces on either side do not matter to the reader. -/
theorem readNumber_padded (none : ∀ c ∈ text, c ≠ byteOf ' ') (j k : Nat) :
    readNumber base (List.replicate j (byteOf ' ') ++ text ++ List.replicate k (byteOf ' ')) =
      readSigned base text := by
  rw [readNumber, List.append_assoc, skipSpaces_replicate, skipSpaces_eq none]
  split
  · rename_i empty
    rw [empty]
    rfl
  · have none' : ∀ c ∈ text.reverse, c ≠ byteOf ' ' := fun c mem => none c (List.mem_reverse.mp mem)
    have back := skipSpaces_eq none' 0
    rw [List.replicate_zero, List.append_nil] at back
    rw [List.reverse_append, List.reverse_replicate, skipSpaces_replicate, back]
    rw [if_neg (by simpa), List.reverse_reverse]

end Spaces

/-- `_out_rev` writes the buffer backwards and spaces on its two sides, nothing else. -/
theorem outRev_padded (buf : List (BitVec 8)) (width : Nat) (flags : Flags) : ∃ j k,
    outRev buf width flags = List.replicate j (byteOf ' ') ++ buf.reverse ++ List.replicate k (byteOf ' ') := by
  rw [outRev]
  refine ⟨if !flags.left && !flags.zeropad then width - buf.length else 0,
    if flags.left then width - buf.length else 0, ?_⟩
  cases flags.left <;> cases flags.zeropad <;> rfl

/-- No digit is a space, a sign, or the letter of a prefix. -/
theorem digitChar_plain (u : Bool) : ∀ d < 16, digitChar u d ≠ byteOf ' ' ∧ digitChar u d ≠ byteOf '-' ∧
    digitChar u d ≠ byteOf '+' ∧ digitChar u d ≠ byteOf 'x' ∧ digitChar u d ≠ byteOf 'X' ∧
    (d < 2 → digitChar u d ≠ byteOf 'b') := by
  revert u
  decide

/-- Without a sign the number is the unsigned one. -/
theorem readSigned_plain {text : List (BitVec 8)}
    (plain : ∀ c ∈ text, c ≠ byteOf '-' ∧ c ≠ byteOf '+') :
    readSigned base text = (readUnsigned base text).map Int.ofNat := by
  cases text with
  | nil => rfl
  | cons c rest =>
    have first := plain c List.mem_cons_self
    rw [readSigned, if_neg first.1, if_neg first.2]

/-- A text of digits. -/
theorem mem_lastDigits (pos : 0 < base) {c : BitVec 8}
    (mem : c ∈ (lastDigits u base value n).reverse) : ∃ d < base, c = digitChar u d := by
  obtain ⟨d, inside, rfl⟩ := List.mem_map.mp (List.mem_reverse.mp mem)
  exact ⟨d, lowDigits_lt pos inside, rfl⟩

/-- The digits alone are read back as the value modulo the power. -/
theorem readUnsigned_lastDigits (pos : 0 < base) (le : base ≤ 16) :
    readUnsigned base (lastDigits u base value n).reverse = some (value % base ^ n) := by
  have whole := readDigits_lastDigits pos le u value n
  have known : ∀ c ∈ (lastDigits u base value n).reverse, ∃ d < base, c = digitChar u d := fun c mem =>
    mem_lastDigits pos mem
  revert whole known
  generalize (lastDigits u base value n).reverse = text
  intro whole known
  match text, whole, known with
  | [], whole, _ => exact whole
  | [_], whole, _ => exact whole
  | z :: c :: rest, whole, known =>
    obtain ⟨d, lt, rfl⟩ := known c (by simp)
    obtain ⟨_, _, _, x, bigX, b⟩ := digitChar_plain u d (by omega)
    have digit : isPrefix base z (digitChar u d) = false := by
      simp only [isPrefix, Bool.and_eq_false_iff, Bool.or_eq_false_iff, decide_eq_false_iff_not]
      refine .inr ⟨.inr ⟨x, bigX⟩, ?_⟩
      by_cases two : base = 2
      · exact .inr (b (two ▸ lt))
      · exact .inl two
    rw [readUnsigned, digit]
    exact whole

/-- A push with room left appends. -/
theorem push_fits {c : Char} (room : buf.length < ntoaBufferSize) : push buf c = buf ++ [byteOf c] :=
  if_pos room

/-- A push into the full buffer is lost, without an error. -/
theorem push_full {c : Char} (full : ntoaBufferSize ≤ buf.length) : push buf c = buf :=
  if_neg (Nat.not_lt.mpr full)

/-- A push adds its own character and no other. -/
theorem mem_push {buf : List (BitVec 8)} {c : Char} {b : BitVec 8} (mem : b ∈ push buf c) :
    b ∈ buf ∨ b = byteOf c := by
  rw [push] at mem
  split at mem
  · simpa using mem
  · exact .inl mem

/-- The letter of a prefix stands for nothing without its zero. -/
theorem readUnsigned_letter {x : Char} {text : List (BitVec 8)} (zero : byteOf x ≠ byteOf '0')
    (none : digitOf base (byteOf x) = .none) (more : text ≠ []) :
    readUnsigned base (byteOf x :: text) = .none := by
  obtain ⟨c, rest, rfl⟩ := List.exists_cons_of_ne_nil more
  have other : isPrefix base (byteOf x) c = false := by simp [isPrefix, zero]
  rw [readUnsigned, other, if_neg Bool.false_ne_true, readDigits, List.mapM_cons, none]
  rfl

/-- The prefix is read with its zero, and the digits behind it. -/
theorem readUnsigned_lettered {x : Char} (pos : 0 < base) (le : base ≤ 16) (room : n ≤ ntoaBufferSize)
    (known : isPrefix base (byteOf '0') (byteOf x) = true) (zero : byteOf x ≠ byteOf '0')
    (letter : digitOf base (byteOf x) = .none) :
    readUnsigned base (push (push (lastDigits u base value n) x) '0').reverse =
      if n = 31 then none else some (value % base ^ n) := by
  unfold ntoaBufferSize at room
  have len : (lastDigits u base value n).length = n := length_lastDigits
  have lettered : ((lastDigits u base value n) ++ [byteOf x]).length = n + 1 := by simp [len]
  rcases Nat.lt_or_eq_of_le room with fits | rfl
  · rw [push_fits (c := x) (by rw [len]; exact fits)]
    by_cases last : n = 31
    · rw [push_full (by rw [lettered, last]; decide), if_pos last, List.reverse_append]
      refine readUnsigned_letter zero letter fun empty => ?_
      rw [List.reverse_eq_nil_iff.mp empty, last] at len
      cases len
    · rw [push_fits (by rw [lettered, ntoaBufferSize]; omega), if_neg last, List.reverse_append,
        List.reverse_append]
      show readUnsigned base (byteOf '0' :: byteOf x :: _) = _
      rw [readUnsigned, known, if_pos rfl]
      exact readDigits_lastDigits pos le u value n
  · rw [push_full (c := x) (by rw [len]; decide), push_full (by rw [len]; decide), if_neg (by decide)]
    exact readUnsigned_lastDigits pos le

/-- A prefix is read back with its digits, except where the buffer had room for one half of it. -/
theorem readUnsigned_pushPrefix (pos : 0 < base) (le : base ≤ 16) (room : n ≤ ntoaBufferSize) :
    readUnsigned base (pushPrefix (lastDigits u base value n) base u).reverse =
      if (base = 16 ∨ base = 2) ∧ n = 31 then none else some (value % base ^ n) := by
  rw [pushPrefix]
  by_cases hex : base = 16
  · subst hex
    simp only [if_true, true_or, true_and]
    cases u with
    | true => exact readUnsigned_lettered pos le room rfl (by decide) rfl
    | false => exact readUnsigned_lettered pos le room rfl (by decide) rfl
  by_cases bin : base = 2
  · subst bin
    simp only [if_neg hex, if_true, or_true, true_and]
    exact readUnsigned_lettered pos le room rfl (by decide) rfl
  rw [if_neg hex, if_neg bin, if_neg (fun h => h.1.elim hex bin), push]
  split
  · rw [List.reverse_append]
    show readUnsigned base (byteOf '0' :: (lastDigits u base value n).reverse) = _
    have none : ∀ c, isPrefix base (byteOf '0') c = false := fun c => by simp [isPrefix, hex, bin]
    have whole := readDigits_lastDigits pos le u value n
    rw [← readDigits_zero pos] at whole
    generalize (lastDigits u base value n).reverse = text at whole ⊢
    cases text with
    | nil => exact whole
    | cons c rest =>
      rw [readUnsigned, none c]
      exact whole
  · exact readUnsigned_lastDigits pos le

/-- What neither spaces nor a sign are. -/
def Plain (buf : List (BitVec 8)) : Prop :=
  ∀ c ∈ buf, c ≠ byteOf ' ' ∧ c ≠ byteOf '-' ∧ c ≠ byteOf '+'

/-- Pushing anything but a space or a sign keeps a buffer plain. -/
theorem Plain.push {c : Char} (plain : Plain buf)
    (other : byteOf c ≠ byteOf ' ' ∧ byteOf c ≠ byteOf '-' ∧ byteOf c ≠ byteOf '+') :
    Plain (push buf c) := by
  intro b mem
  rcases mem_push mem with mem | rfl
  · exact plain b mem
  · exact other

theorem lastDigits_plain (pos : 0 < base) (le : base ≤ 16) : Plain (lastDigits u base value n) := by
  intro c mem
  obtain ⟨d, lt, rfl⟩ := mem_lastDigits pos (List.mem_reverse.mpr mem)
  obtain ⟨space, minus, plus, _⟩ := digitChar_plain u d (by omega)
  exact ⟨space, minus, plus⟩

theorem pushPrefix_plain (plain : Plain buf) : Plain (pushPrefix buf base u) := by
  refine Plain.push ?_ (by decide)
  split
  · cases u with
    | true => exact plain.push (by decide)
    | false => exact plain.push (by decide)
  · split
    · exact plain.push (by decide)
    · exact plain

/-- The sign of what is read. -/
theorem readNumber_signed (plain : Plain buf) (negative : Bool) :
    readNumber base (outRev (pushSign buf negative flags) width flags) =
      (readUnsigned base buf.reverse).map fun v : Nat =>
        if negative ∧ buf.length < ntoaBufferSize then -(v : Int) else (v : Int) := by
  obtain ⟨j, k, padded⟩ := outRev_padded (pushSign buf negative flags) width flags
  rw [padded]
  have plain' : ∀ c ∈ buf.reverse, c ≠ byteOf ' ' ∧ c ≠ byteOf '-' ∧ c ≠ byteOf '+' := fun c mem =>
    plain c (List.mem_reverse.mp mem)
  have spaceless : ∀ c ∈ buf.reverse, c ≠ byteOf ' ' := fun c mem => (plain' c mem).1
  have unsigned : readSigned base buf.reverse = (readUnsigned base buf.reverse).map Int.ofNat :=
    readSigned_plain fun c mem => (plain' c mem).2
  by_cases room : buf.length < ntoaBufferSize
  · simp only [pushSign, push, room, if_true, and_true]
    cases negative with
    | true =>
      simp only [if_true, List.reverse_append, List.reverse_singleton, List.singleton_append]
      rw [readNumber_padded (List.forall_mem_cons.mpr ⟨by decide, spaceless⟩), readSigned, if_pos rfl]
    | false =>
      simp only [Bool.false_eq_true, if_false]
      split
      · simp only [List.reverse_append, List.reverse_singleton, List.singleton_append]
        rw [readNumber_padded (List.forall_mem_cons.mpr ⟨by decide, spaceless⟩), readSigned,
          if_neg (by decide), if_pos rfl]
        rfl
      · split
        · have further : List.replicate j (byteOf ' ') ++ (buf ++ [byteOf ' ']).reverse =
              List.replicate (j + 1) (byteOf ' ') ++ buf.reverse := by
            rw [List.replicate_succ', List.append_assoc]
            simp
          rw [further, readNumber_padded spaceless, unsigned]
          rfl
        · rw [readNumber_padded spaceless, unsigned]
          rfl
  · have same : pushSign buf negative flags = buf := by
      simp [pushSign, push, room]
    simp only [same, room, and_false, if_false]
    rw [readNumber_padded spaceless, unsigned]
    rfl

/-- The digits that are left of a number, with the prefix before them. -/
def keptDigits (base value : Nat) (negative : Bool) (prec width : Nat) (flags : Flags) : Nat :=
  let len := padCount (foundDigits base value flags) negative prec width flags
  if flags.hash ∧ value ≠ 0 then len - replaced base len prec (zeroWidth negative width flags) flags
  else len

/-- The padded digits still fit the buffer. -/
theorem padCount_le (base value : Nat) (negative : Bool) (prec width : Nat) (flags : Flags) :
    padCount (foundDigits base value flags) negative prec width flags ≤ ntoaBufferSize := by
  have found : foundDigits base value flags ≤ ntoaBufferSize := by
    rw [foundDigits]
    split
    · exact min_le_left _ _
    · exact Nat.zero_le _
  rw [padCount]
  split
  · exact found
  · refine max_le (max_le found (min_le_right _ _)) ?_
    split
    · exact min_le_right _ _
    · exact Nat.zero_le _

/-- Padding keeps a number complete, or the buffer full. -/
theorem padCount_full (pos : 0 < base) (full : ntoaBufferSize ≤ n ∨ value < base ^ n) (negative : Bool)
    (prec width : Nat) (flags : Flags) : ntoaBufferSize ≤ padCount n negative prec width flags ∨
      value < base ^ padCount n negative prec width flags := by
  rw [padCount]
  split
  · exact full
  · exact full_max pos (full_max pos full _) _

/-- What is read of what `_ntoa_long` prints. -/
theorem readNumber_ntoaLong (big : 2 ≤ base) (le : base ≤ 16) (negative : Bool)
    (unsigned : flags.hash → negative = false) :
    readNumber base (ntoaLong value negative base prec width flags u) =
      let kept := keptDigits base value negative prec width flags
      if (flags.hash ∧ value ≠ 0) ∧ (base = 16 ∨ base = 2) ∧ kept = 31 then none
      else some (if negative ∧ kept < ntoaBufferSize then -((value % base ^ kept : Nat) : Int)
        else (value % base ^ kept : Nat)) := by
  have pos : 0 < base := by omega
  have room := padCount_le base value negative prec width flags
  rw [ntoaLong_eq big, keptDigits]
  simp only
  by_cases hash : flags.hash ∧ value ≠ 0
  · rw [if_pos hash, if_pos hash, readNumber_signed (pushPrefix_plain (lastDigits_plain pos le)),
      readUnsigned_pushPrefix pos le ((Nat.sub_le _ _).trans room), unsigned hash.1]
    simp only [hash, ne_eq, not_false_eq_true, and_self, true_and, Bool.false_eq_true, false_and, if_false]
    split <;> rfl
  · rw [if_neg hash, if_neg hash, readNumber_signed (lastDigits_plain pos le),
      readUnsigned_lastDigits pos le, length_lastDigits, if_neg fun h => hash h.1]
    rfl

/-! ## Arguments -/

/-- The least value of a type. -/
theorem eq_intMin_iff {w : Nat} (pos : 0 < w) (v : BitVec w) :
    v = BitVec.intMin w ↔ v.toInt = -2 ^ (w - 1) := by
  rw [← BitVec.toInt_inj, BitVec.toInt_intMin_of_pos pos]

/-- Every other value has a negative in its type. -/
theorem magnitude_eq {w : Nat} (pos : 0 < w) (v : BitVec w) (notLeast : v.toInt ≠ -2 ^ (w - 1)) :
    magnitude v = .ok v.toInt.natAbs := by
  have high := v.isLt
  have other : ¬ v = BitVec.intMin w := mt (eq_intMin_iff pos v).mp notLeast
  obtain ⟨k, rfl⟩ := Nat.exists_eq_add_of_lt pos
  have double : 2 ^ (0 + k + 1) = 2 * 2 ^ k := by rw [Nat.zero_add, Nat.pow_succ']
  rw [magnitude, if_neg other, show 0 - v = -v by simp, BitVec.toNat_neg, BitVec.toInt_eq_toNat_cond]
  rw [double] at high ⊢
  by_cases low : 2 * v.toNat < 2 * 2 ^ k
  · rw [if_pos low]
    split
    · exact congrArg Except.ok (Int.natAbs_natCast _).symm
    · rename_i zero
      rw [show v.toNat = 0 by omega, Nat.sub_zero, Nat.mod_self]
      rfl
  · rw [if_neg low, if_neg (by omega), Nat.mod_eq_of_lt (by omega)]
    exact congrArg Except.ok (by omega)

/-- The least value of a width has no negation there, which C leaves undefined. -/
theorem magnitude_least {w : Nat} (pos : 0 < w) (v : BitVec w) (least : v.toInt = -2 ^ (w - 1)) :
    magnitude v = .error .undefined := by
  have power : (0 : Int) < 2 ^ (w - 1) := by positivity
  rw [magnitude, if_neg (by omega), if_pos ((eq_intMin_iff pos v).mpr least)]

/-- The least `long`, or the least `int` where that is what is printed. -/
def leastSigned (flags : Flags) : Int := if flags.long then -2 ^ 63 else -2 ^ 31

/-- A `char` and a `short` are never the least `int`. -/
theorem signedArg_narrow {flags : Flags} {a : Word} (int : flags.long = false)
    (narrow : flags.char = true ∨ flags.short = true) : signedArg flags a ≠ leastSigned flags := by
  have byte := BitVec.le_toInt (a.setWidth 8)
  have half := BitVec.le_toInt (a.setWidth 16)
  rw [signedArg, leastSigned, int]
  simp only [Bool.false_eq_true, if_false]
  rcases narrow with char | short
  · rw [if_pos char]
    omega
  · rw [if_pos short]
    split <;> omega

/-- Every other argument has its absolute value. -/
theorem signedMagnitude_eq {flags : Flags} {a : Word} (notLeast : signedArg flags a ≠ leastSigned flags) :
    signedMagnitude flags a = .ok (signedArg flags a).natAbs := by
  have byte := BitVec.le_toInt (a.setWidth 8)
  have half := BitVec.le_toInt (a.setWidth 16)
  rw [signedArg, leastSigned] at notLeast
  rw [signedMagnitude, signedArg]
  by_cases long : flags.long
  · rw [if_pos long, if_pos long] at notLeast ⊢
    exact magnitude_eq (by decide) a notLeast
  · rw [if_neg long, if_neg long] at notLeast ⊢
    by_cases char : flags.char
    · rw [if_pos char, if_pos char]
      rw [magnitude_eq (by decide) _ (by rw [BitVec.toInt_signExtend_of_le (by decide)]; omega),
        BitVec.toInt_signExtend_of_le (by decide)]
    · rw [if_neg char] at notLeast
      rw [if_neg char, if_neg char]
      by_cases short : flags.short
      · rw [if_pos short, if_pos short]
        rw [magnitude_eq (by decide) _ (by rw [BitVec.toInt_signExtend_of_le (by decide)]; omega),
          BitVec.toInt_signExtend_of_le (by decide)]
      · rw [if_neg short] at notLeast
        rw [if_neg short, if_neg short]
        exact magnitude_eq (by decide) _ notLeast

/-- The least value of the argument's type is the one that `_vsnprintf` cannot negate. -/
theorem signedMagnitude_least {flags : Flags} {a : Word} (least : signedArg flags a = leastSigned flags) :
    signedMagnitude flags a = .error .undefined := by
  by_cases long : flags.long
  · rw [signedArg, leastSigned, if_pos long, if_pos long] at least
    rw [signedMagnitude, if_pos long]
    exact magnitude_least (by decide) a least
  · have int : flags.long = false := Bool.eq_false_of_not_eq_true long
    have char : ¬ flags.char = true := fun given => signedArg_narrow int (.inl given) least
    have short : ¬ flags.short = true := fun given => signedArg_narrow int (.inr given) least
    rw [signedArg, leastSigned, if_neg long, if_neg long, if_neg char, if_neg short] at least
    rw [signedMagnitude, if_neg long, if_neg char, if_neg short]
    exact magnitude_least (by decide) _ least

/-- The number that a specifier is given. -/
def argOf (c : Char) (flags : Flags) (a : Word) : Int :=
  if c = 'd' ∨ c = 'i' then signedArg flags a else unsignedArg flags a

/-- A signed number whose negative is not of its type. -/
def Unnegatable (c : Char) (flags : Flags) (a : Word) : Prop :=
  (c = 'd' ∨ c = 'i') ∧ argOf c flags a = leastSigned flags

/-- The digits that are left of it. -/
def digitsLeft (c : Char) (d : Directive) (a : Word) : Nat :=
  keptDigits (baseOf c) (argOf c d.flags a).natAbs (argOf c d.flags a < 0) d.precision d.width
    (specifierFlags c d.flags)

/-- The number can be read back. -/
structure Readable (c : Char) (d : Directive) (a : Word) : Prop where
  digits : (argOf c d.flags a).natAbs < baseOf c ^ digitsLeft c d a
  sign : argOf c d.flags a < 0 → digitsLeft c d a < ntoaBufferSize
  /-- The letter of a prefix has its zero. -/
  letter : d.flags.hash → argOf c d.flags a ≠ 0 → baseOf c = 16 ∨ baseOf c = 2 →
    digitsLeft c d a ≠ 31

/-- The flags that a specifier leaves have the length that was given. -/
theorem specifierFlags_length (c : Char) (flags : Flags) (a : Word) :
    (specifierFlags c flags).longLong = flags.longLong ∧
      signedArg (specifierFlags c flags) a = signedArg flags a ∧
      signedMagnitude (specifierFlags c flags) a = signedMagnitude flags a ∧
      unsignedArg (specifierFlags c flags) a = unsignedArg flags a := by
  rw [specifierFlags]
  refine ⟨?_, ?_, ?_, ?_⟩ <;> (repeat' split) <;> rfl

/-- What `number` prints for an integer. -/
theorem number_eq {c : Char} {d : Directive} {a : Word} {va : List Word}
    (integer : c ∈ ['d', 'i', 'u', 'x', 'X', 'o', 'b']) (short : d.flags.longLong = false)
    (negates : ¬ Unnegatable c d.flags a) :
    number c d (a :: va) = .ok (ntoaLong (argOf c d.flags a).natAbs (argOf c d.flags a < 0) (baseOf c)
      d.precision d.width (specifierFlags c d.flags) (c = 'X'), va) := by
  obtain ⟨ll, signed, magnitude, unsigned⟩ := specifierFlags_length c d.flags a
  rw [short] at ll
  have value : c = 'd' ∨ c = 'i' →
      signedMagnitude (specifierFlags c d.flags) a = .ok (signedArg d.flags a).natAbs := by
    intro given
    rw [magnitude]
    exact signedMagnitude_eq fun least => negates ⟨given, (if_pos given).trans least⟩
  have natural : decide ((unsignedArg d.flags a : Int) < 0) = false := decide_eq_false (by omega)
  simp only [List.mem_cons, List.not_mem_nil, or_false] at integer
  rcases integer with rfl | rfl | rfl | rfl | rfl | rfl | rfl <;>
    simp [number, ll, signed, unsigned, natural, argOf, vaArg, value]

/-- The negation that overflows. -/
theorem number_undefined {c : Char} {d : Directive} {a : Word} {va : List Word}
    (short : d.flags.longLong = false) (least : Unnegatable c d.flags a) :
    number c d (a :: va) = .error .undefined := by
  obtain ⟨given, least⟩ := least
  obtain ⟨ll, _, magnitude, _⟩ := specifierFlags_length c d.flags a
  rw [short] at ll
  rw [argOf, if_pos given] at least
  have value := magnitude.trans (signedMagnitude_least least)
  rcases given with rfl | rfl <;> simp [number, ll, vaArg, value]

/-- The bases of the directives are between 2 and 16. -/
theorem baseOf_bounds (c : Char) : 2 ≤ baseOf c ∧ baseOf c ≤ 16 := by
  rw [baseOf.eq_def]
  split <;> decide

/-- No signed number has a prefix. -/
theorem specifierFlags_hash (c : Char) (flags : Flags) :
    (specifierFlags c flags).hash = (flags.hash && decide (baseOf c ≠ 10)) := by
  rw [specifierFlags]
  by_cases ten : baseOf c = 10
  · simp only [ten, if_true]
    split <;> split <;> simp
  · simp only [ten, if_false]
    split <;> split <;> simp [ten]

/-- An argument fits 64 bits. -/
theorem argOf_lt (c : Char) (flags : Flags) (a : Word) : (argOf c flags a).natAbs < 2 ^ 64 := by
  have word := a.isLt
  have byte := (a.setWidth 8).isLt
  have short := (a.setWidth 16).isLt
  have int := (a.setWidth 32).isLt
  rw [argOf]
  split
  · rw [signedArg, BitVec.toInt_eq_toNat_cond, BitVec.toInt_eq_toNat_cond, BitVec.toInt_eq_toNat_cond,
      BitVec.toInt_eq_toNat_cond]
    repeat' split
    all_goals omega
  · rw [Int.natAbs_natCast, unsignedArg]
    repeat' split
    all_goals omega

/-- Without `l` the argument of an unsigned directive fits 32 bits. -/
theorem argOf_lt_int {flags : Flags} (short : flags.long = false) (a : Word) :
    (argOf 'b' flags a).natAbs < 2 ^ 32 := by
  have byte := (a.setWidth 8).isLt
  have half := (a.setWidth 16).isLt
  have int := (a.setWidth 32).isLt
  rw [argOf, if_neg (by decide), Int.natAbs_natCast, unsignedArg, short, if_neg Bool.false_ne_true]
  repeat' split
  all_goals omega

/-- A number has room for its digits without a prefix, where a binary one is an `int`. -/
theorem Readable.of_fits {c : Char} {d : Directive} {a : Word} (plain : d.flags.hash = false)
    (precise : d.precision < ntoaBufferSize) (narrow : d.width < ntoaBufferSize)
    (int : c = 'b' → d.flags.long = false) : Readable c d a := by
  obtain ⟨big, _⟩ := baseOf_bounds c
  have hash : (specifierFlags c d.flags).hash = false := by
    rw [specifierFlags_hash, plain, Bool.false_and]
  have left : digitsLeft c d a = padCount (foundDigits (baseOf c) (argOf c d.flags a).natAbs
      (specifierFlags c d.flags)) (argOf c d.flags a < 0) d.precision d.width
      (specifierFlags c d.flags) := by
    rw [digitsLeft, keptDigits, if_neg fun h => Bool.false_ne_true (hash.symm.trans h.1)]
  have room := padCount_le (baseOf c) (argOf c d.flags a).natAbs (argOf c d.flags a < 0) d.precision
    d.width (specifierFlags c d.flags)
  have fits : (argOf c d.flags a).natAbs < baseOf c ^ ntoaBufferSize := by
    by_cases binary : c = 'b'
    · subst binary
      exact argOf_lt_int (int rfl) a
    · have eight : 8 ≤ baseOf c := by
        rw [baseOf.eq_def]
        split <;> simp_all
      exact (argOf_lt c d.flags a).trans_le
        (le_trans (by decide) (Nat.pow_le_pow_left eight ntoaBufferSize))
  refine ⟨?_, fun negative => ?_, fun given => absurd (plain.symm.trans given) Bool.false_ne_true⟩
  · rw [left]
    rcases padCount_full (by omega) (foundDigits_full big (argOf c d.flags a).natAbs
      (specifierFlags c d.flags)) (argOf c d.flags a < 0) d.precision d.width
      (specifierFlags c d.flags) with whole | enough
    · rwa [Nat.le_antisymm room whole]
    · exact enough
  · have signed : c = 'd' ∨ c = 'i' := by
      by_contra other
      rw [argOf, if_neg other] at negative
      omega
    have ten : baseOf c = 10 := by rcases signed with rfl | rfl <;> rfl
    have digits : (Nat.digits 10 (argOf c d.flags a).natAbs).length ≤ 20 :=
      (Nat.digits_length_le_iff (by decide) _).mpr ((argOf_lt c d.flags a).trans (by decide))
    have found : foundDigits (baseOf c) (argOf c d.flags a).natAbs (specifierFlags c d.flags) ≤ 20 := by
      rw [foundDigits, ten]
      split
      · exact (min_le_right _ _).trans (max_le (by decide) digits)
      · decide
    have zeros : zeroWidth (argOf c d.flags a < 0) d.width (specifierFlags c d.flags) ≤ d.width := by
      rw [zeroWidth]
      split <;> omega
    rw [left, padCount]
    unfold ntoaBufferSize at *
    split
    · omega
    · split <;> omega

/-- A number is read back exactly when it has no more digits than there is room for, its sign has a place,
and the digits that the prefix replaces are zeros; but for a least one, whose negation overflows. -/
theorem number_reads_iff (c : Char) (d : Directive) (a : Word) (va : List Word)
    (integer : c ∈ ['d', 'i', 'u', 'x', 'X', 'o', 'b']) (short : d.flags.longLong = false) :
    (Unnegatable c d.flags a → number c d (a :: va) = .error .undefined) ∧
    (¬ Unnegatable c d.flags a → ∃ text, number c d (a :: va) = .ok (text, va) ∧
      (readNumber (baseOf c) text = some (argOf c d.flags a) ↔ Readable c d a) ∧
      (d.flags.hash = false → d.precision < ntoaBufferSize → d.width < ntoaBufferSize →
        (c = 'b' → d.flags.long = false) → Readable c d a)) := by
  refine ⟨number_undefined short, fun negates => ⟨_, number_eq integer short negates, ?_, .of_fits⟩⟩
  obtain ⟨big, le⟩ := baseOf_bounds c
  have hash := specifierFlags_hash c d.flags
  have unsigned : (specifierFlags c d.flags).hash → decide (argOf c d.flags a < 0) = false := by
    intro given
    rw [hash, Bool.and_eq_true, decide_eq_true_eq] at given
    have other : ¬ (c = 'd' ∨ c = 'i') := by
      rintro (rfl | rfl) <;> exact given.2 rfl
    rw [argOf, if_neg other]
    exact decide_eq_false (by omega)
  rw [readNumber_ntoaLong big le _ unsigned]
  have kept : keptDigits (baseOf c) (argOf c d.flags a).natAbs (argOf c d.flags a < 0) d.precision d.width
    (specifierFlags c d.flags) = digitsLeft c d a := rfl
  simp only [kept, decide_eq_true_eq]
  have room : 0 < baseOf c ^ digitsLeft c d a := Nat.pow_pos (by omega)
  have whole := Nat.mod_eq_iff_lt (m := (argOf c d.flags a).natAbs) (Nat.pos_iff_ne_zero.mp room)
  have lettered : ((specifierFlags c d.flags).hash ∧ (argOf c d.flags a).natAbs ≠ 0) ∧
      (baseOf c = 16 ∨ baseOf c = 2) ∧ digitsLeft c d a = 31 ↔
      d.flags.hash ∧ argOf c d.flags a ≠ 0 ∧ (baseOf c = 16 ∨ baseOf c = 2) ∧ digitsLeft c d a = 31 := by
    rw [hash, Int.natAbs_ne_zero, Bool.and_eq_true, decide_eq_true_eq]
    constructor
    · exact fun ⟨⟨⟨given, _⟩, nonzero⟩, rest⟩ => ⟨given, nonzero, rest⟩
    · exact fun ⟨given, nonzero, rest⟩ => ⟨⟨⟨given, by omega⟩, nonzero⟩, rest⟩
  constructor
  · intro read
    split at read
    · cases read
    · rename_i other
      rw [Option.some.injEq] at read
      have fits : argOf c d.flags a < 0 → digitsLeft c d a < ntoaBufferSize := by
        intro negative
        by_contra full
        rw [if_neg fun h => full h.2] at read
        exact absurd negative (read ▸ Int.not_lt.mpr (Int.natCast_nonneg _))
      refine ⟨whole.mp ?_, fits, fun given nonzero prefixed last =>
        other (lettered.mpr ⟨given, nonzero, prefixed, last⟩)⟩
      generalize (argOf c d.flags a).natAbs % baseOf c ^ digitsLeft c d a = r at read ⊢
      split at read <;> omega
  · intro readable
    rw [if_neg fun h => readable.letter (lettered.mp h).1 (lettered.mp h).2.1 (lettered.mp h).2.2.1
      (lettered.mp h).2.2.2, Nat.mod_eq_of_lt readable.digits]
    by_cases negative : argOf c d.flags a < 0
    · rw [if_pos ⟨negative, readable.sign negative⟩]
      exact congrArg some (by omega)
    · rw [if_neg fun h => negative h.1]
      exact congrArg some (by omega)

/-- `%#4x` of a number with four digits: the prefix takes the place of two. -/
theorem number_reads_iff_replaced : ∃ text,
    number 'x' { flags := { hash := true }, width := 4 } [0xabcd] = .ok (text, []) ∧
      readNumber 16 text ≠ some 0xabcd := by
  have unsigned : ¬ Unnegatable 'x' { hash := true } 0xabcd := fun least => absurd least.1 (by decide)
  obtain ⟨text, printed, reads, _⟩ :=
    (number_reads_iff 'x' { flags := { hash := true }, width := 4 } 0xabcd [] (by decide) rfl).2 unsigned
  refine ⟨text, printed, fun read => ?_⟩
  have digits := (reads.mp read).digits
  have left : digitsLeft 'x' { flags := { hash := true }, width := 4 } 0xabcd = 2 := by decide +kernel
  rw [left] at digits
  exact absurd digits (by decide)

end Blackcomb.Libc
