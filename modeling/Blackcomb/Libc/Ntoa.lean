import Blackcomb.Libc.Printf

/-!
# Numbers

`_ntoa_long`, `_ntoa_format` and `_out_rev` of `printf.c`, and the specifiers of numbers on them. The
build has neither `PRINTF_SUPPORT_FLOAT` nor `PRINTF_SUPPORT_LONG_LONG`: `f` and its like are characters
without a meaning, and what has `ll` before it prints nothing and takes no argument.
-/

namespace Blackcomb.Libc

open X86

/-- `PRINTF_NTOA_BUFFER_SIZE` -/
def ntoaBufferSize : Nat := 32

/-- The character of a digit. -/
def digitChar (uppercase : Bool) (digit : Nat) : BitVec 8 :=
  if digit < 10 then byteOf '0' + digit
  else (if uppercase then byteOf 'A' else byteOf 'a') + digit - 10

/-- The digits that `_ntoa_long` puts into its buffer, the last one first. -/
def ntoaDigits (uppercase : Bool) (base : Nat) : Nat → Nat → List (BitVec 8)
  | 0, _ => []
  | room + 1, value =>
    digitChar uppercase (value % base) ::
      if value / base ≠ 0 then ntoaDigits uppercase base room (value / base) else []

/-- A character at the end of the buffer, where there is room. -/
def push (buf : List (BitVec 8)) (c : Char) : List (BitVec 8) :=
  if buf.length < ntoaBufferSize then buf ++ [byteOf c] else buf

/-- Pad leading zeros. -/
def padZeros (buf : List (BitVec 8)) (len : Nat) : List (BitVec 8) :=
  buf ++ List.replicate (min len ntoaBufferSize - buf.length) (byteOf '0')

/-- Handle hash. -/
def handleHash (buf : List (BitVec 8)) (base prec width : Nat) (flags : Flags) (uppercase : Bool) :
    List (BitVec 8) :=
  let len := buf.length
  let len :=
    if !flags.precision ∧ len ≠ 0 ∧ (len = prec ∨ len = width) then
      if len - 1 ≠ 0 ∧ base = 16 then len - 2 else len - 1
    else len
  let buf := buf.take len
  let buf :=
    if base = 16 then push buf (if uppercase then 'X' else 'x')
    else if base = 2 then push buf 'b'
    else buf
  push buf '0'

/-- `_out_rev`. -/
def outRev (buf : List (BitVec 8)) (width : Nat) (flags : Flags) : List (BitVec 8) :=
  let spaces := List.replicate (width - buf.length) (byteOf ' ')
  (if !flags.left && !flags.zeropad then spaces else []) ++ buf.reverse ++
    if flags.left then spaces else []

/-- `_ntoa_format`. -/
def ntoaFormat (buf : List (BitVec 8)) (negative : Bool) (base prec width : Nat) (flags : Flags)
    (uppercase : Bool) : List (BitVec 8) :=
  let width :=
    if !flags.left ∧ width ≠ 0 ∧ flags.zeropad ∧ (negative ∨ flags.plus ∨ flags.space) then width - 1
    else width
  let buf := if flags.left then buf else padZeros buf prec
  let buf := if !flags.left ∧ flags.zeropad then padZeros buf width else buf
  let buf := if flags.hash then handleHash buf base prec width flags uppercase else buf
  let buf :=
    if negative then push buf '-'
    else if flags.plus then push buf '+'
    else if flags.space then push buf ' '
    else buf
  outRev buf width flags

/-- `_ntoa_long`. -/
def ntoaLong (value : Nat) (negative : Bool) (base prec width : Nat) (flags : Flags)
    (uppercase : Bool) : List (BitVec 8) :=
  let flags := if value = 0 then { flags with hash := false } else flags
  let buf :=
    if !flags.precision ∨ value ≠ 0 then ntoaDigits uppercase base ntoaBufferSize value else []
  ntoaFormat buf negative base prec width flags uppercase

/-- `value > 0 ? value : 0 - value`, in the type of `value`, where the least of all has no negative. -/
def magnitude {w : Nat} (value : BitVec w) : Except Fault Nat :=
  if 0 < value.toInt then .ok value.toNat
  else if value = BitVec.intMin w then .error .undefined
  else .ok (0 - value).toNat

/-- The argument of `d` and `i`. -/
def signedArg (flags : Flags) (a : Word) : Int :=
  if flags.long then a.toInt
  else if flags.char then (a.setWidth 8).toInt
  else if flags.short then (a.setWidth 16).toInt
  else (a.setWidth 32).toInt

/-- Its magnitude, in the type that it is converted to. -/
def signedMagnitude (flags : Flags) (a : Word) : Except Fault Nat :=
  if flags.long then magnitude a
  else if flags.char then magnitude ((a.setWidth 8).signExtend 32)
  else if flags.short then magnitude ((a.setWidth 16).signExtend 32)
  else magnitude (a.setWidth 32)

/-- The argument of `u`, `x`, `X`, `o` and `b`. -/
def unsignedArg (flags : Flags) (a : Word) : Nat :=
  if flags.long then a.toNat
  else if flags.char then (a.setWidth 8).toNat
  else if flags.short then (a.setWidth 16).toNat
  else (a.setWidth 32).toNat

/-- The base of a specifier. -/
def baseOf : Char → Nat
  | 'x' | 'X' => 16
  | 'o' => 8
  | 'b' => 2
  | _ => 10

/-- The flags that a specifier leaves. -/
def specifierFlags (c : Char) (flags : Flags) : Flags :=
  let flags := if baseOf c = 10 then { flags with hash := false } else flags
  let flags := if c ≠ 'i' ∧ c ≠ 'd' then { flags with plus := false, space := false } else flags
  if flags.precision then { flags with zeropad := false } else flags

/-- The specifiers of numbers. -/
def number (c : Char) (d : Directive) (va : List Word) :
    Except Fault (List (BitVec 8) × List Word) :=
  match c with
  | 'd' | 'i' =>
    let flags := specifierFlags c d.flags
    if flags.longLong then pure ([], va)
    else do
      let (a, va) ← vaArg va
      let value ← signedMagnitude flags a
      pure (ntoaLong value (signedArg flags a < 0) (baseOf c) d.precision d.width flags false, va)
  | 'u' | 'x' | 'X' | 'o' | 'b' =>
    let flags := specifierFlags c d.flags
    if flags.longLong then pure ([], va)
    else do
      let (a, va) ← vaArg va
      pure (ntoaLong (unsignedArg flags a) false (baseOf c) d.precision d.width flags (c = 'X'), va)
  | 'p' => do
    let (a, va) ← vaArg va
    pure (ntoaLong a.toNat false 16 d.precision 16 { d.flags with zeropad := true } true, va)
  | c => pure ([byteOf c], va)

end Blackcomb.Libc
