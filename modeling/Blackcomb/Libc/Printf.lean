import Blackcomb.Fault
import Blackcomb.Lib.Memory
import Blackcomb.Lib.X86

/-!
# `printf`

`_vsnprintf` of `printf.c` with the sink of `printf_`, and `stdout_write` of `tty.c` on it. The arguments are
the words that `va_arg` takes. What the specifiers of numbers send is a parameter.

Of a string argument the bytes that are read are written down, in order: a loop that tests `*p` first has
read the byte it ends at.
-/

namespace Blackcomb.Libc

open Memory X86

/-- The flags of a directive and its length. -/
structure Flags where
  zeropad : Bool := false
  left : Bool := false
  plus : Bool := false
  space : Bool := false
  hash : Bool := false
  precision : Bool := false
  short : Bool := false
  char : Bool := false
  long : Bool := false
  longLong : Bool := false

/-- A directive up to its specifier. -/
structure Directive where
  flags : Flags := {}
  width : Nat := 0
  precision : Nat := 0

/-- What is passed to `out`, and the addresses that are read of string arguments. -/
structure Sent where
  out : List (BitVec 8)
  reads : List Nat

/-- A character, as a byte. -/
def byteOf (c : Char) : BitVec 8 := c.toNat

/-- `_is_digit`. -/
def isDigit (c : Char) : Bool := '0' ≤ c && c ≤ '9'

/-- `_atoi`. -/
def atoi : Nat → List Char → Nat × List Char
  | i, c :: format =>
    if isDigit c then atoi ((i * 10 + (c.toNat - '0'.toNat)) % 2 ^ 32) format else (i, c :: format)
  | i, [] => (i, [])

/-- `va_arg`, as a word. -/
def vaArg : List Word → Except Fault (Word × List Word)
  | a :: va => .ok (a, va)
  | [] => .error .undefined

/-- `va_arg` of an `int`. -/
def vaInt (va : List Word) : Except Fault (Int × List Word) := do
  let (a, va) ← vaArg va
  pure ((a.setWidth 32).toInt, va)

/-- Evaluate flags. -/
def evalFlags : Flags → List Char → Flags × List Char
  | flags, '0' :: format => evalFlags { flags with zeropad := true } format
  | flags, '-' :: format => evalFlags { flags with left := true } format
  | flags, '+' :: format => evalFlags { flags with plus := true } format
  | flags, ' ' :: format => evalFlags { flags with space := true } format
  | flags, '#' :: format => evalFlags { flags with hash := true } format
  | flags, format => (flags, format)

/-- Evaluate width field. -/
def evalWidth (d : Directive) (format : List Char) (va : List Word) :
    Except Fault (Directive × List Char × List Word) :=
  match format with
  | '*' :: format => do
    let (w, va) ← vaInt va
    if w < 0 then
      pure ({ d with flags := { d.flags with left := true }, width := (-w).toNat }, format, va)
    else pure ({ d with width := w.toNat }, format, va)
  | _ => let (width, format) := atoi 0 format; pure ({ d with width }, format, va)

/-- Evaluate precision field. -/
def evalPrecision (d : Directive) (format : List Char) (va : List Word) :
    Except Fault (Directive × List Char × List Word) :=
  match format with
  | '.' :: format =>
    let d := { d with flags := { d.flags with precision := true } }
    match format with
    | '*' :: format => do
      let (prec, va) ← vaInt va
      pure ({ d with precision := if prec > 0 then prec.toNat else 0 }, format, va)
    | _ => let (precision, format) := atoi 0 format; pure ({ d with precision }, format, va)
  | _ => pure (d, format, va)

/-- Evaluate length field. -/
def evalLength (d : Directive) (format : List Char) : Directive × List Char :=
  match format with
  | 'l' :: 'l' :: format => ({ d with flags := { d.flags with long := true, longLong := true } }, format)
  | 'h' :: 'h' :: format => ({ d with flags := { d.flags with short := true, char := true } }, format)
  | 'h' :: format => ({ d with flags := { d.flags with short := true } }, format)
  | 'l' :: format | 't' :: format | 'j' :: format | 'z' :: format =>
    ({ d with flags := { d.flags with long := true } }, format)
  | _ => (d, format)

/-- `_strnlen_s`, before it is cut to an `unsigned int`. It reads one byte more than it counts. -/
def strnlenS (m : Bytes) : Nat → Nat → Nat
  | 0, _ => 0
  | maxsize + 1, str => if m str = 0 then 0 else strnlenS m maxsize (str + 1) + 1

/-- The string output of `case 's'`, with a precision or none. It reads one byte more than it sends. -/
def strOut (m : Bytes) (precise : Bool) : Nat → Nat → Except Fault (List (BitVec 8))
  | 0, p => if m p = 0 ∨ precise then .ok [] else .error .diverge
  | precision + 1, p =>
    if m p = 0 then .ok []
    else do
      let rest ← strOut m precise precision (p + 1)
      pure (m p :: rest)

/-- `case 's'`. -/
def sendString (m : Bytes) (d : Directive) (p : Nat) : Except Fault Sent := do
  let len := strnlenS m (if d.precision ≠ 0 then d.precision else 2 ^ 64 - 1) p
  let l := len % 2 ^ 32
  let l := if d.flags.precision then (if l < d.precision then l else d.precision) else l
  let padding := List.replicate (d.width - l) (byteOf ' ')
  let string ← strOut m d.flags.precision (if d.flags.precision then d.precision else 2 ^ 64) p
  pure
    { out := if d.flags.left then string ++ padding else padding ++ string
      reads := (List.range (len + 1)).map (p + ·) ++ (List.range (string.length + 1)).map (p + ·) }

/-- `case 'c'`. -/
def sendChar (d : Directive) (c : BitVec 8) : Sent :=
  let padding := List.replicate (d.width - 1) (byteOf ' ')
  { out := if d.flags.left then c :: padding else padding ++ [c], reads := [] }

/-- The specifiers of numbers. -/
def numbers : List Char :=
  ['d', 'i', 'u', 'x', 'X', 'o', 'b', 'f', 'F', 'e', 'E', 'g', 'G', 'p']

section

variable (number : Char → Directive → List Word → Except Fault (List (BitVec 8) × List Word)) (m : Bytes)

/-- Evaluate specifier. One that is missing is the end of the format, which is then left behind. -/
def evalSpecifier (d : Directive) (format : List Char) (va : List Word) :
    Except Fault (Sent × List Char × List Word) :=
  match format with
  | [] => .error .undefined
  | 's' :: format => do
    let (p, va) ← vaArg va
    let sent ← sendString m d p.toNat
    pure (sent, format, va)
  | 'c' :: format => do
    let (c, va) ← vaArg va
    pure (sendChar d (c.setWidth 8), format, va)
  | c :: format =>
    if c ∈ numbers then do
      let (out, va) ← number c d va
      pure ({ out, reads := [] }, format, va)
    else pure ({ out := [byteOf c], reads := [] }, format, va)

/-- `_vsnprintf` before its termination. A round takes one character of the format at least. -/
def vsnprintf : Nat → List Char → List Word → Except Fault Sent
  | _, [], _ => .ok { out := [], reads := [] }
  | 0, _ :: _, _ => .error .diverge
  | fuel + 1, c :: format, va =>
    if c ≠ '%' then do
      let rest ← vsnprintf fuel format va
      pure { rest with out := byteOf c :: rest.out }
    else do
      let (flags, format) := evalFlags {} format
      let (d, format, va) ← evalWidth { flags } format va
      let (d, format, va) ← evalPrecision d format va
      let (d, format) := evalLength d format
      let (sent, format, va) ← evalSpecifier number m d format va
      let rest ← vsnprintf fuel format va
      pure { out := sent.out ++ rest.out, reads := sent.reads ++ rest.reads }

/-- What `printf_` does: the calls of `_putchar`, the addresses that are read of string arguments, and the
value it returns. -/
structure Printed where
  putchar : List (BitVec 8)
  reads : List Nat
  value : Int
  deriving DecidableEq

/-- `_out_char` drops the NULs, the one of the termination too. -/
def outChar (out : List (BitVec 8)) : List (BitVec 8) := (out ++ [0]).filter (· ≠ 0)

/-- `printf_`. -/
def printf (format : List Char) (va : List Word) : Except Fault Printed := do
  let sent ← vsnprintf number m format.length format va
  pure
    { putchar := outChar sent.out
      reads := sent.reads
      value := (BitVec.ofNat 32 sent.out.length).toInt }

/-- `stdout_write`. -/
def stdoutWrite (buf n : Word) : Except Fault Printed := printf number m ['%', '.', '*', 's'] [n, buf]

end

end Blackcomb.Libc
