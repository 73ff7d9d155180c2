import Blackcomb.Mm.Kmalloc

/-!
# Strings

`strncmp` of `string.c`. A string is the list of the bytes that can be read from its pointer on, with its NUL
if it has one: a read behind the last of them has no meaning.

`strlcpy` and `strlen` stand where a directory is listed, and `memset` and `memcpy` with the heap.
The functions that the modelled code does not call are left out.
-/

namespace Blackcomb.Libc

open Mm

/-- What `strncmp` returns once its loop is left, at a byte of the first string. -/
def strncmpReturn (c : BitVec 8) (s2 : List (BitVec 8)) (n : Nat) : Except Fault Int :=
  if n = 0 then .ok 0
  else match s2 with
    | [] => .error .undefined
    | d :: _ => .ok ((c.toNat : Int) - d.toNat)

/-- `strncmp`. The count goes on below zero. -/
def strncmp : List (BitVec 8) → List (BitVec 8) → Nat → Except Fault Int
  | [], _, _ => .error .undefined
  | c :: s1, s2, n =>
    if c = 0 then strncmpReturn c s2 n
    else match s2 with
      | [] => .error .undefined
      | d :: s2 => if c = d then strncmp s1 s2 (sub64 n 1) else strncmpReturn c (d :: s2) n

end Blackcomb.Libc
