import Blackcomb.Fs.Ext2

/-!
# What a path lookup touches

`ext2_namei` again, by the bytes it reads and writes. The path is in memory here, a byte at every offset
from its start, and nothing is said of what stands behind its NUL. `NameiAt` is where the `while` has come
to in it; for each round there are the bytes of the path that are read, the bytes of `comp` that are
written, and the addresses that are read as a part of a record.
-/

namespace Blackcomb.Fs

open Memory Mm Drivers

/-! ## The path -/

/-- The path is a string, and its NUL is at `n`. -/
structure IsString (path : Bytes) (n : Nat) : Prop where
  nul : path n = 0
  letters : ∀ i < n, path i ≠ 0

/-- `comp_start[l]` is read for `l = i`: the bytes before it are neither `'/'` nor NUL. -/
def Scans (path : Bytes) (start i : Nat) : Prop :=
  ∀ j < i, path (start + j) ≠ slash ∧ path (start + j) ≠ 0

instance (path : Bytes) (start i : Nat) : Decidable (Scans path start i) :=
  inferInstanceAs (Decidable (∀ j < i, _))

/-- The component at `start` has `l` bytes. -/
def CompEnds (path : Bytes) (start l : Nat) : Prop :=
  Scans path start l ∧ (path (start + l) = slash ∨ path (start + l) = 0)

instance (path : Bytes) (start l : Nat) : Decidable (CompEnds path start l) :=
  inferInstanceAs (Decidable (_ ∧ _))

/-- `comp[i]` is written in the round at `start`: by `memcpy`, or as the NUL behind the component. -/
def WritesComp (path : Bytes) (start i : Nat) : Prop :=
  path start ≠ 0 ∧ ∃ l, CompEnds path start l ∧ i ≤ l

/-- `ext2_namei` before its `while`: `dirbuf`, `in` and the heap. -/
def nameiStart (h : Heap) (fs : Ext2Fs) : Except Fault (Nat × Nat × Heap) := do
  let (dirbuf, h) ← kmalloc h fs.blockSize
  let (inBuf, h) ← kcalloc h 1 sizeofIno
  pure (dirbuf, inBuf, { h with mem := memcpyFrom h.mem inBuf fs.rooti sizeofIno })

/-- The `while` of `ext2_namei` tests `*comp_start` at an offset of the path. A component that does not
fit in `comp` is written past its end, and nothing is said of what follows. -/
inductive NameiAt (disk : Bytes) (h₀ : Heap) (fs : Ext2Fs) (path : Bytes) (dirbuf inBuf : Nat) :
    Nat → Heap → Prop
  | start {h : Heap} : nameiStart h₀ fs = .ok (dirbuf, inBuf, h) →
      NameiAt disk h₀ fs path dirbuf inBuf 1 h
  | round {start l ino : Nat} {h h' : Heap} : NameiAt disk h₀ fs path dirbuf inBuf start h →
      path start ≠ 0 → CompEnds path start l → l ≤ 255 →
      nameiRound disk fs dirbuf inBuf ((List.range l).map fun i => path (start + i)) h = .ok (ino, h') →
      NameiAt disk h₀ fs path dirbuf inBuf
        (if path (start + l) = slash then start + l + 1 else start + l) h'

/-! ## The records -/

/-- The addresses of `s2` that `strncmp` reads. -/
def strncmpReads (m : Bytes) : List (BitVec 8) → Nat → Nat → List Nat
  | [], s2, n => if n = 0 then [] else [s2]
  | c :: s1, s2, n =>
    if c ≠ 0 ∧ c = m s2 then s2 :: strncmpReads m s1 (s2 + 1) (sub64 n 1)
    else if c ≠ 0 ∨ n ≠ 0 then [s2]
    else []

/-- The addresses that a round of the inner `while` reads as a part of the record at `de`: `de->inode`,
`de->name_len` and the bytes of `de->name` that are compared, and `de->rec_len`. -/
def direntReads (m : Bytes) (comp : List (BitVec 8)) (de : Nat) : List Nat :=
  let inode := (List.range 4).map (de + ·)
  let name := (de + 6) :: strncmpReads m comp (de + 8) (ext2DirentAt m de).nameLen
  let recLen := (List.range 2).map (de + 4 + ·)
  if (ext2DirentAt m de).inode = 0 then inode ++ recLen
  else if strncmp m comp (de + 8) (ext2DirentAt m de).nameLen = 0 then inode ++ name
  else inode ++ name ++ recLen

/-- The addresses that the inner `while` of `ext2_namei` reads as a part of a record. -/
def nameiLoopReads (m : Bytes) (dirbuf blockSize : Nat) (comp : List (BitVec 8)) : Nat → Nat → List Nat
  | 0, _ => []
  | fuel + 1, doff =>
    if doff < blockSize then
      let de := ext2DirentAt m (dirbuf + doff)
      direntReads m comp (dirbuf + doff) ++
        if de.inode ≠ 0 ∧ strncmp m comp (dirbuf + doff + 8) de.nameLen = 0 then []
        else nameiLoopReads m dirbuf blockSize comp fuel ((doff + de.recLen) % 2 ^ 32)
    else []

end Blackcomb.Fs
