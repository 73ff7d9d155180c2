import Blackcomb.Kernel.Sched

/-!
# The terminal and the descriptor table

`tty.c` and `open.c`: the keyboard buffer with its one blocked reader, and the two calls that fill
and empty a descriptor slot. `stdin_read` sleeps between checking the reader slot and copying the
buffer; the two halves are `stdinRead` and `stdinReadResume`.

`do_open` gets the inode and its mode from its caller. The index of the keyboard buffer is compared
as the source does, which `TtyBuffer` of the laws is about.
-/

namespace Blackcomb.Kernel

open State

/-- `enum ps2_key`. -/
inductive Ps2Key
  | reserved | esc | k1 | k2 | k3 | k4 | k5 | k6 | k7 | k8 | k9 | k0 | minus | equal | backspace
  | tab | q | w | e | r | t | y | u | i | o | p | leftbrace | rightbrace | enter | leftctrl
  | a | s | d | f | g | h | j | k | l | semicolon | apostrophe | grave | leftshift | backslash
  | z | x | c | v | b | n | m | comma | dot | slash | rightshift | kpasterisk | leftalt | space
  | capslock | f1 | f2 | f3 | f4 | f5 | f6 | f7 | f8 | f9 | f10 | numlock | scrolllock
  | kp7 | kp8 | kp9 | kpminus | kp4 | kp5 | kp6 | kpplus | kp1 | kp2 | kp3 | kp0 | kpdot | k102nd
  | f11 | f12 | ro | kpenter | rightctrl | kpslash | sysrq | rightalt | home | up | pageup
  | left | right | end_ | down | pagedown | insert | delete | pause | leftmeta | rightmeta | compose
  deriving DecidableEq, Repr

/-- `key_map`: the character of a key, zero for a key the table does not list. -/
def keyMap : Ps2Key → BitVec 8
  | .a => 'a'.toNat | .b => 'b'.toNat | .c => 'c'.toNat | .d => 'd'.toNat | .e => 'e'.toNat
  | .f => 'f'.toNat | .g => 'g'.toNat | .h => 'h'.toNat | .i => 'i'.toNat | .j => 'j'.toNat
  | .k => 'k'.toNat | .l => 'l'.toNat | .m => 'm'.toNat | .n => 'n'.toNat | .o => 'o'.toNat
  | .p => 'p'.toNat | .q => 'q'.toNat | .r => 'r'.toNat | .s => 's'.toNat | .t => 't'.toNat
  | .u => 'u'.toNat | .v => 'v'.toNat | .w => 'w'.toNat | .x => 'x'.toNat | .y => 'y'.toNat
  | .z => 'z'.toNat | .k1 => '1'.toNat | .k2 => '2'.toNat | .k3 => '3'.toNat | .k4 => '4'.toNat
  | .k5 => '5'.toNat | .k6 => '6'.toNat | .k7 => '7'.toNat | .k8 => '8'.toNat | .k9 => '9'.toNat
  | .space => ' '.toNat | .semicolon => ';'.toNat | .enter => '\n'.toNat | .slash => '/'.toNat
  | _ => 0

/-- `stdin_read` up to its sleep. -/
def stdinRead (s : State) : Except Fault State :=
  if s.tty.waitingTask ≠ none then
    .error (.panic "tty cannot manage >1 waiting task")
  else
    scheduleSleep { s with tty := { s.tty with waitingTask := some s.current } }

/-- `stdin_read` after its sleep: the bytes copied to the caller, and the emptied buffer. -/
def stdinReadResume (s : State) (n : Nat) : List (BitVec 8) × State :=
  let nbytes := if s.tty.bufi > n then n else s.tty.bufi
  ((List.range nbytes).map s.tty.buf, { s with tty := { s.tty with bufi := 0 } })

/-- `tty_send_key`. -/
def ttySendKey (s : State) (key : Ps2Key) : Except Fault State :=
  if s.tty.bufi > ttyBufSize then
    .error (.panic "tty buf exceeded")
  else do
    let buf := Function.update s.tty.buf s.tty.bufi (keyMap key)
    let s := { s with tty := { s.tty with buf := buf, bufi := s.tty.bufi + 1 } }
    if key = .enter then
      match s.tty.waitingTask with
      | some w => do
        let s ← schedRrInsertProc s w
        pure { s with tty := { s.tty with waitingTask := none } }
      | none => pure s
    else pure s

/-- The first empty descriptor slot. -/
def freeSlot (t : Task) : Option (Fin taskFileMax) :=
  (List.finRange taskFileMax).find? fun i => t.fdtab i = none

/-- `EXT2_S_IFREG` and `EXT2_S_IFDIR`. -/
def ext2SIfreg : Nat := 0x8000
def ext2SIfdir : Nat := 0x4000

/-- `do_open`, for a path that `ext2_namei` resolved to `ino`, an inode of mode `mode`. The slot
is filled before the mode is looked at. -/
def doOpen (s : State) (ino mode : Nat) : Except Fault State := do
  let f := s.nfiles
  let s := { s with nfiles := s.nfiles + 1, files := Function.update s.files f { ino := ino } }
  match freeSlot (s.tasks s.current) with
  | none => .error (.panic "out of file descriptors")
  | some i =>
    let s := s.modifyTask s.current fun x => { x with fdtab := Function.update x.fdtab i (some f) }
    if mode &&& ext2SIfreg ≠ 0 then
      pure (s.modifyFile f fun x => { x with ops := some .ext2FileOperations })
    else if mode &&& ext2SIfdir ≠ 0 then
      pure (s.modifyFile f fun x => { x with ops := some .ext2DirOperations })
    else .error (.panic "unsupported file mode %x")

/-- `do_close`. The table has sixteen slots and `fd` is not compared with that. -/
def doClose (s : State) (fd : Int) : Except Fault State :=
  if h : 0 ≤ fd ∧ fd.toNat < taskFileMax then
    match (s.tasks s.current).fdtab ⟨fd.toNat, h.2⟩ with
    | none => .error (.panic "bad fd")
    | some f =>
      let s := { s with freedFiles := f :: s.freedFiles }
      .ok (s.modifyTask s.current fun x =>
        { x with fdtab := Function.update x.fdtab ⟨fd.toNat, h.2⟩ none })
  else .error .undefined

end Blackcomb.Kernel
