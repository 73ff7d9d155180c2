import Blackcomb.Kernel.Entry
import Blackcomb.Kernel.System

/-!
# Interrupts

The C side of `int.c` and `ps2.c`, on the process system: what the handler of an interrupt does to the
tasks and to the keyboard's state, and which bytes it writes to the ports. The byte in the keyboard's
data port is on the label of the interrupt.

An interrupt comes in through its stub and `isr_common` (`Entry`), whose words `isr_main_entry`
finds on the stack. The setup of the controllers, `remap_pic` and `ps2_init`, is a fixed list of
bytes to ports and is left out.
-/

namespace Blackcomb.Kernel

open Memory X86

/-! ## The keyboard -/

/-- `sc_map`. At 0x92 it holds 255, which is no key. `key_map` has no character there, as it has none for
`KEY_RESERVED`. -/
def scMap : List Ps2Key := [
  .reserved, .f9, .reserved, .f5, .f3, .f1, .f2, .f12,
  .esc, .f10, .f8, .f6, .f4, .tab, .grave, .f2,
  .reserved, .leftalt, .leftshift, .reserved, .leftctrl, .q, .k1, .f3,
  .reserved, .leftalt, .z, .s, .a, .w, .k2, .f4,
  .reserved, .c, .x, .d, .e, .k4, .k3, .f5,
  .reserved, .space, .v, .f, .t, .r, .k5, .f6,
  .reserved, .n, .b, .h, .g, .y, .k6, .f7,
  .reserved, .rightalt, .m, .j, .u, .k7, .k8, .f8,
  .reserved, .comma, .k, .i, .o, .k0, .k9, .f9,
  .reserved, .dot, .slash, .l, .semicolon, .p, .minus, .f10,
  .reserved, .reserved, .apostrophe, .reserved, .leftbrace, .equal, .f11, .sysrq,
  .capslock, .rightshift, .enter, .rightbrace, .backslash, .backslash, .f12, .scrolllock,
  .down, .k102nd, .pause, .up, .delete, .end_, .backspace, .insert,
  .reserved, .kp1, .right, .kp4, .kp7, .pagedown, .home, .pageup,
  .kp0, .kpdot, .kp2, .kp5, .kp6, .kp8, .esc, .numlock,
  .f11, .kpplus, .kp3, .kpminus, .kpasterisk, .kp9, .scrolllock, .k102nd,
  .reserved, .reserved, .reserved, .reserved, .reserved, .reserved, .reserved, .reserved,
  .reserved, .reserved, .reserved, .reserved, .reserved, .reserved, .reserved, .reserved,
  .reserved, .rightalt, .reserved, .reserved, .rightctrl, .reserved, .reserved, .reserved,
  .reserved, .reserved, .reserved, .reserved, .reserved, .capslock, .reserved, .leftmeta,
  .reserved, .reserved, .reserved, .reserved, .reserved, .reserved, .reserved, .rightmeta,
  .reserved, .reserved, .reserved, .reserved, .reserved, .reserved, .reserved, .compose,
  .reserved, .reserved, .reserved, .reserved, .reserved, .reserved, .reserved, .reserved,
  .reserved, .reserved, .reserved, .reserved, .reserved, .reserved, .reserved, .reserved,
  .reserved, .reserved, .reserved, .reserved, .reserved, .reserved, .reserved, .reserved,
  .reserved, .reserved, .kpslash, .reserved, .reserved, .reserved, .reserved, .reserved,
  .reserved, .reserved, .reserved, .reserved, .reserved, .reserved, .reserved, .reserved,
  .reserved, .reserved, .kpenter, .reserved, .reserved, .reserved, .reserved, .reserved,
  .reserved, .reserved, .reserved, .reserved, .reserved, .reserved, .reserved, .reserved,
  .reserved, .end_, .reserved, .left, .home, .reserved, .reserved, .reserved,
  .insert, .delete, .down, .reserved, .right, .up, .reserved, .pause,
  .reserved, .reserved, .pagedown, .reserved, .sysrq, .pageup, .reserved, .reserved]

/-- The kernel, the state of `ps2.c`, and what was written to the ports. -/
structure Devices where
  kernel : State
  release : Bool
  /-- The calls of `outb`, the last one first. -/
  outb : List (Nat × BitVec 8)

/-- `ps2_key_in`, with the byte of the data port. -/
def ps2KeyIn (data : BitVec 8) (d : Devices) : Except Fault Devices :=
  if d.release then .ok { d with release := false }
  else if data = 0xf0 then .ok { d with release := true }
  else do
    let kernel ← ttySendKey d.kernel (scMap.getD data.toNat .reserved)
    pure { d with kernel := kernel }

/-! ## Handlers -/

/-- `PIC2_REMAP_BASE` -/
def pic2RemapBase : Nat := 40

/-- `PIC1_COMMAND` -/
def pic1Command : Nat := 0x20

/-- `PIC2_COMMAND` -/
def pic2Command : Nat := 0xA0

/-- `PIC_EOI` -/
def picEoi : BitVec 8 := 0x20

/-- `send_eoi`. -/
def sendEoi (irq : Nat) (d : Devices) : Devices :=
  let d := if irq ≥ pic2RemapBase then { d with outb := (pic2Command, picEoi) :: d.outb } else d
  { d with outb := (pic1Command, picEoi) :: d.outb }

/-- `isr_main_entry`, of `ctx->info`. The argument of `send_eoi` is a `uint8_t`. -/
def isrMainEntry (info : Word) (data : BitVec 8) (d : Devices) : Except Fault Devices :=
  let vec := (info >>> 32).toNat &&& 0xFFFF
  let d := sendEoi (vec % 2 ^ 8) d
  if vec = 0x6 then .error (.panic "Illegal instruction")
  else if vec = 0xD then .error (.panic "General protection fault")
  else if vec = 0xE then .error (.panic "Page fault")
  else if vec = 0x20 then do
    let kernel ← schedMaybePreempt d.kernel
    pure { d with kernel := kernel }
  else if vec = 0x21 then ps2KeyIn data d
  else .ok d

/-- `ctx->info`, of the `struct isr_ctx` that `rdi` points to. -/
def ctxInfo (c : Cpu) : Word := c.word (c.regs .rdi + 72)

/-- An interrupt as it arrives: its vector, the processor, what that takes from the tables and pushes,
and the byte in the keyboard's data port. -/
structure Arrival where
  vec : Nat
  cpu : Cpu
  entry : Word
  sp : Word
  code : Option Word
  data : BitVec 8

/-- The stack has room for `struct isr_ctx`, and an error code is pushed where the table expects it. -/
structure Arrival.Regular (a : Arrival) : Prop where
  table : a.vec < 48
  pushes : a.code.isSome = hasErrorCode a.vec
  room : 120 ≤ a.sp.toNat

/-- An interrupt, from its stub to the return of `isr_main_entry`. -/
def deliver (a : Arrival) (d : Devices) : Except Fault Devices :=
  isrMainEntry (ctxInfo (enterIsr a.vec a.entry a.sp a.code a.cpu)) a.data d

end Blackcomb.Kernel
