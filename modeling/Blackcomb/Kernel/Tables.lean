import Blackcomb.Fault
import Blackcomb.Lib.X86Tables
import Blackcomb.Mm.Kmalloc

/-!
# The tables of the processor

`gdt.c` and `gdt_reload.asm`, and of `int.c` the table of interrupts, as the bytes that they write to
static memory and what they load into the processor. The addresses of the tables and of what they point to
are the linker's. The stack of the code that runs, with its local variables `gdtr` and `idtr`, is left out,
and so is `remap_pic`, which writes to ports only.
-/

namespace Blackcomb.Kernel

open Memory

/-! ## Segments -/

/-- `encode_gdt_entry`. -/
def encodeGdtEntry (m : Bytes) (target base limit accessByte flags : Nat) : Except Fault Bytes :=
  if limit > 0xFFFFF then .error (.panic "GDT cannot encode limits larger than 0xFFFFF")
  else
    -- limit
    let m := store m target 1 (limit &&& 0xFF)
    let m := store m (target + 1) 1 ((limit >>> 8) &&& 0xFF)
    let m := store m (target + 6) 1 ((limit >>> 16) &&& 0x0F)
    -- base
    let m := store m (target + 2) 1 (base &&& 0xFF)
    let m := store m (target + 3) 1 ((base >>> 8) &&& 0xFF)
    let m := store m (target + 4) 1 ((base >>> 16) &&& 0xFF)
    let m := store m (target + 7) 1 ((base >>> 24) &&& 0xFF)
    -- access byte
    let m := store m (target + 5) 1 accessByte
    -- flags
    .ok (store m (target + 6) 1 ((m (target + 6)).toNat ||| (flags <<< 4)))

/-- `encode_tss_gdt_entry`. -/
def encodeTssGdtEntry (m : Bytes) (target base limit accessByte flags : Nat) : Except Fault Bytes := do
  let m ← encodeGdtEntry m target 0 limit accessByte flags
  let m := store m (target + 2) 1 (base &&& 0xFF)
  let m := store m (target + 3) 1 ((base >>> 8) &&& 0xFF)
  let m := store m (target + 4) 1 ((base >>> 16) &&& 0xFF)
  let m := store m (target + 7) 1 ((base >>> 24) &&& 0xFF)
  let m := store m (target + 8) 1 ((base >>> 32) &&& 0xFF)
  let m := store m (target + 9) 1 ((base >>> 40) &&& 0xFF)
  let m := store m (target + 10) 1 ((base >>> 48) &&& 0xFF)
  let m := store m (target + 11) 1 ((base >>> 56) &&& 0xFF)
  let m := store m (target + 12) 1 0
  let m := store m (target + 13) 1 0
  let m := store m (target + 14) 1 0
  pure (store m (target + 15) 1 0)

/-- `sizeof(struct tss)`, which is packed. -/
def sizeofTss : Nat := 4 + 4 * 8 + 8 + 7 * 8 + 8 + 4 + 2

/-! ## Selectors -/

/-- The arguments of `flush_gdt`: the kernel's code and data, and the task state. -/
def flushCode : Nat := 0x8
def flushData : Nat := 0x10
def flushTss : Nat := 0x28

/-- `flush_gdt`: `iretq` into the new code and stack segments, the other segment registers, and `ltr`. -/
def flushGdt (m : Bytes) (gdtr : X86.TableRegister) (code data tss : Nat) : Except Fault Bytes :=
  if gdtr.loadsCode m code ∧ gdtr.loadsData m data then
    match gdtr.loadTask m tss with
    | some m => .ok m
    | none => .error .undefined
  else .error .undefined

/-- `load_gdt`. The length that it loads is that of the table, one more than the last offset in it. -/
def loadGdt (m : Bytes) (gdt : Nat) : Except Fault Bytes :=
  flushGdt m { limit := 7 * 8, base := gdt } flushCode flushData flushTss

/-- `gdt_init`. -/
def gdtInit (m : Bytes) (gdt tss : Nat) : Except Fault Bytes := do
  -- null descriptor
  let m ← encodeGdtEntry m gdt 0 0 0 0
  -- kernel CS
  let m ← encodeGdtEntry m (gdt + 8) 0 0xFFFFF 0x9A 0xA
  -- kernel DS
  let m ← encodeGdtEntry m (gdt + 16) 0 0xFFFFF 0x92 0xC
  -- user DS
  let m ← encodeGdtEntry m (gdt + 24) 0 0xFFFFF 0xF2 0xC
  -- user CS
  let m ← encodeGdtEntry m (gdt + 32) 0 0xFFFFF 0xFA 0xA
  -- TSS
  let m := Mm.memset m tss 0 sizeofTss
  let m ← encodeTssGdtEntry m (gdt + 40) tss sizeofTss 0x89 0
  loadGdt m gdt

/-- The upper half of `STAR`, as `syscall_enable` writes it. -/
def starHigh : Nat := 0x00100008

/-- The selectors that `syscall` loads. -/
def syscallCode : Nat := starHigh % 2 ^ 16
def syscallStack : Nat := starHigh % 2 ^ 16 + 8

/-- The selectors that `o64 sysret` loads, with the level of the user's code. -/
def sysretCode : Nat := (starHigh / 2 ^ 16 + 16) ||| 3
def sysretStack : Nat := (starHigh / 2 ^ 16 + 8) ||| 3

/-- The data segment that `pop_regs_and_sysret` loads. -/
def sysretData : Nat := 0x1b

/-! ## Interrupts -/

/-- `idt_set_descriptor`. -/
def idtSetDescriptor (m : Bytes) (idt vector isr attr : Nat) : Bytes :=
  let descriptor := idt + 16 * vector
  let m := store m descriptor 2 (isr &&& 0xFFFF)
  let m := store m (descriptor + 6) 2 ((isr >>> 16) &&& 0xFFFF)
  let m := store m (descriptor + 8) 4 ((isr >>> 32) &&& 0xFFFFFFFF)
  let m := store m (descriptor + 2) 2 0x08
  let m := store m (descriptor + 5) 1 attr
  let m := store m (descriptor + 4) 1 0
  store m (descriptor + 12) 4 0

/-- The loop of `idt_init`, over the first `n` vectors. An entry of `vectors` is an `int`. -/
def idtFill (m : Bytes) (idt vectors : Nat) (isrStubTable : Nat → Nat) : Nat → Bytes
  | 0 => m
  | n + 1 =>
    let m := idtSetDescriptor (idtFill m idt vectors isrStubTable n) idt n (isrStubTable n) 0x8E
    store m (vectors + 4 * n) 4 1

/-- `IDT_MAX_DESCRIPTORS` -/
def idtMaxDescriptors : Nat := 256

/-- `idt_init`: what is written, and what `lidt` loads. -/
def idtInit (m : Bytes) (idt vectors : Nat) (isrStubTable : Nat → Nat) : Bytes × X86.TableRegister :=
  (idtFill m idt vectors isrStubTable 48, { limit := 16 * idtMaxDescriptors - 1, base := idt })

end Blackcomb.Kernel
