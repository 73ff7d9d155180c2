import Blackcomb.Mm.Copy

/-!
# Executables

`exec.c` over `vmm.c`. The buffer that `ext2_read_file` fills is a parameter: `elf` gives the byte at
every offset from its start, and the structures of `elf.h` are read from it field by field, at the
offsets of the format. Nothing in the source compares an offset with the size of the file, so a read
past its end is a byte like any other. Of `task`, the fields that are assigned are the result.
-/

namespace Blackcomb.Fs

open Memory Budget Mm

/-- `PT_LOAD`. -/
def ptLoad : Nat := 1

/-- `USER_STACK_BASE`. -/
def userStackBase : Nat := 0x7ffffffde000

/-- `USER_STACK_PAGES`. -/
def userStackPages : Nat := 32

/-- `sizeof(Elf64_Phdr)`. -/
def sizeofPhdr : Nat := 56

/-- `ehdr->e_entry`. -/
def eEntry (elf : Bytes) : Nat := load elf 24 8

/-- `ehdr->e_phoff`. -/
def ePhoff (elf : Bytes) : Nat := load elf 32 8

/-- `ehdr->e_phnum`. -/
def ePhnum (elf : Bytes) : Nat := load elf 56 2

/-- `Elf64_Phdr`, the fields that are read. -/
structure Elf64Phdr where
  pType : Nat
  pOffset : Nat
  pVaddr : Nat
  pFilesz : Nat
  pMemsz : Nat
  deriving DecidableEq

/-- `ph_arr[i]`. -/
def phArr (elf : Bytes) (i : Nat) : Elf64Phdr :=
  let ph := add64 (ePhoff elf) (i * sizeofPhdr)
  { pType := load elf ph 4
    pOffset := load elf (ph + 8) 8
    pVaddr := load elf (ph + 16) 8
    pFilesz := load elf (ph + 32) 8
    pMemsz := load elf (ph + 40) 8 }

namespace Elf64Phdr

/-- `map_addr`. -/
def mapAddr (ph : Elf64Phdr) : Nat := pageOf ph.pVaddr

/-- `map_offset`. -/
def mapOffset (ph : Elf64Phdr) : Nat := pageOf ph.pOffset

/-- `extraspace`. -/
def extraspace (ph : Elf64Phdr) : Nat := ph.pVaddr % pageSize

/-- `DIV_CEIL(ph->p_memsz + extraspace, PAGE_SIZE)`. -/
def memPages (ph : Elf64Phdr) : Nat :=
  add64 (add64 ph.pMemsz ph.extraspace) (pageSize - 1) / pageSize

/-- `ph->p_filesz + extraspace`. -/
def fileBytes (ph : Elf64Phdr) : Nat := add64 ph.pFilesz ph.extraspace

end Elf64Phdr

section

variable (rs : RegionTable)

/-- `map_segment`. -/
def mapSegment (mm : Nat) (elf : Bytes) (ph : Elf64Phdr) : Op Unit := do
  anonMmapUser rs mm ph.mapAddr ph.memPages pageProtRead
  mmCopyFromBuf mm (fun i => elf (ph.mapOffset + i)) ph.mapAddr ph.fileBytes

/-- `map_segment` of a file in memory: `elf o` is the physical address of the byte at `buf + o`, inside
the buffer or not. The calls of `memcpy` are the result. -/
def mapSegmentAt (mm : Nat) (elf : Nat → Nat) (ph : Elf64Phdr) : Op (List MemcpyCall) := do
  anonMmapUser rs mm ph.mapAddr ph.memPages pageProtRead
  mmCopyFromBufAt mm (fun i => elf (add64 ph.mapOffset i)) ph.mapAddr ph.fileBytes

/-- The body of `exec_elf`'s loop. -/
def loadSegment (mm : Nat) (elf : Bytes) (i : Nat) : Op Unit :=
  if (phArr elf i).pType = ptLoad then mapSegment rs mm elf (phArr elf i) else pure ()

/-- `exec_elf`: the new `task->mm`. -/
def execElf (elf : Bytes) : Op Nat := do
  let mm ← mmNew rs
  forTo (ePhnum elf) (loadSegment rs mm elf)
  anonMmapUser rs mm userStackBase userStackPages (pageProtRead ||| pageProtWrite)
  pure mm

/-- What `exec_elf` assigns in `task->regs`. -/
structure TaskRegs where
  rip : Nat
  rsp : Nat

/-- `exec_elf`: what it assigns in `task`. -/
def execElfTask (elf : Bytes) : Op (Nat × TaskRegs) := do
  let mm ← execElf rs elf
  pure (mm, { rip := eEntry elf, rsp := userStackBase + pageSize * userStackPages })

/-- `sched_exec`, of a task whose space is `mmOld`: the new one, once the old one is freed. -/
def schedExec (mmOld : Nat) (elf : Bytes) : Op Nat := do
  let mm ← execElf rs elf
  mmFree rs mmOld
  pure mm

end

end Blackcomb.Fs
