import Blackcomb.Lib.Budget
import Blackcomb.Mm.Pmm

/-!
# Address spaces

`vmm.c` over the frames of `pmm.c`. Page tables are bytes in frames: an entry is the little-endian
word at its place, and the walkers follow entries as the source does, without asking whether a table
is there. `P_TO_V` is plain access to physical memory, all of which counts as mapped.

The structures of `vmm.h` that come from `kmalloc` and `kcalloc` are named by the order of their
creation, like the objects of the process table. The statically allocated ones come first: the space
`0` is `kernel_mm`, and the areas and list nodes `0`, `1`, `2` are those of the kernel text, of
physical memory and of the kernel heap. A freed record stays readable; `free` of a static one has no
meaning. An exhausted kernel heap panics and has no next state, so it is left out.

`int` offsets overflow at `2 ^ 31`, which has no meaning either; the `uint64_t` ones wrap. `enum
vm_area_type` is a type, so the `default` branches that panic are not there.
-/

namespace Blackcomb.Mm

open Memory Budget

/-- `enum vm_area_type`. -/
inductive VmAreaType
  | reg
  | kernelText
  | kernelHeap
  | physMem
  deriving DecidableEq, Repr

/-- `struct vm_area`, as `kcalloc` zeroes it. -/
structure VmArea where
  refcnt : Int := 0
  type : VmAreaType := .reg
  start : Nat := 0
  pages : Nat := 0
  user : Bool := false
  prot : Nat := 0

/-- `struct vm_area_li`. -/
structure VmAreaLi where
  vma : Nat := 0
  next : Option Nat := none
  prev : Option Nat := none

/-- `struct mm`. -/
structure MmStruct where
  p4 : Nat := 0
  vmAreas : Option Nat := none

/-- The state of `vmm.c` over the frames. -/
structure Vmm where
  frames : Frames
  mms : Nat → MmStruct
  nmms : Nat
  vmas : Nat → VmArea
  nvmas : Nat
  lis : Nat → VmAreaLi
  nlis : Nat
  /-- History: some `pmm_alloc` had no frame to return. -/
  ranOut : Bool
  /-- History: what was passed to `free`, latest first. -/
  freedMms : List Nat
  freedVmas : List Nat
  freedLis : List Nat
  /-- History: the arguments of `pmm_free`, and whether each was handed out then, latest first. -/
  pmmFrees : List (Nat × Bool)
  /-- History: the page-table entries assigned and the paths they stand at, latest first. -/
  installs : List (List (Fin 512) × Nat)

/-- A function of `vmm.c`. -/
abbrev Op := StateT Vmm (Except Fault)

/-- `KERNEL_TEXT_BASE`. -/
def kernelTextBase : Nat := 0xffffffff80000000

/-- `PHYS_MAPPING_START`. -/
def physMappingStart : Nat := 0xffff888000000000

/-- `P4_NDX`. -/
def p4Ndx (x : Nat) : Fin 512 := Fin.ofNat 512 (x >>> 39)

/-- `P3_NDX`. -/
def p3Ndx (x : Nat) : Fin 512 := Fin.ofNat 512 (x >>> 30)

/-- `P2_NDX`. -/
def p2Ndx (x : Nat) : Fin 512 := Fin.ofNat 512 (x >>> 21)

/-- `P1_NDX`. -/
def p1Ndx (x : Nat) : Fin 512 := Fin.ofNat 512 (x >>> 12)

/-- `PAGE_PRESENT`. -/
def pagePresent : Nat := 1

/-- `PAGE_WRITE`. -/
def pageWrite : Nat := 2

/-- `PAGE_USER`. -/
def pageUser : Nat := 4

/-- `PAGE_PROT_READ`. -/
def pageProtRead : Nat := 1

/-- `PAGE_PROT_WRITE`. -/
def pageProtWrite : Nat := 2

/-- `e & ~PAGE_MASK`. -/
def pageOf (e : Nat) : Nat := e - e % pageSize

/-- Entry `i` of the table at physical address `base`. -/
def entryAt (m : Bytes) (base : Nat) (i : Fin 512) : Nat := load m (base + 8 * i.val) 8

/-- Assign entry `i` of the table at physical address `base`. -/
def setEntryAt (m : Bytes) (base : Nat) (i : Fin 512) (val : Nat) : Bytes :=
  store m (base + 8 * i.val) 8 val

/-- Indices into the tables, the deepest first. -/
abbrev Path := List (Fin 512)

namespace Vmm

/-- `*_base_addr`: the table that the entries along a path lead to. -/
def tableAt (s : Vmm) (mm : Nat) : Path → Nat
  | [] => (s.mms mm).p4
  | i :: p => pageOf (entryAt s.frames.mem (s.tableAt mm p) i)

/-- Read an entry of the table at a path. -/
def getEntry (s : Vmm) (mm : Nat) (p : Path) (i : Fin 512) : Nat :=
  entryAt s.frames.mem (s.tableAt mm p) i

/-- Physical memory assigned. -/
def setMem (s : Vmm) (m : Bytes) : Vmm := { s with frames := { s.frames with mem := m } }

/-- Assign an entry of the table at a path. -/
def setEntry (s : Vmm) (mm : Nat) (p : Path) (i : Fin 512) (val : Nat) : Vmm :=
  { s.setMem (setEntryAt s.frames.mem (s.tableAt mm p) i val) with
    installs := (i :: p, val) :: s.installs }

/-- `p4_get_entry`. -/
def p4GetEntry (s : Vmm) (mm : Nat) (i : Fin 512) : Nat := s.getEntry mm [] i

/-- `p3_get_entry`. -/
def p3GetEntry (s : Vmm) (mm : Nat) (p4 i : Fin 512) : Nat := s.getEntry mm [p4] i

/-- `p2_get_entry`. -/
def p2GetEntry (s : Vmm) (mm : Nat) (p4 p3 i : Fin 512) : Nat := s.getEntry mm [p3, p4] i

/-- `p1_get_entry`. -/
def p1GetEntry (s : Vmm) (mm : Nat) (p4 p3 p2 i : Fin 512) : Nat := s.getEntry mm [p2, p3, p4] i

/-- `p4_set_entry`. -/
def p4SetEntry (s : Vmm) (mm : Nat) (i : Fin 512) (val : Nat) : Vmm := s.setEntry mm [] i val

/-- `p3_set_entry`. -/
def p3SetEntry (s : Vmm) (mm : Nat) (p4 i : Fin 512) (val : Nat) : Vmm := s.setEntry mm [p4] i val

/-- `p2_set_entry`. -/
def p2SetEntry (s : Vmm) (mm : Nat) (p4 p3 i : Fin 512) (val : Nat) : Vmm :=
  s.setEntry mm [p3, p4] i val

/-- `p1_set_entry`. -/
def p1SetEntry (s : Vmm) (mm : Nat) (p4 p3 p2 i : Fin 512) (val : Nat) : Vmm :=
  s.setEntry mm [p2, p3, p4] i val

/-- The entry of a virtual address in its p1 table. -/
def leafEntry (s : Vmm) (mm virt : Nat) : Nat :=
  s.p1GetEntry mm (p4Ndx virt) (p3Ndx virt) (p2Ndx virt) (p1Ndx virt)

/-- `vmm_get_phys`. -/
def vmmGetPhys (s : Vmm) (mm virt : Nat) : Nat := pageOf (s.leafEntry mm virt)

/-- Assign fields of one `struct mm`. -/
def modifyMm (s : Vmm) (mm : Nat) (f : MmStruct → MmStruct) : Vmm :=
  { s with mms := Function.update s.mms mm (f (s.mms mm)) }

/-- Assign fields of one `struct vm_area`. -/
def modifyVma (s : Vmm) (vma : Nat) (f : VmArea → VmArea) : Vmm :=
  { s with vmas := Function.update s.vmas vma (f (s.vmas vma)) }

/-- Assign fields of one `struct vm_area_li`. -/
def modifyLi (s : Vmm) (li : Nat) (f : VmAreaLi → VmAreaLi) : Vmm :=
  { s with lis := Function.update s.lis li (f (s.lis li)) }

end Vmm

open Vmm

section

variable (rs : RegionTable)

/-- `pmm_alloc`. -/
def allocFrame : Op Nat := fun s => do
  let frames ← Frames.step rs .alloc s.frames
  let f := (pmmAlloc rs s.frames.mem).1
  pure (f, { s with frames := frames, ranOut := s.ranOut || f == 0 })

/-- `pmm_free`. -/
def freeFrame (phys : Nat) : Op Unit := fun s => do
  let frames ← Frames.step rs (.free phys) s.frames
  let call := (phys, decide (phys ∈ s.frames.taken))
  pure ((), { s with frames := frames, pmmFrees := call :: s.pmmFrees })

/-! ## Page tables -/

/-- One `if` of `vmm_map_page`: there is a table below entry `i` of the table at `p`. -/
def growTable (mm : Nat) (p : Path) (i : Fin 512) (flags : Nat) : Op Unit := do
  if (← get).getEntry mm p i = 0 then
    let table ← allocFrame rs
    modify (·.setEntry mm p i (table ||| flags))

/-- The first `if` of `vmm_map_page`: there is a p4 table. -/
def growRoot (mm : Nat) : Op Unit := do
  if ((← get).mms mm).p4 = 0 then
    let p4 ← allocFrame rs
    modify (·.modifyMm mm ({ · with p4 }))

/-- `vmm_map_page`. -/
def vmmMapPage (mm virt phys flags : Nat) : Op Unit := do
  growRoot rs mm
  growTable rs mm [] (p4Ndx virt) flags
  growTable rs mm [p4Ndx virt] (p3Ndx virt) flags
  growTable rs mm [p3Ndx virt, p4Ndx virt] (p2Ndx virt) flags
  modify (·.p1SetEntry mm (p4Ndx virt) (p3Ndx virt) (p2Ndx virt) (p1Ndx virt) (phys ||| flags))

/-- The table below entry `i` of the table at `p` is freed and the entry cleared. -/
def dropTable (mm : Nat) (p : Path) (i : Fin 512) : Op Unit := do
  freeFrame rs (pageOf ((← get).getEntry mm p i))
  modify (·.setEntry mm p i 0)

/-- The p4 table is freed. -/
def dropRoot (mm : Nat) : Op Unit := do
  freeFrame rs ((← get).mms mm).p4
  modify (·.modifyMm mm ({ · with p4 := 0 }))

/-- The loops of `vmm_unmap_page`, each of which returns at an entry that is not `0`. -/
def whenEmpty (mm : Nat) (p : Path) (rest : Op Unit) : Op Unit := do
  let s ← get
  if ∀ i, s.getEntry mm p i = 0 then rest

/-- `vmm_unmap_page`. -/
def vmmUnmapPage (mm virt : Nat) : Op Unit := do
  modify (·.p1SetEntry mm (p4Ndx virt) (p3Ndx virt) (p2Ndx virt) (p1Ndx virt) 0)
  whenEmpty mm [p2Ndx virt, p3Ndx virt, p4Ndx virt] do
    dropTable rs mm [p3Ndx virt, p4Ndx virt] (p2Ndx virt)
    whenEmpty mm [p3Ndx virt, p4Ndx virt] do
      dropTable rs mm [p4Ndx virt] (p3Ndx virt)
      whenEmpty mm [p4Ndx virt] do
        dropTable rs mm [] (p4Ndx virt)
        whenEmpty mm [] (dropRoot rs mm)

/-- `prot_to_x86_prot`. -/
def protToX86Prot (prot : Nat) : Nat := if prot &&& pageProtWrite ≠ 0 then pageWrite else 0

/-- The flags of a page, as every function that maps one computes them. -/
def pageFlags (prot : Nat) (user : Bool) : Nat :=
  protToX86Prot prot ||| (if user then pageUser else 0) ||| pagePresent

/-- `if (c) panic(msg)`. -/
def panicIf (c : Prop) [Decidable c] (msg : String) : Op Unit :=
  if c then throw (.panic msg) else pure ()

/-- `i * PAGE_SIZE` of an `int`. -/
def intOffset (i : Nat) : Op Nat :=
  if i * pageSize < 2 ^ 31 then pure (i * pageSize) else throw .undefined

/-! ## Areas -/

/-- `free` of a `struct vm_area`. -/
def freeVma (vma : Nat) : Op Unit :=
  if vma < 3 then throw .undefined
  else modify fun s => { s with freedVmas := vma :: s.freedVmas }

/-- The assignments of `mm_insert_vma`. -/
def Vmm.insertVma (s : Vmm) (mm vma : Nat) : Vmm :=
  let li := s.nlis
  let head := (s.mms mm).vmAreas
  let s := { s with lis := Function.update s.lis li { vma, next := head }, nlis := li + 1 }
  let s := s.modifyVma vma fun v => { v with refcnt := v.refcnt + 1 }
  let s := match head with
    | some first => s.modifyLi first ({ · with prev := some li })
    | none => s
  s.modifyMm mm ({ · with vmAreas := some li })

/-- `mm_insert_vma`. -/
def mmInsertVma (mm vma : Nat) : Op Unit := modify (·.insertVma mm vma)

/-- `if (--vma->refcnt == 0) free(vma)`. -/
def dropVma (vma : Nat) : Op Unit := do
  modify (·.modifyVma vma fun v => { v with refcnt := v.refcnt - 1 })
  if ((← get).vmas vma).refcnt = 0 then freeVma vma

/-- `vmm_map_range`. -/
def vmmMapRange (mm virt phys npages prot : Nat) (user : Bool) : Op Unit := do
  panicIf (virt % pageSize ≠ 0 ∨ phys % pageSize ≠ 0) "mapping is not paged aligned"
  forTo npages fun pg => do
    let off ← intOffset pg
    vmmMapPage rs mm (add64 virt off) (add64 phys off) (pageFlags prot user)

/-- `mm_free_reg_vma`. -/
def mmFreeRegVma (mm vma : Nat) : Op Unit := do
  let v := (← get).vmas vma
  panicIf (v.type ≠ .reg) "freeing a non-regular vma"
  forTo v.pages fun pg => do
    let off ← intOffset pg
    let phys := (← get).vmmGetPhys mm (add64 v.start off)
    vmmUnmapPage rs mm (add64 v.start off)
    freeFrame rs phys
  dropVma vma

/-- One round of a loop that allocates pages: a frame, mapped at `start + off`. -/
def mapFresh (mm start flags i : Nat) : Op Unit := do
  let off ← intOffset i
  let frame ← allocFrame rs
  vmmMapPage rs mm (add64 start off) frame flags

/-- `anon_mmap`. -/
def anonMmap (mm start pages prot : Nat) (user : Bool) : Op Unit := do
  panicIf (start % pageSize ≠ 0) "mmap is not page aligned"
  forTo pages (mapFresh rs mm start (pageFlags prot user))
  let vma := (← get).nvmas
  modify fun s => { s with
    vmas := Function.update s.vmas vma { prot := prot % 2 ^ 8, user, type := .reg, start, pages }
    nvmas := vma + 1 }
  mmInsertVma mm vma

/-- `anon_mmap_user`. -/
def anonMmapUser (mm start pages prot : Nat) : Op Unit := anonMmap rs mm start pages (prot % 2 ^ 8) true

/-- `mm_share_vma`. -/
def mmShareVma (dst src vma : Nat) : Op Unit := do
  let v := (← get).vmas vma
  forTo v.pages fun pg => do
    let off ← intOffset pg
    let phys := (← get).leafEntry src (add64 v.start off)
    vmmMapPage rs dst (add64 v.start off) phys (pageFlags v.prot v.user)
  mmInsertVma dst vma

/-- `mm_unshare_vma`. -/
def mmUnshareVma (mm vma : Nat) : Op Unit := do
  let v := (← get).vmas vma
  forTo v.pages fun pg => do
    let off ← intOffset pg
    vmmUnmapPage rs mm (add64 v.start off)
  dropVma vma

/-- `mm_copy_from_mm`. -/
def mmCopyFromMm (dst src start pages : Nat) : Op Unit := do
  panicIf (start % pageSize ≠ 0) "copy_physmem: start is not page aligned"
  forTo pages fun pg =>
    modify fun s =>
      let virt := add64 start (pageSize * pg)
      s.setMem (memcpy s.frames.mem (s.vmmGetPhys dst virt) (s.vmmGetPhys src virt) pageSize)

/-- `memcpy` from a buffer elsewhere, byte after byte. -/
def memcpyFrom (m : Bytes) (dest : Nat) (src : Bytes) : Nat → Bytes
  | 0 => m
  | n + 1 => Function.update (memcpyFrom m dest src n) (dest + n) (src n)

/-- `mm_copy_from_buf`: a round of the `while` for every page that `len` bytes begin. -/
def mmCopyFromBuf (dst : Nat) (src : Bytes) (start len : Nat) : Op Unit := do
  panicIf (start % pageSize ≠ 0) "copy_physmem: start is not page aligned"
  forTo ((len + pageSize - 1) / pageSize) fun pg =>
    modify fun s =>
      let off := pageSize * pg
      s.setMem (memcpyFrom s.frames.mem (s.vmmGetPhys dst (add64 start off)) (fun i => src (off + i))
        (min (len - off) pageSize))

/-! ## Spaces -/

/-- `kernel_mm_init`. -/
def kernelMmInit (mm : Nat) : Op Unit := do
  modify (·.modifyMm 0 ({ · with vmAreas := some 0 }))
  -- the kernel text
  modify (·.modifyVma 0 ({ · with
    prot := pageProtRead ||| pageProtWrite, user := false, type := .kernelText,
    start := kernelTextBase, pages := 512 }))
  vmmMapRange rs mm kernelTextBase 0 512 (pageProtRead ||| pageProtWrite) false
  modify (·.modifyLi 0 fun _ => { vma := 0, next := some 1, prev := none })
  -- physical memory
  modify (·.modifyVma 1 ({ · with
    prot := pageProtRead ||| pageProtWrite, user := false, type := .physMem,
    start := physMappingStart, pages := 1024 }))
  vmmMapRange rs mm physMappingStart 0 1024 (pageProtRead ||| pageProtWrite) false
  modify (·.modifyLi 1 fun _ => { vma := 1, next := some 2, prev := some 0 })
  -- the kernel heap
  modify (·.modifyVma 2 ({ · with
    prot := pageProtRead ||| pageProtWrite, user := false, type := .kernelHeap,
    start := kernelBrkStart, pages := kernelBrkPages }))
  forTo kernelBrkPages
    (mapFresh rs mm kernelBrkStart (protToX86Prot (pageProtRead ||| pageProtWrite) ||| pagePresent))
  modify (·.modifyLi 2 fun _ => { vma := 2, next := none, prev := some 1 })

/-- `while (curr)` over a list of areas: `body` on the area, `after` on the node once its `next` is
read. -/
def walkAreas (body after : Nat → Op Unit) : Nat → Option Nat → Op Unit
  | _, none => pure ()
  | 0, some _ => throw .diverge
  | fuel + 1, some curr => do
    body ((← get).lis curr).vma
    let next := ((← get).lis curr).next
    after curr
    walkAreas body after fuel next

/-- A walk of a space's list, bounded by the number of nodes there are. -/
def forAreas (mm : Nat) (body after : Nat → Op Unit) : Op Unit := do
  let s ← get
  walkAreas body after s.nlis (s.mms mm).vmAreas

/-- `mm_init`. -/
def mmInit (mm : Nat) : Op Unit := forAreas 0 (mmShareVma rs mm 0) fun _ => pure ()

/-- `mm_new`. -/
def mmNew : Op Nat := do
  let mm := (← get).nmms
  modify fun s => { s with mms := Function.update s.mms mm {}, nmms := mm + 1 }
  mmInit rs mm
  pure mm

/-- The body of `mm_dupe`'s loop. -/
def dupeArea (new mm vma : Nat) : Op Unit := do
  let v := (← get).vmas vma
  match v.type with
  | .reg =>
    anonMmap rs new v.start v.pages v.prot v.user
    mmCopyFromMm new mm v.start v.pages
  | .physMem | .kernelText | .kernelHeap => pure ()

/-- `mm_dupe`. -/
def mmDupe (mm : Nat) : Op Nat := do
  let new ← mmNew rs
  forAreas mm (dupeArea rs new mm) fun _ => pure ()
  pure new

/-- The body of `mm_free`'s loop. -/
def freeArea (mm vma : Nat) : Op Unit := do
  match ((← get).vmas vma).type with
  | .reg => mmFreeRegVma rs mm vma
  | .physMem | .kernelText | .kernelHeap => mmUnshareVma rs mm vma

/-- `mm_free`. -/
def mmFree (mm : Nat) : Op Unit := do
  forAreas mm (freeArea rs mm) fun li => modify fun s => { s with freedLis := li :: s.freedLis }
  freeFrame rs ((← get).mms mm).p4
  modify fun s => { s with freedMms := mm :: s.freedMms }

end

/-! ## The system -/

/-- The state before `kernel_mm_init`: the region table in use, static memory zeroed. -/
def Vmm.boot (rs : RegionTable) (m : Bytes) : Vmm where
  frames := ⟨pmmInitRegions m rs, []⟩
  mms := fun _ => {}
  nmms := 1
  vmas := fun _ => {}
  nvmas := 3
  lis := fun _ => {}
  nlis := 3
  ranOut := false
  freedMms := []
  freedVmas := []
  freedLis := []
  pmmFrees := []
  installs := []

/-- The nodes of a list from one on, as many as there are at most. -/
def Vmm.nodes (s : Vmm) : Nat → Option Nat → List Nat
  | _, none => []
  | 0, some _ => []
  | n + 1, some li => li :: s.nodes n (s.lis li).next

/-- The areas of a space, in the order of its list. -/
def Vmm.areasOf (s : Vmm) (mm : Nat) : List Nat :=
  (s.nodes s.nlis (s.mms mm).vmAreas).map fun li => (s.lis li).vma

/-- What is done to address spaces: the calls of the kernel, and a byte stored through one. -/
inductive SpaceCall
  | mmNew
  | anonMmap (mm start pages prot : Nat) (user : Bool)
  | mmDupe (mm : Nat)
  | mmFree (mm : Nat)
  | write (mm virt : Nat) (byte : BitVec 8)

/-- The physical address of a virtual one. -/
def Vmm.translate (s : Vmm) (mm virt : Nat) : Nat := s.vmmGetPhys mm virt + virt % pageSize

/-- One call. -/
def Vmm.step (rs : RegionTable) : SpaceCall → Vmm → Except Fault Vmm
  | .mmNew, s => (·.2) <$> mmNew rs s
  | .anonMmap mm start pages prot user, s => (·.2) <$> anonMmap rs mm start pages prot user s
  | .mmDupe mm, s => (·.2) <$> mmDupe rs mm s
  | .mmFree mm, s => (·.2) <$> mmFree rs mm s
  | .write mm virt byte, s =>
    .ok (s.setMem (Function.update s.frames.mem (s.translate mm virt) byte))

end Blackcomb.Mm
