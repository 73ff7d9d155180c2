import Blackcomb.Lib.Exclusive
import Blackcomb.Lib.Radix
import Blackcomb.Laws.Mm.Pmm
import Blackcomb.Mm.Vmm

/-!
# Page tables

`vmm_map_page` and `vmm_unmap_page` as edits of a forest of radix trees. What stands at a path in the
tables of a space is a slot: its p4 at the empty path, the entries of a p1 table at the paths of
length four. The invariant `Tables` says who holds each frame handed out: a path of at most three
indices (a table), a path of four that owns its page, or the one frame an operation has in its
hands. No table is empty, except the one an operation is building or taking down.

Each stage of the two functions edits one slot. The frames of pages are never touched.

**What it does not establish.** Nothing is said of areas: `owns` is a parameter, and `Spaces` fills
it in.
-/

namespace Blackcomb.Mm

open Memory Run Budget Ownership

/-! ## Entries -/

variable {m m' : Bytes} {f g e flags : Nat} {i j : Fin 512}

/-- An entry depends on the bytes of its table only. -/
theorem entryAt_congr (same : ∀ a, f ≤ a → a < f + pageSize → m' a = m a) :
    entryAt m' f i = entryAt m f i := by
  have bound := i.isLt
  apply load_congr
  intro a low high
  exact same a (by omega) (by simp only [pageSize]; omega)

/-- In a cleared table every entry is zero. -/
theorem entryAt_zeroed (zero : ∀ a, f ≤ a → a < f + pageSize → m a = 0) : entryAt m f i = 0 := by
  have bound := i.isLt
  apply load_eq_zero
  intro a low high
  exact zero a (by omega) (by simp only [pageSize]; omega)

/-- An entry has 64 bits. -/
theorem entryAt_lt (m : Bytes) (f : Nat) (i : Fin 512) : entryAt m f i < 2 ^ 64 :=
  load_lt m _ 8

/-- A written entry is read back. -/
theorem entryAt_setEntryAt_self (fits : e < 2 ^ 64) : entryAt (setEntryAt m f i e) f i = e :=
  load_store fits

/-- Writing an entry keeps every other, of its table and of the others. -/
theorem entryAt_setEntryAt_ne (alignedF : f % pageSize = 0) (alignedG : g % pageSize = 0)
    (ne : ¬ (g = f ∧ j = i)) : entryAt (setEntryAt m f i e) g j = entryAt m g j := by
  have boundI := i.isLt
  have boundJ := j.isLt
  apply load_store_of_disjoint
  simp only [pageSize] at *
  by_cases same : g = f
  · have index : j.val ≠ i.val := fun eq => ne ⟨same, Fin.ext eq⟩
    omega
  · omega

/-- Setting an entry touches its table only. -/
theorem setEntryAt_outside {a : Nat} (out : a < f ∨ f + pageSize ≤ a) :
    setEntryAt m f i e a = m a := by
  have bound := i.isLt
  apply store_outside
  simp only [pageSize] at out
  omega

/-- A frame's address is its own page. -/
theorem pageOf_eq (aligned : f % pageSize = 0) : pageOf f = f := by
  rw [pageOf, aligned, Nat.sub_zero]

/-- The masked address of an entry is aligned. -/
theorem pageOf_mod (e : Nat) : pageOf e % pageSize = 0 := by
  simp only [pageOf, pageSize]
  omega

/-- Or-ing flags into an aligned address adds them. -/
theorem or_eq_add (aligned : f % pageSize = 0) (small : flags < pageSize) :
    f ||| flags = f + flags := by
  obtain ⟨k, rfl⟩ : ∃ k, f = 2 ^ 12 * k := ⟨f / 4096, by simp only [pageSize] at aligned; omega⟩
  exact (Nat.two_pow_add_eq_or_of_lt small k).symm

/-- The frame of an entry made of a frame and flags. -/
theorem pageOf_or (aligned : f % pageSize = 0) (small : flags < pageSize) :
    pageOf (f ||| flags) = f := by
  rw [or_eq_add aligned small, pageOf]
  simp only [pageSize] at *
  omega

/-- The flags of an entry are its low twelve bits. -/
theorem or_mod (aligned : f % pageSize = 0) (small : flags < pageSize) :
    (f ||| flags) % pageSize = flags := by
  rw [or_eq_add aligned small]
  simp only [pageSize] at *
  omega

/-- The bits of flags in an entry. -/
theorem and_flags (small : flags < pageSize) : e &&& flags = e % pageSize &&& flags := by
  have mask : ∀ x, x % pageSize = x &&& (2 ^ 12 - 1) := fun x =>
    (Nat.and_two_pow_sub_one_eq_mod x 12).symm
  have low := mask flags
  rw [Nat.mod_eq_of_lt small] at low
  rw [mask e, Nat.and_assoc, Nat.and_comm (2 ^ 12 - 1) flags, ← low]

/-- An entry that names a frame is not zero. -/
theorem or_ne_zero (nonzero : f ≠ 0) : f ||| flags ≠ 0 := by
  intro zero
  exact nonzero (Nat.or_eq_zero_iff.mp zero).1

/-! ## Frames -/

variable {rs : RegionTable} {s s' : Vmm}

/-- Frames are the resource of `vmm.c`. -/
def meter (rs : RegionTable) : Meter Vmm where
  out s := s.ranOut = true
  left s := (freeFrames rs s.frames).card

/-- Two memories agree on a frame. -/
def SameFrame (m m' : Bytes) (f : Nat) : Prop := ∀ a, f ≤ a → a < f + pageSize → m' a = m a

/-- The free frames are those of the table that are not taken. -/
theorem mem_freeFrames {t : Frames} : f ∈ freeFrames rs t ↔ IsFrame rs f ∧ f ∉ t.taken := by
  simp [freeFrames, RegionTable.mem_frames]

/-- A frame of a table, which has at most 52 bits. -/
theorem IsFrame.lt (frame : IsFrame rs f) : f < 2 ^ 52 := by
  obtain ⟨r, _, i, _, lt, rfl⟩ := frame
  have := r.fits
  simp only [pageSize] at *
  omega

/-- An entry made of a frame and flags is a word. -/
theorem IsFrame.or_lt (frame : IsFrame rs f) (small : flags < pageSize) : f ||| flags < 2 ^ 64 := by
  have := frame.lt
  rw [or_eq_add frame.aligned small]
  simp only [pageSize] at small
  omega

/-- What `pmm_alloc` did: a frame that was free is handed out, zeroed, and no other is touched. -/
structure Alloced (rs : RegionTable) (s : Vmm) (f : Nat) (s' : Vmm) : Prop where
  state : s' = { s with frames := s'.frames }
  taken : s'.frames.taken = f :: s.frames.taken
  inv : FramesInv rs s'.frames
  frame : IsFrame rs f
  fresh : f ∉ s.frames.taken
  zeroed : ∀ a, f ≤ a → a < f + pageSize → s'.frames.mem a = 0
  kept : ∀ g, IsFrame rs g → g ≠ f → SameFrame s.frames.mem s'.frames.mem g

/-- What `pmm_free` did: a frame is free again, and no frame is touched. -/
structure Freed (rs : RegionTable) (s : Vmm) (f : Nat) (s' : Vmm) : Prop where
  state : s' = { s with frames := s'.frames, pmmFrees := (f, true) :: s.pmmFrees }
  taken : s'.frames.taken = s.frames.taken.erase f
  inv : FramesInv rs s'.frames
  kept : ∀ g, IsFrame rs g → SameFrame s.frames.mem s'.frames.mem g

/-- `allocFrame` is `pmm_alloc`, with the frame it gave out noted. -/
theorem allocFrame_eq : allocFrame rs s = .ok ((pmmAlloc rs s.frames.mem).1, { s with
    frames := ⟨(pmmAlloc rs s.frames.mem).2, (pmmAlloc rs s.frames.mem).1 :: s.frames.taken⟩
    ranOut := s.ranOut || (pmmAlloc rs s.frames.mem).1 == 0 }) := rfl

/-- `pmm_alloc` while a frame is free. -/
theorem allocFrame_spec (inv : FramesInv rs s.frames)
    (free : ∃ g, IsFrame rs g ∧ g ∉ s.frames.taken) :
    ∃ f s', allocFrame rs s = .ok (f, s') ∧ Alloced rs s f s' ∧
      (meter rs).left s = (meter rs).left s' + 1 := by
  have call : allocFrame rs s = _ := allocFrame_eq
  have next : FramesInv rs
      ⟨(pmmAlloc rs s.frames.mem).2, (pmmAlloc rs s.frames.mem).1 :: s.frames.taken⟩ :=
    inv.step (show Frames.Allowed rs .alloc s.frames from free) rfl
  obtain ⟨r, hr, i, low, lt, unused, done⟩ := inv.alloc free
  have frame : IsFrame rs (r.start + i * pageSize) := ⟨r, hr, i, low, lt, rfl⟩
  have nonzero : (r.start + i * pageSize == 0) = false := beq_false_of_ne (Nat.ne_of_gt frame.pos)
  rw [done] at call next
  simp only [nonzero, Bool.or_false] at call
  refine ⟨_, _, call, ⟨rfl, rfl, next, frame, unused, ?_, ?_⟩, ?_⟩
  · intro a low high
    simp only [memset_apply]
    rw [if_pos ⟨low, high⟩]
  · intro g other ne a low high
    have apart := other.apart frame ne
    have byte := other.apart_byte hr lt
    simp only [memset_apply]
    rw [if_neg (by omega), regionSetBit, Bitmap.setBit_outside (by omega)]
  · have erased : freeFrames rs ⟨memset (regionSetBit s.frames.mem r i) (r.start + i * pageSize) 0
        pageSize, (r.start + i * pageSize) :: s.frames.taken⟩ =
        (freeFrames rs s.frames).erase (r.start + i * pageSize) := by
      ext g
      simp only [mem_freeFrames, Finset.mem_erase, List.mem_cons, not_or]
      tauto
    simp only [meter, erased]
    exact (Finset.card_erase_add_one (mem_freeFrames.mpr ⟨frame, unused⟩)).symm

/-- With frames left, `allocFrame` uses one and clears nothing but its bytes. -/
theorem allocFrame_runs (inv : FramesInv rs s.frames) (met : ¬ s.ranOut = true) :
    Runs (meter rs) (allocFrame rs) 1 s (Alloced rs s) := by
  by_cases free : ∃ g, IsFrame rs g ∧ g ∉ s.frames.taken
  · obtain ⟨f, s', ran, alloced, count⟩ := allocFrame_spec inv free
    refine .done ran ?_ (Nat.le_of_eq count) alloced
    rw [alloced.state]
    exact met
  · have full : ∀ g, IsFrame rs g → g ∈ s.frames.taken := by
      intro g frame
      by_contra out
      exact free ⟨g, frame, out⟩
    have empty : freeFrames rs s.frames = ∅ := by
      ext g
      simp only [mem_freeFrames, Finset.notMem_empty, iff_false, not_and, not_not]
      exact full g
    refine .inr ⟨by simp [meter, empty], fun f t h => ?_⟩
    rw [allocFrame_eq, inv.alloc_full full] at h
    cases h
    simp [meter]

/-- A taken frame can be given back, and is then free again. -/
theorem freeFrame_spec (inv : FramesInv rs s.frames) (mem : f ∈ s.frames.taken) :
    ∃ s', freeFrame rs f s = .ok ((), s') ∧ Freed rs s f s' ∧
      (meter rs).left s ≤ (meter rs).left s' := by
  obtain ⟨r, hr, i, low, lt, rfl⟩ := inv.frames f mem
  have call : freeFrame rs (r.start + i * pageSize) s =
      (pmmFree rs s.frames.mem (r.start + i * pageSize) >>= fun m =>
        .ok ((), { s with
          frames := ⟨m, s.frames.taken.erase (r.start + i * pageSize)⟩
          pmmFrees := (r.start + i * pageSize, true) :: s.pmmFrees })) := by
    simp only [freeFrame, Frames.step, mem, decide_true]
    cases pmmFree rs s.frames.mem (r.start + i * pageSize) <;> rfl
  rw [pmmFree_spec hr low lt] at call
  refine ⟨_, call, ⟨rfl, rfl, inv.release hr low lt, ?_⟩, ?_⟩
  · intro g frame a low high
    have byte := frame.apart_byte hr lt
    exact Bitmap.clearBit_outside (by omega)
  · simp only [meter]
    apply Finset.card_le_card
    intro g free
    rw [mem_freeFrames] at free ⊢
    exact ⟨free.1, fun mem => free.2 (List.mem_of_mem_erase mem)⟩

/-! ## Slots -/

/-- What stands at a path in the tables of a space. -/
def Vmm.slot (s : Vmm) (mm : Nat) (p : Path) : Nat :=
  Radix.slot (entryAt s.frames.mem) pageOf (fun k => (s.mms k).p4) mm p

variable {mm k : Nat} {p q : Path}

/-- The entry below another is read in the table that one names. -/
theorem slot_cons (here : s.slot mm p ≠ 0) :
    s.slot mm (i :: p) = entryAt s.frames.mem (pageOf (s.slot mm p)) i :=
  Radix.slot_cons here

/-- An entry has 64 bits. -/
theorem slot_lt (s : Vmm) (mm : Nat) (p : Path) (i : Fin 512) : s.slot mm (i :: p) < 2 ^ 64 := by
  unfold Vmm.slot
  rw [Radix.slot]
  split
  · decide
  · exact entryAt_lt _ _ _

/-- Slots are read from the tables: other frames do not matter. -/
theorem slot_congr (roots : ∀ k, (s'.mms k).p4 = (s.mms k).p4)
    (kept : ∀ k p, p.length ≤ 3 → s.slot k p ≠ 0 →
      SameFrame s.frames.mem s'.frames.mem (pageOf (s.slot k p)))
    (short : p.length ≤ 4) : s'.slot mm p = s.slot mm p := by
  apply Radix.slot_congr (d := 4) roots _ short
  intro k q depth here i
  exact entryAt_congr (kept k q (Nat.le_of_lt_succ depth) here)

/-- The tables are frames, different ones, and the walkers of the source find them. -/
structure Layout (rs : RegionTable) (s : Vmm) : Prop where
  frame : ∀ mm p, p.length ≤ 3 → s.slot mm p ≠ 0 → IsFrame rs (pageOf (s.slot mm p))
  apart : Radix.Apart (entryAt s.frames.mem) pageOf (fun k => (s.mms k).p4) 4
  root : ∀ mm, (s.mms mm).p4 % pageSize = 0

/-- One slot was set, the others of the tables stay. -/
structure Edit (s s' : Vmm) (mm : Nat) (q : Path) (e : Nat) : Prop where
  here : s'.slot mm q = e
  others : ∀ k p, p.length ≤ 4 → ¬ (k = mm ∧ p = q) → s'.slot k p = s.slot k p

/-- The other spaces are not touched. -/
theorem Edit.trees (edit : Edit s s' mm q e) (k : Nat) (p : Path) (ne : k ≠ mm)
    (short : p.length ≤ 4) : s'.slot k p = s.slot k p :=
  edit.others k p short fun same => ne same.1

/-- The table above the edited entry stays. -/
theorem Edit.above {i : Fin 512} {p : Path} (edit : Edit s s' mm (i :: p) e) (short : p.length ≤ 4) :
    s'.slot mm p = s.slot mm p :=
  edit.others mm p short fun loop => List.cons_ne_self i p loop.2.symm

namespace Layout

/-- The table below an entry is the frame the entry names. -/
theorem tableAt_eq (layout : Layout rs s) (here : s.slot mm p ≠ 0) :
    s.tableAt mm p = pageOf (s.slot mm p) := by
  induction p with
  | nil => exact (pageOf_eq (layout.root mm)).symm
  | cons i p ih =>
    have above : s.slot mm p ≠ 0 := Radix.slot_above here
    rw [Vmm.tableAt, ih above, slot_cons above]

/-- The walk's read at a table is the entry of the path. -/
theorem getEntry_eq (layout : Layout rs s) (here : s.slot mm p ≠ 0) :
    s.getEntry mm p i = s.slot mm (i :: p) := by
  rw [Vmm.getEntry, layout.tableAt_eq here, slot_cons here]

/-- A layout is a matter of slots. -/
theorem congr (layout : Layout rs s) (roots : ∀ k, (s'.mms k).p4 = (s.mms k).p4)
    (same : ∀ k p, p.length ≤ 4 → s'.slot k p = s.slot k p) : Layout rs s' := by
  refine ⟨fun k p short here => ?_, fun k p k' p' short short' here here' table => ?_, fun k => ?_⟩
  · rw [same k p (by omega)] at here ⊢
    exact layout.frame k p short here
  · have left := same k p (by omega)
    have right := same k' p' (by omega)
    simp only [Vmm.slot] at left right
    rw [left] at here table
    rw [right] at here' table
    exact layout.apart k p k' p' short short' here here' table
  · rw [roots k]
    exact layout.root k

/-- Setting an entry sets its slot. Nothing hangs below it before and after. -/
theorem setEntry (layout : Layout rs s) (here : s.slot mm p ≠ 0) (short : p.length ≤ 3)
    (fits : e < 2 ^ 64) (old : p.length < 3 → ∀ j, s.slot mm (j :: i :: p) = 0)
    (new : p.length < 3 → e ≠ 0 → pageOf e % pageSize = 0 ∧ pageOf e ≠ pageOf (s.slot mm p) ∧
      ∀ j, entryAt s.frames.mem (pageOf e) j = 0) :
    Edit s (s.setEntry mm p i e) mm (i :: p) e := by
  have table := layout.tableAt_eq here
  have alignedP := (layout.frame mm p short here).aligned
  have self : entryAt (s.setEntry mm p i e).frames.mem (pageOf (s.slot mm p)) i = e := by
    simp only [Vmm.setEntry, Vmm.setMem, table]
    exact entryAt_setEntryAt_self fits
  have store : (s.setEntry mm p i e).slot mm (i :: p) =
        entryAt (s.setEntry mm p i e).frames.mem (pageOf (s.slot mm p)) i ∧
      ∀ k q, q.length ≤ 4 → ¬ (k = mm ∧ q = i :: p) →
        (s.setEntry mm p i e).slot k q = s.slot k q := by
    refine Radix.slot_store layout.apart (fun _ => rfl) here (Nat.lt_succ_of_le short)
      (fun k q depth there j ne => ?_) (fun lt => old (by omega)) (fun lt nonzero j => ?_)
    · have alignedQ := (layout.frame k q (Nat.le_of_lt_succ depth) there).aligned
      simp only [Vmm.setEntry, Vmm.setMem, table]
      exact entryAt_setEntryAt_ne alignedP alignedQ ne
    · change entryAt _ (pageOf (s.slot mm p)) i ≠ 0 at nonzero
      change entryAt _ (pageOf (entryAt _ (pageOf (s.slot mm p)) i)) j = 0
      rw [self] at nonzero ⊢
      obtain ⟨aligned, ne, zero⟩ := new (by omega) nonzero
      rw [← zero j]
      simp only [Vmm.setEntry, Vmm.setMem, table]
      exact entryAt_setEntryAt_ne alignedP aligned fun both => ne both.1
  exact ⟨store.1.trans self, store.2⟩

end Layout

/-- Setting a p4 sets its slot. Nothing hangs below it before and after. -/
theorem edit_setRoot (old : ∀ j, s.slot mm [j] = 0)
    (new : e ≠ 0 → ∀ j, entryAt s.frames.mem (pageOf e) j = 0) :
    Edit s (s.modifyMm mm ({ · with p4 := e })) mm [] e := by
  have root : ((s.modifyMm mm ({ · with p4 := e })).mms mm).p4 = e := by
    simp [Vmm.modifyMm]
  refine ⟨root, fun k p short ne => ?_⟩
  refine Radix.slot_root (d := 4) (k := mm) (fun k' other => ?_) (fun _ _ _ _ _ _ => rfl) old ?_
    short ne
  · simp [Vmm.modifyMm, Function.update_of_ne other]
  · rw [root]
    exact new

/-! ## Who holds a frame -/

/-- A holder of a frame: a path of a space, or the operation under way. -/
abbrev Role := Option (Nat × Path)

variable {own own' : Nat → Path → Prop} {spare spare' : Option Nat} {hole : Role} {r : Role}

open Classical in
/-- What a role holds: a table its frame, a path that owns its page that page's frame. -/
noncomputable def held (s : Vmm) (own : Nat → Path → Prop) (spare : Option Nat) :
    Role → Option Nat
  | none => spare
  | some (mm, p) =>
    if (p.length ≤ 3 ∨ p.length = 4 ∧ own mm p) ∧ s.slot mm p ≠ 0 then some (pageOf (s.slot mm p))
    else none

/-- The frame an entry holds, as a table or as a claimed page. -/
theorem held_eq_some : held s own spare (some (mm, p)) = some f ↔
    (p.length ≤ 3 ∨ p.length = 4 ∧ own mm p) ∧ s.slot mm p ≠ 0 ∧ pageOf (s.slot mm p) = f := by
  simp only [held]
  split
  · rename_i met
    rw [Option.some.injEq]
    exact ⟨fun same => ⟨met.1, met.2, same⟩, fun all => all.2.2⟩
  · rename_i unmet
    exact ⟨fun absurd => (by cases absurd), fun all => absurd ⟨all.1, all.2.1⟩ unmet⟩

/-- An empty entry holds no frame. -/
theorem held_eq_none (zero : s.slot mm p = 0) : held s own spare (some (mm, p)) = none := by
  simp [held, zero]

/-- A page that is not owned is not held. -/
theorem held_shared (long : p.length = 4) (shared : ¬ own mm p) :
    held s own spare (some (mm, p)) = none := by
  simp [held, long, shared]

/-- An edit changes what the edited path holds. -/
theorem Edit.held_eq (edit : Edit s s' mm q e) (ne : r ≠ some (mm, q))
    (owns : ∀ k p, ¬ (k = mm ∧ p = q) → (own' k p ↔ own k p)) (free : r = none → spare' = spare) :
    held s' own' spare' r = held s own spare r := by
  cases r with
  | none => exact free rfl
  | some path =>
    obtain ⟨k, p⟩ := path
    have other : ¬ (k = mm ∧ p = q) := fun same => ne (by rw [same.1, same.2])
    by_cases short : p.length ≤ 4
    · ext f
      rw [held_eq_some, held_eq_some, edit.others k p short other, owns k p other]
    · have long : ¬ p.length ≤ 3 ∧ ¬ p.length = 4 := by omega
      simp [held, long.1, long.2]

/-- Every table has an entry, but for the one at the hole. -/
def Tight (s : Vmm) (hole : Role) : Prop :=
  ∀ mm p, p.length ≤ 3 → some (mm, p) ≠ hole → s.slot mm p ≠ 0 → ∃ i, s.slot mm (i :: p) ≠ 0

/-- A new entry fills the hole above it. What it leads to is the new hole. -/
theorem Tight.grow (tight : Tight s (some (mm, p))) (edit : Edit s s' mm (i :: p) e)
    (nonzero : e ≠ 0) : Tight s' (some (mm, i :: p)) := by
  intro k q short ne there
  have other : ¬ (k = mm ∧ q = i :: p) := fun same => ne (by rw [same.1, same.2])
  rw [edit.others k q (by omega) other] at there
  by_cases above : k = mm ∧ q = p
  · obtain ⟨rfl, rfl⟩ := above
    refine ⟨i, ?_⟩
    rw [edit.here]
    exact nonzero
  · obtain ⟨j, below⟩ := tight k q short (fun same => above (by cases same; exact ⟨rfl, rfl⟩)) there
    refine ⟨j, ?_⟩
    rwa [edit.others k (j :: q) (by simp only [List.length_cons]; omega)]
    intro same
    exact above ⟨same.1, (List.cons.inj same.2).2⟩

/-- A cleared entry may leave a hole above it. -/
theorem Tight.clear (tight : Tight s (some (mm, i :: p))) (edit : Edit s s' mm (i :: p) 0) :
    Tight s' (some (mm, p)) := by
  intro k q short ne there
  have other : ¬ (k = mm ∧ q = i :: p) := by
    rintro ⟨rfl, rfl⟩
    exact there edit.here
  rw [edit.others k q (by omega) other] at there
  obtain ⟨j, below⟩ := tight k q short (fun same => other (by cases same; exact ⟨rfl, rfl⟩)) there
  refine ⟨j, ?_⟩
  rwa [edit.others k (j :: q) (by simp only [List.length_cons]; omega)]
  rintro ⟨rfl, same⟩
  exact ne (by rw [(List.cons.inj same).2])

/-- Nothing hides behind a hole. -/
theorem Tight.weaken (tight : Tight s none) (hole : Role) : Tight s hole :=
  fun mm p short _ there => tight mm p short (fun absurd => (by cases absurd)) there

/-- A hole that is filled, or that is no table, is none. -/
theorem Tight.close (tight : Tight s (some (mm, p)))
    (filled : p.length ≤ 3 → s.slot mm p ≠ 0 → ∃ i, s.slot mm (i :: p) ≠ 0) : Tight s none := by
  intro k q short _ there
  by_cases same : k = mm ∧ q = p
  · obtain ⟨rfl, rfl⟩ := same
    exact filled short there
  · exact tight k q short (fun eq => same (by cases eq; exact ⟨rfl, rfl⟩)) there

/-- The invariant of the tables: every frame handed out has one holder, no table is empty but for
the one at the hole. `own` is the set of the paths that own their pages, `spare` the frame an
operation has in its hands. -/
structure Tables (rs : RegionTable) (s : Vmm) (own : Nat → Path → Prop) (spare : Option Nat)
    (hole : Role) : Prop where
  frames : FramesInv rs s.frames
  exclusive : Exclusive (held s own spare) s.frames.taken
  root : ∀ mm, (s.mms mm).p4 % pageSize = 0
  tight : Tight s hole

namespace Tables

/-- What is held is a frame of the region table. -/
theorem held_frame (tables : Tables rs s own spare hole) (holds : held s own spare r = some f) :
    IsFrame rs f :=
  tables.frames.frames f (tables.exclusive.handed r f holds)

/-- Counted tables are laid out as the walk expects. -/
theorem layout (tables : Tables rs s own spare hole) : Layout rs s := by
  have table : ∀ k p, p.length ≤ 3 → s.slot k p ≠ 0 →
      held s own spare (some (k, p)) = some (pageOf (s.slot k p)) := fun k p short here =>
    held_eq_some.mpr ⟨.inl short, here, rfl⟩
  refine ⟨fun k p short here => ?_, fun k p k' p' short short' here here' same => ?_, tables.root⟩
  · exact tables.held_frame (table k p short here)
  · have left := table k p (by omega) here
    have right := table k' p' (by omega) here'
    rw [Vmm.slot, same] at left
    have paths := tables.exclusive.unique _ _ _ left right
    simp only [Option.some.injEq, Prod.mk.injEq] at paths
    exact paths

end Tables

end Blackcomb.Mm
