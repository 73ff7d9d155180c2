import Blackcomb.Lib.Simulation
import Blackcomb.Laws.Mm.Agreement

/-!
# Virtual memory as private stores

What address spaces are for: every space is a store of bytes of its own, and nothing of frames, page
tables and reference counts is to be seen. `Stores` is that machine. Here `vmm.c` is shown to follow
it, over any word of calls: what is read through a space at an address that is not the kernel's is
what the stores have there. So a page of `anon_mmap` reads zeros, a space of `mm_dupe` reads what the
old one did and shares no byte with it, `mm_free` harms no other space, and a byte that was written
is there until it is overwritten through the same space.

**What it does not establish.** The kernel's half is not in the stores. When `pmm_alloc` fails, the
two machines part.
-/

namespace Blackcomb.Mm

open Memory Run Budget Ownership Chain

variable {rs : RegionTable} {s s' : Vmm} {mm r x : Nat} {lists areas lists' areas' : Nat → List Nat}
  {call : SpaceCall} {a : Stores}

/-! ## Stores -/

/-- What a space reads at each address, `none` where nothing is mapped. -/
abbrev Store := Nat → Option (BitVec 8)

/-- The spaces there are, named in the order of their creation. -/
structure Stores where
  made : Nat
  space : Nat → Option Store

namespace Stores

/-- One space's store replaced. -/
def modify (a : Stores) (mm : Nat) (f : Store → Store) : Stores :=
  { a with space := Function.update a.space mm ((a.space mm).map f) }

/-- One space more. -/
def add (a : Stores) (store : Option Store) : Stores where
  made := a.made + 1
  space := Function.update a.space a.made store

@[simp] theorem add_self (a : Stores) (store : Option Store) : (a.add store).space a.made = store :=
  Function.update_self ..

/-- A new space leaves the others. -/
theorem add_of_ne {a : Stores} {k : Nat} (store : Option Store) (ne : k ≠ a.made) :
    (a.add store).space k = a.space k :=
  Function.update_of_ne ne ..

@[simp] theorem modify_self (a : Stores) (mm : Nat) (f : Store → Store) :
    (a.modify mm f).space mm = (a.space mm).map f :=
  Function.update_self ..

/-- A change of one space leaves the others. -/
theorem modify_of_ne {a : Stores} {mm k : Nat} (f : Store → Store) (ne : k ≠ mm) :
    (a.modify mm f).space k = a.space k :=
  Function.update_of_ne ne ..

/-- The latest space changed. -/
theorem add_modify (a : Stores) (store : Store) (f : Store → Store) :
    (a.add (some store)).modify a.made f = a.add (some (f store)) := by
  simp [add, modify]

/-- What a call does. -/
def next : SpaceCall → Stores → Stores
  | .mmNew, a => a.add (some fun _ => none)
  | .anonMmap mm start pages _ _, a => a.modify mm fun store x =>
      if start ≤ x ∧ x < start + pages * pageSize then some 0 else store x
  | .mmDupe mm, a => a.add (a.space mm)
  | .mmFree mm, a => { a with space := Function.update a.space mm none }
  | .write mm virt byte, a => a.modify mm fun store => Function.update store virt (some byte)

/-- There is only `kernel_mm`, which is not a store. -/
def boot : Stores where
  made := 1
  space := fun _ => none

end Stores

/-- A canonical address that is not the kernel's. -/
def Private (x : Nat) : Prop :=
  x < 2 ^ 64 ∧ Canonical x ∧ ∀ a < 3, ¬ (kernelShape a).Has x

instance : Decidable (s.Mapped mm x) := inferInstanceAs (Decidable (_ ≠ 0))

/-- What is read through a space. -/
def Vmm.view (s : Vmm) (mm x : Nat) : Option (BitVec 8) :=
  if s.Mapped mm x then some (s.frames.mem (s.translate mm x)) else none

/-- The stores show what is read through the live spaces. -/
structure Shows (s : Vmm) (a : Stores) : Prop where
  made : a.made = s.nmms
  live : ∀ mm, (a.space mm).isSome ↔ s.Live mm
  reads : ∀ mm store, a.space mm = some store → ∀ x, Private x → store x = s.view mm x

/-! ## Views -/

/-- A program's page is not the kernel's. -/
theorem Private.off_kernel {a : Nat} (own : Private x) (static : a < 3) :
    ¬ InArea (kernelShape a) (pathOf x) := fun inside =>
  own.2.2 a static ((kernelShape_range a).has_of_path (fun _ => kernelShape_canonical a) own.1
    own.2.1 inside)

/-- The user half is private. -/
theorem private_of_user (user : x < 2 ^ 47) : Private x := by
  refine ⟨Nat.lt_trans user (by decide), .inl user, fun a static has => ?_⟩
  obtain ⟨k, lt, _, path⟩ := (kernelShape_range a).path_of_address has.1 has.2
  exact user_not_kernel user static ⟨k, lt, path⟩

/-- A private address is in a regular area when its page is. -/
theorem Regular.has_iff {area : VmArea} (regular : Regular area) (own : Private x) :
    InArea area (pathOf x) ↔ area.Has x :=
  ⟨regular.range.has_of_path regular.canonical own.1 own.2.1, regular.inArea⟩

/-- The addresses of regular areas are private. -/
theorem Regular.own {area : VmArea} (regular : Regular area) (has : area.Has x) : Private x := by
  have fits := regular.range.fits
  have aligned := regular.range.aligned
  refine ⟨Nat.lt_of_lt_of_le has.2 fits, ?_, fun b static both => ?_⟩
  · have lt : (x - area.start) / pageSize < area.pages := by
      rw [VmArea.Has] at has
      simp only [pageSize] at *
      omega
    have page := regular.canonical _ lt
    rw [VmArea.Has] at has
    simp only [Canonical, pageSize] at *
    omega
  · obtain ⟨k, lt, _, path⟩ := (kernelShape_range b).path_of_address both.1 both.2
    exact regular.off b static _ (regular.inArea has) ⟨k, lt, path⟩

/-- Two addresses of one page's path are one address, if they are at one place in it. -/
theorem Private.eq_of_path {y : Nat} (ownX : Private x) (ownY : Private y)
    (path : pathOf x = pathOf y) (offset : x % pageSize = y % pageSize) : x = y := by
  obtain ⟨ltX, canonicalX, _⟩ := ownX
  obtain ⟨ltY, canonicalY, _⟩ := ownY
  rw [pathOf_eq_iff] at path
  simp only [Canonical, pageSize] at *
  omega

section View

variable (spaces : Spaces rs s lists areas)

include spaces

/-- What a program sees at a mapped address is the byte in its page's frame. -/
theorem Spaces.view_eq (mapped : s.Mapped mm x) :
    s.view mm x = some (s.frames.mem (pageOf (s.slot mm (pathOf x)) + x % pageSize)) := by
  rw [Vmm.view, if_pos mapped, spaces.translate_eq mapped]

omit spaces in
/-- It sees nothing where nothing is mapped. -/
theorem view_none (unmapped : s.slot mm (pathOf x) = 0) : s.view mm x = none :=
  if_neg (not_not.mpr unmapped)

/-- What is mapped at a private address is a page of a regular area. -/
theorem Spaces.private_area (live : s.Live mm) (own : Private x) (mapped : s.Mapped mm x) :
    ∃ r ∈ areas mm, InArea (s.vmas r) (pathOf x) := by
  by_contra none
  exact mapped ((spaces.space mm live).unmapped _ (pathOf_length x)
    (fun r mem inside => none ⟨r, mem, inside⟩) fun a static => own.off_kernel static)

/-- An entry and a page that stay are read as before. -/
theorem Spaces.view_kept (spaces' : Spaces rs s' lists' areas')
    (slot : s'.slot mm (pathOf x) = s.slot mm (pathOf x))
    (page : s.Mapped mm x → SameFrame s.frames.mem s'.frames.mem (pageOf (s.slot mm (pathOf x)))) :
    s'.view mm x = s.view mm x := by
  by_cases mapped : s.Mapped mm x
  · have mapped' : s'.Mapped mm x := by
      rw [Vmm.Mapped, slot]
      exact mapped
    have inPage : x % pageSize < pageSize := Nat.mod_lt _ (by decide)
    rw [spaces'.view_eq mapped', spaces.view_eq mapped, slot]
    exact congrArg some (page mapped _ (Nat.le_add_right _ _) (Nat.add_lt_add_left inPage _))
  · have none := not_not.mp mapped
    rw [view_none none, view_none (slot.trans none)]

/-- So is a space, by a call that keeps its entries and the pages of live spaces. -/
theorem Spaces.view_beside (spaces' : Spaces rs s' lists' areas') (live : s.Live mm)
    (slots : ∀ p : Path, p.length ≤ 4 → s'.slot mm p = s.slot mm p)
    (pages : ∀ g, PageFrame s (owns s areas) none g → SameFrame s.frames.mem s'.frames.mem g)
    (own : Private x) : s'.view mm x = s.view mm x := by
  refine spaces.view_kept spaces' (slots _ (pathOf_length x).le) fun mapped => pages _ ?_
  obtain ⟨r, mem, inside⟩ := spaces.private_area live own mapped
  exact .inr ⟨mm, _, pathOf_length x, .inr ⟨live, r, mem, inside⟩, mapped, rfl⟩

end View

/-! ## What a call does to the stores -/

namespace Shows

variable (shows : Shows s a)

include shows

/-- One space more. -/
theorem add {store : Store} (nmms : s'.nmms = s.nmms + 1)
    (live : ∀ k, s'.Live k ↔ s.Live k ∨ k = s.nmms)
    (others : ∀ k, s.Live k → ∀ x, Private x → s'.view k x = s.view k x)
    (reads : ∀ x, Private x → store x = s'.view s.nmms x) : Shows s' (a.add (some store)) := by
  have made : (a.add (some store)).made = a.made + 1 := rfl
  refine ⟨by rw [made, shows.made, nmms], fun k => ?_, fun k seen space x own => ?_⟩
  · rw [live, ← shows.made]
    by_cases new : k = a.made
    · subst new
      simp
    · rw [Stores.add_of_ne _ new, shows.live]
      simp [new]
  · by_cases new : k = a.made
    · subst new
      rw [Stores.add_self] at space
      obtain rfl := Option.some.inj space
      rw [shows.made]
      exact reads x own
    · rw [Stores.add_of_ne _ new] at space
      have alive : s.Live k := (shows.live k).mp (Option.isSome_iff_exists.mpr ⟨seen, space⟩)
      rw [others k alive x own]
      exact shows.reads k seen space x own

/-- One space changed. -/
theorem modify {f : Store → Store} (nmms : s'.nmms = s.nmms) (live : ∀ k, s'.Live k ↔ s.Live k)
    (others : ∀ k, k ≠ mm → s.Live k → ∀ x, Private x → s'.view k x = s.view k x)
    (reads : ∀ store, (∀ x, Private x → store x = s.view mm x) →
      ∀ x, Private x → f store x = s'.view mm x) : Shows s' (a.modify mm f) := by
  refine ⟨by rw [nmms]; exact shows.made, fun k => ?_, fun k seen space x own => ?_⟩
  · rw [live, ← shows.live]
    by_cases here : k = mm
    · subst here
      simp
    · rw [Stores.modify_of_ne f here]
  · by_cases here : k = mm
    · subst here
      rw [Stores.modify_self, Option.map_eq_some_iff] at space
      obtain ⟨store, before, rfl⟩ := space
      exact reads store (shows.reads k store before) x own
    · rw [Stores.modify_of_ne f here] at space
      have alive : s.Live k := (shows.live k).mp (Option.isSome_iff_exists.mpr ⟨seen, space⟩)
      rw [others k here alive x own]
      exact shows.reads k seen space x own

/-- One space less. -/
theorem free (nmms : s'.nmms = s.nmms) (live : ∀ k, s'.Live k ↔ s.Live k ∧ k ≠ mm)
    (others : ∀ k, k ≠ mm → s.Live k → ∀ x, Private x → s'.view k x = s.view k x) :
    Shows s' { a with space := Function.update a.space mm none } := by
  refine ⟨by rw [nmms]; exact shows.made, fun k => ?_, fun k seen space x own => ?_⟩
  · show (Function.update a.space mm none k).isSome ↔ _
    rw [live, ← shows.live]
    by_cases here : k = mm
    · subst here
      simp
    · rw [Function.update_of_ne here]
      simp [here]
  · change Function.update a.space mm none k = some seen at space
    by_cases here : k = mm
    · subst here
      rw [Function.update_self] at space
      cases space
    · rw [Function.update_of_ne here] at space
      have alive : s.Live k := (shows.live k).mp (Option.isSome_iff_exists.mpr ⟨seen, space⟩)
      rw [others k here alive x own]
      exact shows.reads k seen space x own

end Shows

section Calls

variable (spaces : Spaces rs s lists areas) (told : Shows s a)

include spaces told

/-- `mm_new`: an empty store. -/
theorem Born.shows (born : Born rs s s' lists areas) : Shows s' (a.next .mmNew) := by
  refine told.add born.nmms (fun k => born.live_iff spaces) (fun k live x own => ?_)
    fun x own => ?_
  · exact spaces.view_beside born.spaces live
      (fun p short => born.slots k p short (Nat.ne_of_lt live.2.1)) born.pages own
  · have alive : s'.Live s.nmms := (born.live_iff spaces).mpr (.inr rfl)
    refine (view_none ((born.spaces.space _ alive).unmapped _ (pathOf_length x) (fun r mem => ?_)
      fun b static => own.off_kernel static)).symm
    rw [Function.update_self] at mem
    cases mem

/-- `anon_mmap`: zeros on the range, the rest as it was. -/
theorem Mmapped.shows {start n prot : Nat} {user : Bool} {frame : Nat → Nat} (live : s.Live mm)
    (mapped : Mmapped rs s s' lists areas mm start n prot user frame) :
    Shows s' (a.next (.anonMmap mm start n prot user)) := by
  have regular : Regular (s'.vmas s.nvmas) := by
    refine (mapped.spaces.space mm (mapped.live_iff.mpr live)).regular _ ?_
    rw [Function.update_self]
    exact List.mem_cons_self
  rw [mapped.area] at regular
  refine told.modify mapped.live.1 (fun k => mapped.live_iff) (fun k ne live x own => ?_)
    fun store before x own => ?_
  · exact spaces.view_beside mapped.spaces live (fun p short => mapped.slots k p short ne)
      mapped.pages own
  · by_cases inside : start ≤ x ∧ x < start + n * pageSize
    · rw [if_pos inside]
      -- the page is the frame that was allocated for it, zeroed
      obtain ⟨k, lt, path⟩ : ∃ k < n, pathOf x = pageAt start k := regular.inArea inside
      have slot := mapped.here k lt
      rw [← path] at slot
      have there : s'.Mapped mm x := by
        have mem : s.nvmas ∈ Function.update areas mm (s.nvmas :: areas mm) mm := by
          rw [Function.update_self]
          exact List.mem_cons_self
        refine ((mapped.spaces.space mm (mapped.live_iff.mpr live)).mapped _ mem _ ?_).1
        rw [mapped.area]
        exact ⟨k, lt, path⟩
      have inPage : x % pageSize < pageSize := Nat.mod_lt _ (by decide)
      rw [mapped.spaces.view_eq there, slot,
        pageOf_or (mapped.isFrame k lt).aligned (pageFlags_lt prot user)]
      exact congrArg some (mapped.zeroed k lt _ (Nat.le_add_right _ _)
        (Nat.add_lt_add_left inPage _)).symm
    · rw [if_neg inside, before x own]
      have other : ∀ k < n, pathOf x ≠ pageAt start k := fun k lt path =>
        inside ((regular.has_iff own).mp ⟨k, lt, path⟩)
      refine (spaces.view_kept mapped.spaces (mapped.others _ (pathOf_length x) other)
        fun there => mapped.pages _ ?_).symm
      obtain ⟨r, mem, within⟩ := spaces.private_area live own there
      exact .inr ⟨mm, _, pathOf_length x, .inr ⟨live, r, mem, within⟩, there, rfl⟩

/-- `mm_dupe`: the same store once more. -/
theorem Copying.shows (live : s.Live mm)
    (copying : Copying rs s s' lists areas lists' areas' mm (areas mm).reverse) :
    Shows s' (a.next (.mmDupe mm)) := by
  obtain ⟨store, space⟩ := Option.isSome_iff_exists.mp ((told.live mm).mpr live)
  show Shows s' (a.add (a.space mm))
  rw [space]
  refine told.add copying.nmms (fun k => copying.live_iff spaces) (fun k live x own => ?_)
    fun x own => ?_
  · exact spaces.view_beside copying.spaces live
      (fun p short => copying.slots k p short (Nat.ne_of_lt live.2.1)) copying.pages own
  · rw [told.reads mm store space x own]
    by_cases mapped : s.Mapped mm x
    · obtain ⟨r, mem, inside⟩ := spaces.private_area live own mapped
      have has := (((spaces.space mm live).regular r mem).has_iff own).mp inside
      obtain ⟨mapped', _, _, _, bytes⟩ := copying.regular_page spaces live mem has
      rw [Vmm.view, Vmm.view, if_pos mapped, if_pos mapped', bytes]
    · rw [view_none (not_not.mp mapped)]
      refine (view_none (not_not.mp fun mapped' => ?_)).symm
      obtain ⟨r, listed, inside⟩ := copying.only_pages spaces live mapped'
      rw [(spaces.space mm live).areasOf_eq] at listed
      exact mapped ((spaces.space mm live).all_mapped spaces.kernel listed inside)

/-- `mm_free`: the store is gone, the others stay. -/
theorem Freeing.shows {t : Vmm} (live : s.Live mm) (calls : List (Nat × Bool))
    (freeing : Freeing rs s t areas mm []) :
    Shows { t with freedMms := mm :: t.freedMms, pmmFrees := calls } (a.next (.mmFree mm)) := by
  have spaces' := (freeing.freed_spaces spaces live).marked calls
  refine told.free freeing.named.2.2 (fun k => freeing.live_iff) fun k ne alive x own => ?_
  refine spaces.view_kept spaces' (freeing.slots k _ (pathOf_length x).le ne) fun mapped =>
    freeing.pages _ ?_
  obtain ⟨r, mem, inside⟩ := spaces.private_area alive own mapped
  exact .inr ⟨k, _, pathOf_length x, .inl ⟨ne, .inr ⟨alive, r, mem, inside⟩⟩, mapped, rfl⟩

end Calls

section Write

variable {byte : BitVec 8} {virt : Nat} (spaces : Spaces rs s lists areas) (live : s.Live mm)
  (mem : r ∈ areas mm) (has : (s.vmas r).Has virt)

include spaces live mem has

/-- Pages other than the written one keep their bytes. -/
theorem Spaces.write_kept {k : Nat} (alive : s.Live k) (own : Private x) (mapped : s.Mapped k x)
    (ne : ¬ (mm = k ∧ pathOf virt = pathOf x)) : SameFrame s.frames.mem
      (Function.update s.frames.mem (s.translate mm virt) byte) (pageOf (s.slot k (pathOf x))) := by
  intro y low high
  have inside := ((spaces.space mm live).regular r mem).inArea has
  obtain ⟨owned, there, address⟩ := spaces.translate live mem inside
  have page : PageFrame s (owns s areas) none (pageOf (s.slot mm (pathOf virt))) :=
    .inr ⟨mm, _, pathOf_length virt, owned, there, rfl⟩
  obtain ⟨q, memQ, insideQ⟩ := spaces.private_area alive own mapped
  have ownedX : owns s areas k (pathOf x) := .inr ⟨alive, q, memQ, insideQ⟩
  have pageX : PageFrame s (owns s areas) none (pageOf (s.slot k (pathOf x))) :=
    .inr ⟨k, _, pathOf_length x, ownedX, mapped, rfl⟩
  have frames := spaces.tables.page_ne (pathOf_length virt) (pathOf_length x) owned ownedX there
    mapped ne
  have apart := (page.frame spaces.tables).apart (pageX.frame spaces.tables) frames
  have inPage : virt % pageSize < pageSize := Nat.mod_lt _ (by decide)
  rw [address]
  exact Function.update_of_ne (by omega) _ _

/-- A write: one byte of one store. -/
theorem Spaces.write_shows (told : Shows s a) :
    Shows (s.setMem (Function.update s.frames.mem (s.translate mm virt) byte))
      (a.next (.write mm virt byte)) := by
  have regular := (spaces.space mm live).regular r mem
  have inside := regular.inArea has
  obtain ⟨spaces', same⟩ := spaces.write live byte mem inside
  obtain ⟨_, there, address⟩ := spaces.translate live mem inside
  have mapped' : ∀ y, s.Mapped mm y →
      (s.setMem (Function.update s.frames.mem (s.translate mm virt) byte)).Mapped mm y := by
    intro y mapped
    rw [Vmm.Mapped, same mm _ (pathOf_length y).le]
    exact mapped
  refine told.modify rfl (fun _ => Iff.rfl) (fun k ne alive x own => ?_) fun store before x own => ?_
  · exact spaces.view_kept spaces' (same k _ (pathOf_length x).le) fun mapped =>
      spaces.write_kept live mem has alive own mapped fun both => ne both.1.symm
  · by_cases here : x = virt
    · subst here
      rw [Function.update_self, Vmm.view, if_pos (mapped' x there), spaces'.translate_eq (mapped' x there),
        same mm _ (pathOf_length x).le, ← address]
      have written : (s.setMem (Function.update s.frames.mem (s.translate mm x) byte)).frames.mem
          (s.translate mm x) = byte := Function.update_self ..
      rw [written]
    · rw [Function.update_of_ne here, before x own]
      by_cases path : pathOf virt = pathOf x
      · -- another byte of the same page
        have mapped : s.Mapped mm x := by
          rw [Vmm.Mapped, ← path]
          exact there
        have offset : x % pageSize ≠ virt % pageSize := fun equal =>
          here (own.eq_of_path (regular.own has) path.symm equal)
        rw [spaces.view_eq mapped, spaces'.view_eq (mapped' x mapped), same mm _ (pathOf_length x).le,
          address, ← path]
        exact congrArg some (Function.update_of_ne (by omega) _ _).symm
      · exact (spaces.view_kept spaces' (same mm _ (pathOf_length x).le) fun mapped =>
          spaces.write_kept live mem has live own mapped fun both => path both.2).symm

end Write

/-! ## Every run -/

/-- The invariant, and the stores that are shown. -/
def Keeps (rs : RegionTable) (s : Vmm) (a : Stores) : Prop :=
  (∃ lists areas, Spaces rs s lists areas) ∧ Shows s a

/-- A call is a step of the stores. -/
theorem stores_simulated : Simulates (Vmm.step rs) (Vmm.Permitted rs) (fun s => s.ranOut = true)
    (fun call a b => b = Stores.next call a) (Keeps rs) where
  sticky _ _ _ taken := step_ranOut taken
  step := by
    rintro call s s' a met met' ⟨⟨lists, areas, spaces⟩, told⟩ allowed taken
    have took := spaces.took met allowed taken met'
    refine ⟨_, rfl, spaces.step took, ?_⟩
    cases took with
    | mmNew born => exact born.shows spaces told
    | anonMmap live mapped => exact mapped.shows spaces told live
    | mmDupe copying =>
      exact copying.shows spaces told allowed
    | mmFree live freeing _ left =>
      rw [left]
      exact freeing.shows spaces told live _
    | write live mem inside left =>
      rw [left]
      obtain ⟨_, r, listed, type, has⟩ := allowed
      exact spaces.write_shows live ((spaces.mem_areasOf live).mp ⟨listed, type⟩) has told

/-- A permitted call that returned is the abstract one. -/
theorem Spaces.told_step (spaces : Spaces rs s lists areas) (told : Shows s a)
    (met' : ¬ s'.ranOut = true) (allowed : Vmm.Permitted rs call s)
    (taken : Vmm.step rs call s = .ok s') : Shows s' (a.next call) := by
  have met : ¬ s.ranOut = true := fun out => met' (step_ranOut taken out)
  obtain ⟨_, rfl, _, told'⟩ := stores_simulated.step call s s' a met met'
    ⟨⟨lists, areas, spaces⟩, told⟩ allowed taken
  exact told'

/-- `kernel_mm_init` leaves no space but `kernel_mm`. -/
theorem shows_boot (nmms : s.nmms = 1) : Shows s Stores.boot := by
  refine ⟨nmms.symm, fun k => ?_, fun k store space => (by cases space)⟩
  refine iff_of_false (by simp [Stores.boot]) fun live => ?_
  have := live.1
  have := live.2.1
  omega

/-- Virtual memory refines private stores. After any calls on address spaces, made as they may be,
that did not run out of frames, the live spaces are those of the specification, and what is read
through one at an address that is not the kernel's is what its store has there, whatever the calls on
the others were. -/
theorem vmm_refines_stores (rs : RegionTable) (m : Bytes) (s₀ s : Vmm) (calls : List SpaceCall)
    (booted : kernelMmInit rs 0 (Vmm.boot rs m) = .ok ((), s₀))
    (permitted : Guarded (Vmm.step rs) (Vmm.Permitted rs) s₀ calls)
    (ran : follow (Vmm.step rs) s₀ calls = .ok s) (met : s.ranOut = false) :
    Shows s (calls.foldl (fun a call => a.next call) Stores.boot) := by
  have met' := ne_true_of_eq_false met
  have start := stores_simulated.before ran met'
  obtain ⟨spaces, _, nmms⟩ := (kernelMmInit_runs rs m).safe booted start
  exact (stores_simulated.follow_foldl permitted ran met'
    ⟨⟨_, _, spaces⟩, shows_boot nmms⟩).2

/-- A page is mapped, the space duplicated, and a byte written through the old one. -/
def forkedCalls (mm : Nat) : List SpaceCall :=
  [.mmNew, .anonMmap mm 0x400000 1 3 true, .mmDupe mm, .write mm 0x400000 7]

/-- The sample: a fork and writes on both sides. -/
theorem exists_forkedCalls : ∃ s₀ s,
    kernelMmInit wideTable 0 (Vmm.boot wideTable fun _ => 0) = .ok ((), s₀) ∧
      Guarded (Vmm.step wideTable) (Vmm.Permitted wideTable) s₀ (forkedCalls 1) ∧
      follow (Vmm.step wideTable) s₀ (forkedCalls 1) = .ok s ∧ s.ranOut = false := by
  obtain ⟨s₀, booted, met₀, left₀, spaces₀, one⟩ := wide_booted
  obtain ⟨mm, s₁, new, met₁, left₁, rfl, born⟩ := (mmNew_runs spaces₀ met₀).total (by omega)
  have live : s₁.Live s₀.nmms := (born.live_iff spaces₀).mpr (.inr rfl)
  have none : ∀ r ∈ Function.update (fun _ => []) s₀.nmms [] s₀.nmms, ∀ k < 1,
      ¬ InArea (s₁.vmas r) (pageAt 0x400000 k) := by
    intro r mem
    rw [Function.update_self] at mem
    cases mem
  have regular : Regular (anonArea 0x400000 1 3 true) := by
    refine ⟨rfl, ⟨by decide, by decide, by decide⟩, user_canonical (by decide), by decide, ?_⟩
    rintro b hb v ⟨k, lt, rfl⟩
    exact user_off_kernel (by decide) lt hb
  obtain ⟨_, s₂, page, met₂, left₂, frame, mapped⟩ :=
    (anonMmap_runs born.spaces met₁ live regular none).total (by omega)
  have live₂ : s₂.Live s₀.nmms := mapped.live_iff.mpr live
  have listed : Function.update (Function.update (fun _ => []) s₀.nmms []) s₀.nmms
      (s₁.nvmas :: Function.update (fun _ => []) s₀.nmms [] s₀.nmms) s₀.nmms = [s₁.nvmas] := by
    rw [Function.update_self, Function.update_self]
  have budget : ([s₁.nvmas].map fun r => (s₂.vmas r).pages * 5).sum = 5 := by
    rw [List.map_singleton, List.sum_singleton, mapped.area, Nat.one_mul]
  have dupes := mmDupe_runs mapped.spaces met₂ live₂
  rw [listed, budget] at dupes
  obtain ⟨k, s₃, dupe, met₃, _, rfl, lists', areas', copying⟩ := dupes.total (by omega)
  have live₃ : s₃.Live s₀.nmms := (copying.live_iff mapped.spaces).mpr (.inl live₂)
  have mem : s₁.nvmas ∈ areas' s₀.nmms := by
    rw [(copying.same _ (Nat.ne_of_lt live₂.2.1)).2, listed]
    exact List.mem_singleton_self _
  have area : s₃.vmas s₁.nvmas = s₂.vmas s₁.nvmas := by
    refine copying.areas _ ?_ born.spaces.kernel.named.2.1
    rw [mapped.named.2]
    exact Nat.lt_succ_self _
  have taken₁ : Vmm.step wideTable .mmNew s₀ = .ok s₁ := congrArg (Except.map Prod.snd) new
  have taken₂ : Vmm.step wideTable (.anonMmap s₀.nmms 0x400000 1 3 true) s₁ = .ok s₂ :=
    congrArg (Except.map Prod.snd) page
  have taken₃ : Vmm.step wideTable (.mmDupe s₀.nmms) s₂ = .ok s₃ :=
    congrArg (Except.map Prod.snd) dupe
  have allowed₂ : Vmm.Permitted wideTable (.anonMmap s₀.nmms 0x400000 1 3 true) s₁ := by
    refine ⟨live, by decide, user_canonical (by decide), fun r mem x low high has => ?_⟩
    rw [(born.spaces.space _ live).areasOf_eq, Function.update_self, List.nil_append,
      mem_kernelAreas] at mem
    have upper := born.spaces.kernel.upper mem
    have := has.1
    simp only [pageSize] at high
    omega
  have allowed₄ : Vmm.Permitted wideTable (.write s₀.nmms 0x400000 7) s₃ := by
    obtain ⟨there, type⟩ := (copying.spaces.mem_areasOf live₃).mpr mem
    refine ⟨live₃, s₁.nvmas, there, type, ?_⟩
    rw [area, mapped.area]
    decide
  rw [← one]
  refine ⟨s₀, s₃.setMem (Function.update s₃.frames.mem (s₃.translate s₀.nmms 0x400000) 7), booted,
    .cons taken₁ trivial (.cons taken₂ allowed₂ (.cons taken₃ live₂ (.cons rfl allowed₄ trivial))), ?_,
    Bool.eq_false_of_not_eq_true met₃⟩
  rw [forkedCalls, follow_cons taken₁, follow_cons taken₂, follow_cons taken₃]
  rfl

/-- The byte is read through the old space, and the new one has the zero. -/
theorem vmm_refines_stores_forked : ∃ s₀ s,
    kernelMmInit wideTable 0 (Vmm.boot wideTable fun _ => 0) = .ok ((), s₀) ∧
      follow (Vmm.step wideTable) s₀ (forkedCalls 1) = .ok s ∧ s.Live 1 ∧ s.Live 2 ∧
      s.view 1 0x400000 = some 7 ∧ s.view 2 0x400000 = some 0 ∧ s.view 2 0x401000 = none := by
  obtain ⟨s₀, s, booted, permitted, ran, met⟩ := exists_forkedCalls
  have told := vmm_refines_stores wideTable (fun _ => 0) s₀ s (forkedCalls 1) booted permitted ran met
  have user : ∀ x < 2 ^ 47, Private x := fun x => private_of_user
  refine ⟨s₀, s, booted, ran, (told.live 1).mp (by decide), (told.live 2).mp (by decide), ?_, ?_, ?_⟩
  · exact (told.reads 1 _ rfl _ (user _ (by decide))).symm
  · exact (told.reads 2 _ rfl _ (user _ (by decide))).symm
  · exact (told.reads 2 _ rfl _ (user _ (by decide))).symm

end Blackcomb.Mm
