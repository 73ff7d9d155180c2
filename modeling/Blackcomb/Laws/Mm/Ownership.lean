import Mathlib.Order.Interval.Finset.Nat
import Blackcomb.Laws.Mm.Boot
import Blackcomb.Laws.Mm.Fork

/-!
# Who owns a frame

Runs of `mm_new`, `anon_mmap`, `mm_dupe`, `mm_free` and of writes to mapped memory, from
`kernel_mm_init` on. As long as `pmm_alloc` has a frame to return, the invariant of address spaces
holds in every state of a run, and a frame that was handed out has exactly one role: a node of one
space's tables, a page of the kernel heap, or a page of one regular area of one live space.

**What it does not establish.** After `pmm_alloc` has failed, address `0` plays roles that no frame
has; `Exhaustion` goes on from there.
-/

namespace Blackcomb.Mm

open Memory Run Budget Ownership Chain

variable {rs : RegionTable} {s s' t s₀ : Vmm} {mm k n r f : Nat} {v p : Path}
  {lis regs : List Nat} {lists areas : Nat → List Nat} {call : SpaceCall}

/-! ## Lists of areas -/

/-- A list is what following `next` visits. -/
theorem nodes_eq {prev : Option Nat} (enough : lis.length ≤ n)
    (linked : Seg id (fun l => (s.lis l).next) (fun l => (s.lis l).prev) prev lis none) :
    s.nodes n lis.head? = lis := by
  induction lis generalizing n prev with
  | nil =>
    cases n with
    | zero => rfl
    | succ n => rfl
  | cons l ls ih =>
    obtain ⟨n, rfl⟩ : ∃ k, n = k + 1 := by
      rw [List.length_cons] at enough
      exact ⟨n - 1, by omega⟩
    have next : (s.lis l).next = ls.head? := by
      simpa using linked.2.1
    rw [List.head?_cons, Vmm.nodes, next, ih (Nat.le_of_succ_le_succ enough) linked.2.2]

/-- A space's list is its own areas and then the kernel's three. -/
theorem Space.areasOf_eq (space : Space s mm lis regs) : s.areasOf mm = regs ++ [2, 1, 0] := by
  have listed := space.listed
  have enough : lis.length ≤ s.nlis :=
    length_le_of_nodup listed.nodup fun l mem => (listed.bound l mem).2
  rw [Vmm.areasOf, listed.head, nodes_eq enough listed.linked]
  exact space.areas

/-- The regular areas of a live space. -/
theorem Spaces.mem_areasOf (spaces : Spaces rs s lists areas) (live : s.Live mm) :
    r ∈ s.areasOf mm ∧ (s.vmas r).type = .reg ↔ r ∈ areas mm := by
  have space := spaces.space mm live
  rw [space.areasOf_eq, List.mem_append, mem_kernelAreas]
  constructor
  · rintro ⟨mem | static, type⟩
    · exact mem
    · have kind := (VmArea.shape_inj ((spaces.kernel.shape r static).trans
        (kernelShape_shape r).symm)).1
      rw [kind] at type
      unfold kernelShape at type
      split at type <;> cases type
  · intro mem
    exact ⟨.inl mem, (space.regular r mem).type⟩

/-! ## Addresses of areas -/

/-- An address in an area. -/
def VmArea.Has (a : VmArea) (virt : Nat) : Prop :=
  a.start ≤ virt ∧ virt < a.start + a.pages * pageSize

instance (a : VmArea) (virt : Nat) : Decidable (a.Has virt) :=
  inferInstanceAs (Decidable (_ ∧ _))

/-- The page of an address of an area. -/
theorem Range.path_of_address {start virt : Nat} (range : Range start n) (low : start ≤ virt)
    (high : virt < start + n * pageSize) :
    ∃ k < n, virt / pageSize = start / pageSize + k ∧ pathOf virt = pageAt start k := by
  have aligned := range.aligned
  refine ⟨(virt - start) / pageSize, ?_, ?_, ?_⟩
  · simp only [pageSize] at *
    omega
  · simp only [pageSize] at *
    omega
  · have lt : (virt - start) / pageSize < n := by
      simp only [pageSize] at *
      omega
    rw [pageAt, pathOf_eq_iff, range.add64_eq lt]
    simp only [pageSize] at *
    omega

/-- An address of a program's area is in it as a page, too. -/
theorem Regular.inArea {a : VmArea} {virt : Nat} (regular : Regular a) (has : a.Has virt) :
    InArea a (pathOf virt) := by
  obtain ⟨k, lt, _, path⟩ := regular.range.path_of_address has.1 has.2
  exact ⟨k, lt, path⟩

/-- An address of a kernel area is of a page of it, which has its entry in `kernel_mm`. -/
theorem KernelSpace.entry {a virt : Nat} (kernel : KernelSpace s) (static : a < 3)
    (has : (s.vmas a).Has virt) : InArea (kernelShape a) (pathOf virt) ∧
      s.slot 0 (pathOf virt) ≠ 0 ∧ s.slot 0 (pathOf virt) % pageSize = 3 := by
  obtain ⟨_, start, pages, _⟩ :=
    VmArea.shape_inj ((kernel.shape a static).trans (kernelShape_shape a).symm)
  rw [VmArea.Has, start, pages] at has
  obtain ⟨k, lt, _, path⟩ := (kernelShape_range a).path_of_address has.1 has.2
  exact ⟨⟨k, lt, path⟩, kernel.mapped a static _ ⟨k, lt, path⟩⟩

/-! ## Runs -/

/-- When calls are made: on live spaces, `anon_mmap` of a range of the user half that overlaps no
area, `mm_free` while another space stays and if no region has the address `0`, writes to addresses
of regular areas. -/
def Vmm.Allowed (rs : RegionTable) : SpaceCall → Vmm → Prop
  | .mmNew, _ => True
  | .anonMmap mm start pages _ _, s => s.Live mm ∧ start + pages * pageSize ≤ 2 ^ 47 ∧
      ∀ r ∈ s.areasOf mm, ∀ x, start ≤ x → x < start + pages * pageSize → ¬ (s.vmas r).Has x
  | .mmDupe mm, s => s.Live mm
  | .mmFree mm, s => s.Live mm ∧ (∃ k, k ≠ mm ∧ s.Live k) ∧ ∀ r ∈ rs.regions, 0 < r.start
  | .write mm virt _, s =>
      s.Live mm ∧ ∃ r ∈ s.areasOf mm, (s.vmas r).type = .reg ∧ (s.vmas r).Has virt

/-- The same, with `anon_mmap` on any range of canonical addresses that overlaps no area. -/
def Vmm.Permitted (rs : RegionTable) : SpaceCall → Vmm → Prop
  | .anonMmap mm start pages _ _, s => s.Live mm ∧ start + pages * pageSize ≤ 2 ^ 64 ∧
      (∀ k < pages, Canonical (start + k * pageSize)) ∧
      ∀ r ∈ s.areasOf mm, ∀ x, start ≤ x → x < start + pages * pageSize → ¬ (s.vmas r).Has x
  | call, s => s.Allowed rs call

/-- The user half is canonical. -/
theorem user_canonical {start : Nat} (upper : start + n * pageSize ≤ 2 ^ 47) (k : Nat) (lt : k < n) :
    Canonical (start + k * pageSize) := by
  apply Or.inl
  simp only [pageSize] at *
  omega

/-- The claims' calls are permitted ones. -/
theorem Vmm.Allowed.permitted (allowed : s.Allowed rs call) : s.Permitted rs call := by
  cases call with
  | anonMmap mm start pages prot user =>
    obtain ⟨live, upper, apart⟩ := allowed
    exact ⟨live, Nat.le_trans upper (by decide), user_canonical upper, apart⟩
  | mmNew => exact allowed
  | mmDupe mm => exact allowed
  | mmFree mm => exact allowed
  | write mm virt byte => exact allowed

/-- A call whose result is dropped returned what it returned. -/
theorem map_eq_ok {α : Type} {x : Except Fault (α × Vmm)} (ran : (·.2) <$> x = .ok s') :
    ∃ a, x = .ok (a, s') := by
  cases x with
  | error e => cases ran
  | ok out =>
    cases ran
    exact ⟨out.1, rfl⟩

/-- A write through a space, to the frame of a page it owns. -/
theorem Spaces.translate (spaces : Spaces rs s lists areas) (live : s.Live mm) {virt : Nat}
    (mem : r ∈ areas mm) (inside : InArea (s.vmas r) (pathOf virt)) :
    owns s areas mm (pathOf virt) ∧ s.slot mm (pathOf virt) ≠ 0 ∧
      s.translate mm virt = pageOf (s.slot mm (pathOf virt)) + virt % pageSize := by
  have there := ((spaces.space mm live).mapped r mem _ inside).1
  refine ⟨.inr ⟨live, r, mem, inside⟩, there, ?_⟩
  rw [Vmm.translate, Vmm.vmmGetPhys, leafEntry_eq spaces.tables.layout virt there]

/-- A byte of an owned page is written: the invariant holds, no entry changes. -/
theorem Spaces.write (spaces : Spaces rs s lists areas) (live : s.Live mm) {virt : Nat}
    (byte : BitVec 8) (mem : r ∈ areas mm) (inside : InArea (s.vmas r) (pathOf virt)) :
    Spaces rs (s.setMem (Function.update s.frames.mem (s.translate mm virt) byte)) lists areas ∧
      ∀ k p, p.length ≤ 4 → (s.setMem (Function.update s.frames.mem (s.translate mm virt) byte)).slot
        k p = s.slot k p := by
  obtain ⟨owned, there, address⟩ := spaces.translate live mem inside
  have page : PageFrame s (owns s areas) none (pageOf (s.slot mm (pathOf virt))) :=
    .inr ⟨mm, _, pathOf_length virt, owned, there, rfl⟩
  have inPage : virt % pageSize < pageSize := Nat.mod_lt _ (by decide)
  rw [address]
  have outside : ∀ a, a < pageOf (s.slot mm (pathOf virt)) ∨
      pageOf (s.slot mm (pathOf virt)) + pageSize ≤ a →
      Function.update s.frames.mem (pageOf (s.slot mm (pathOf virt)) + virt % pageSize) byte a =
        s.frames.mem a := fun a out => Function.update_of_ne (by omega) _ _
  obtain ⟨tables, same⟩ := spaces.tables.writePage page outside
  exact ⟨spaces.setMem tables same, same⟩

/-- A range that overlaps no area of a space can become one. -/
theorem Spaces.anon_regular {start prot : Nat} {user : Bool} (spaces : Spaces rs s lists areas)
    (live : s.Live mm) (range : Range start n) (canonical : ∀ k < n, Canonical (start + k * pageSize))
    (apart : ∀ r ∈ s.areasOf mm, ∀ x, start ≤ x → x < start + n * pageSize → ¬ (s.vmas r).Has x) :
    Regular (anonArea start n prot user) ∧
      ∀ r ∈ areas mm, ∀ k < n, ¬ InArea (s.vmas r) (pageAt start k) := by
  have space := spaces.space mm live
  have free : ∀ r ∈ areas mm ++ [2, 1, 0], ∀ k < n, ¬ InArea (s.vmas r) (pageAt start k) := by
    intro r mem k lt
    rw [space.areasOf_eq] at apart
    exact (space.all_range spaces.kernel mem).no_common
      (fun j less => space.all_canonical spaces.kernel mem less) range canonical (apart r mem) lt
  refine ⟨⟨rfl, range, canonical, Nat.mod_lt _ (by decide), ?_⟩, fun r mem => ?_⟩
  · rintro b hb v ⟨k, lt, rfl⟩ inside
    rw [← spaces.kernel.inArea_iff hb] at inside
    exact free b (List.mem_append_right _ (mem_kernelAreas.mpr hb)) k lt inside
  · exact free r (List.mem_append_left _ mem)

/-- What a permitted call did. -/
inductive Took (rs : RegionTable) (s s' : Vmm) (lists areas : Nat → List Nat) : SpaceCall → Prop
  | mmNew (born : Born rs s s' lists areas) : Took rs s s' lists areas .mmNew
  | anonMmap {mm start pages prot : Nat} {user : Bool} {frame : Nat → Nat} (live : s.Live mm)
      (mapped : Mmapped rs s s' lists areas mm start pages prot user frame) :
      Took rs s s' lists areas (.anonMmap mm start pages prot user)
  | mmDupe {mm : Nat} {lists' areas' : Nat → List Nat}
      (copying : Copying rs s s' lists areas lists' areas' mm (areas mm).reverse) :
      Took rs s s' lists areas (.mmDupe mm)
  | mmFree {mm : Nat} {t : Vmm} {calls : List (Nat × Bool)} (live : s.Live mm)
      (freeing : Freeing rs s t areas mm [])
      (nodes : ∀ l, l ∈ t.freedLis ↔ l ∈ s.freedLis ∨ l ∈ lists mm)
      (left : s' = { t with freedMms := mm :: t.freedMms, pmmFrees := calls }) :
      Took rs s s' lists areas (.mmFree mm)
  | write {mm virt r : Nat} {byte : BitVec 8} (live : s.Live mm) (mem : r ∈ areas mm)
      (inside : InArea (s.vmas r) (pathOf virt))
      (left : s' = s.setMem (Function.update s.frames.mem (s.translate mm virt) byte)) :
      Took rs s s' lists areas (.write mm virt byte)

/-- It did so when frames did not run out. -/
theorem Spaces.took (spaces : Spaces rs s lists areas) (met : ¬ s.ranOut = true)
    (allowed : Vmm.Permitted rs call s) (taken : Vmm.step rs call s = .ok s')
    (met' : ¬ s'.ranOut = true) : Took rs s s' lists areas call := by
  cases call with
  | mmNew =>
    obtain ⟨new, ran⟩ := map_eq_ok taken
    exact .mmNew ((mmNew_runs spaces met).safe ran met').2
  | anonMmap mm start pages prot user =>
    obtain ⟨live, fits, canonical, apart⟩ := allowed
    obtain ⟨_, ran⟩ := map_eq_ok taken
    obtain ⟨aligned, small⟩ := anonMmap_returned ran
    obtain ⟨regular, free⟩ := spaces.anon_regular live ⟨aligned, fits, small⟩ canonical apart
    obtain ⟨frame, mapped⟩ := (anonMmap_runs spaces met live regular free).safe ran met'
    exact .anonMmap live mapped
  | mmDupe mm =>
    obtain ⟨new, ran⟩ := map_eq_ok taken
    obtain ⟨_, lists', areas', copying⟩ := (mmDupe_runs spaces met allowed).safe ran met'
    exact .mmDupe copying
  | mmFree mm =>
    obtain ⟨live, other, above⟩ := allowed
    obtain ⟨_, ran⟩ := map_eq_ok taken
    obtain ⟨t, freeing, nodes, left⟩ := (mmFree_reclaims spaces live met other).safe ran met'
    exact .mmFree live freeing nodes (left.trans (reclaimed_above above))
  | write mm virt byte =>
    obtain ⟨live, r, listed, type, has⟩ := allowed
    cases taken
    have mem := (spaces.mem_areasOf live).mp ⟨listed, type⟩
    exact .write live mem (((spaces.space mm live).regular r mem).inArea has) rfl

/-- A call keeps the invariant. -/
theorem Spaces.step (spaces : Spaces rs s lists areas) (took : Took rs s s' lists areas call) :
    ∃ lists' areas', Spaces rs s' lists' areas' := by
  cases took with
  | mmNew born => exact ⟨_, _, born.spaces⟩
  | anonMmap live mapped => exact ⟨_, _, mapped.spaces⟩
  | mmDupe copying => exact ⟨_, _, copying.spaces⟩
  | mmFree live freeing nodes left =>
    rw [left]
    exact ⟨lists, areas, (freeing.freed_spaces spaces live).marked _⟩
  | write live mem inside left =>
    rw [left]
    exact ⟨lists, areas, (spaces.write live _ mem inside).1⟩

/-- A call does not forget that frames ran out. -/
theorem step_ranOut (taken : Vmm.step rs call s = .ok s') (out : s.ranOut = true) :
    s'.ranOut = true := by
  cases call with
  | mmNew =>
    obtain ⟨a, ran⟩ := map_eq_ok taken
    exact sticky_mmNew (M := meter rs) s a s' ran out
  | anonMmap mm start pages prot user =>
    obtain ⟨a, ran⟩ := map_eq_ok taken
    exact sticky_anonMmap (M := meter rs) s a s' ran out
  | mmDupe mm =>
    obtain ⟨a, ran⟩ := map_eq_ok taken
    exact sticky_mmDupe (M := meter rs) s a s' ran out
  | mmFree mm =>
    obtain ⟨a, ran⟩ := map_eq_ok taken
    exact sticky_mmFree (M := meter rs) s a s' ran out
  | write mm virt byte =>
    cases taken
    exact out

/-- The invariant, in every state of a run in which frames did not run out. -/
theorem Spaces.of_reach (spaces : Spaces rs s₀ lists areas)
    (reached : Reach (Vmm.step rs) (Vmm.Permitted rs) s₀ s) (met : ¬ s.ranOut = true) :
    ∃ lists areas, Spaces rs s lists areas := by
  refine reached.avoiding (fun s => s.ranOut = true) (fun _ _ _ taken => step_ranOut taken)
    (fun s => ∃ lists areas, Spaces rs s lists areas) (fun _ => ⟨lists, areas, spaces⟩) ?_ met
  intro call s s' before inv allowed taken after
  obtain ⟨lists, areas, spaces⟩ := inv
  exact spaces.step (spaces.took before allowed taken after)

/-- So from `kernel_mm_init` on. -/
theorem spaces_of_permitted {m : Bytes}
    (booted : kernelMmInit rs 0 (Vmm.boot rs m) = .ok ((), s₀))
    (reached : Reach (Vmm.step rs) (Vmm.Permitted rs) s₀ s) (met : ¬ s.ranOut = true) :
    ∃ lists areas, Spaces rs s lists areas := by
  have start : ¬ s₀.ranOut = true :=
    reached.start_avoids (fun s => s.ranOut = true) (fun _ _ _ taken => step_ranOut taken) met
  exact ((kernelMmInit_runs rs m).safe booted start).1.of_reach reached met

/-- So their runs are permitted ones. -/
theorem reach_permitted (reached : Reach (Vmm.step rs) (Vmm.Allowed rs) s₀ s) :
    Reach (Vmm.step rs) (Vmm.Permitted rs) s₀ s := by
  induction reached with
  | start => exact .start
  | step _ allowed taken ih => exact ih.step allowed.permitted taken

/-- Every state of such a run has the invariant. -/
theorem spaces_of_boot {m : Bytes} (booted : kernelMmInit rs 0 (Vmm.boot rs m) = .ok ((), s₀))
    (reached : Reach (Vmm.step rs) (Vmm.Allowed rs) s₀ s) (met : ¬ s.ranOut = true) :
    ∃ lists areas, Spaces rs s lists areas :=
  spaces_of_permitted booted (reach_permitted reached) met

/-! ## Roles -/

/-- What a frame can be for. -/
inductive FrameRole
  /-- The table at a node of the tree of a space: the path of its p4 is empty. -/
  | table (mm : Nat) (path : Path)
  /-- A page of the kernel heap. -/
  | heap (page : Nat)
  /-- A page of a regular area. -/
  | page (mm vma page : Nat)

/-- A frame has a role. -/
def Vmm.Plays (s : Vmm) : FrameRole → Nat → Prop
  | .table mm path, f => (mm = 0 ∨ s.Live mm) ∧ path.length ≤ 3 ∧ s.slot mm path ≠ 0 ∧
      s.tableAt mm path = f
  | .heap k, f => k < kernelBrkPages ∧ s.vmmGetPhys 0 (kernelBrkStart + k * pageSize) = f
  | .page mm vma k, f => s.Live mm ∧ vma ∈ s.areasOf mm ∧ (s.vmas vma).type = .reg ∧
      k < (s.vmas vma).pages ∧ s.vmmGetPhys mm ((s.vmas vma).start + k * pageSize) = f

/-- The path a role is at. -/
def Vmm.place (s : Vmm) : FrameRole → Nat × Path
  | .table mm path => (mm, path)
  | .heap k => (0, pageAt kernelBrkStart k)
  | .page mm vma k => (mm, pageAt (s.vmas vma).start k)

section Roles

variable (spaces : Spaces rs s lists areas)

include spaces

/-- The frame of a mapped page of a range. -/
theorem Spaces.getPhys {start : Nat} (range : Range start n) (lt : k < n)
    (there : s.slot mm (pageAt start k) ≠ 0) :
    s.vmmGetPhys mm (start + k * pageSize) = pageOf (s.slot mm (pageAt start k)) := by
  have path : pathOf (start + k * pageSize) = pageAt start k := by
    rw [pageAt, range.add64_eq lt]
  rw [Vmm.vmmGetPhys, leafEntry_eq spaces.tables.layout]
  · rw [path]
  · rwa [path]

/-- A role is held at its place. -/
theorem Spaces.held_of_plays {role : FrameRole} (plays : s.Plays role f) :
    held s (owns s areas) none (some (s.place role)) = some f := by
  cases role with
  | table mm path =>
    obtain ⟨_, short, there, table⟩ := plays
    refine held_eq_some.mpr ⟨.inl short, there, ?_⟩
    rw [← table, spaces.tables.layout.tableAt_eq there]
  | heap k =>
    obtain ⟨lt, phys⟩ := plays
    have inside : InArea (kernelShape 2) (pageAt kernelBrkStart k) := ⟨k, lt, rfl⟩
    have there := (spaces.kernel.mapped 2 (by decide) _ inside).1
    refine held_eq_some.mpr ⟨.inr ⟨rfl, .inl ⟨rfl, inside⟩⟩, there, ?_⟩
    have range : Range kernelBrkStart kernelBrkPages := kernelShape_range 2
    rw [← phys, spaces.getPhys range lt there]
  | page mm vma k =>
    obtain ⟨live, listed, type, lt, phys⟩ := plays
    have mem := (spaces.mem_areasOf live).mp ⟨listed, type⟩
    have inside : InArea (s.vmas vma) (pageAt (s.vmas vma).start k) := ⟨k, lt, rfl⟩
    have there := ((spaces.space mm live).mapped vma mem _ inside).1
    refine held_eq_some.mpr ⟨.inr ⟨rfl, .inr ⟨live, vma, mem, inside⟩⟩, there, ?_⟩
    rw [← phys, spaces.getPhys ((spaces.space mm live).regular vma mem).range lt there]

/-- A dead space has no tables. -/
theorem Spaces.no_table (there : s.slot mm p ≠ 0) (short : p.length ≤ 4) : mm = 0 ∨ s.Live mm := by
  by_contra dead
  obtain ⟨nonzero, notLive⟩ := not_or.mp dead
  refine there (Radix.slot_eq_zero_of_leaves (d := 4) (fun q shallow here => ?_)
    (spaces.dead mm nonzero notLive) short)
  exact spaces.tables.tight mm q (Nat.le_of_lt_succ shallow) (fun absurd => (by cases absurd)) here

/-- What is held has a role. -/
theorem Spaces.plays_of_held (holds : held s (owns s areas) none (some (mm, p)) = some f) :
    ∃ role, s.Plays role f := by
  obtain ⟨kind, there, frame⟩ := held_eq_some.mp holds
  rcases kind with short | ⟨long, ⟨rfl, k, lt, rfl⟩ | ⟨live, r, mem, k, lt, rfl⟩⟩
  · refine ⟨.table mm p, spaces.no_table there (by omega), short, there, ?_⟩
    rw [spaces.tables.layout.tableAt_eq there, frame]
  · refine ⟨.heap k, lt, ?_⟩
    have range : Range kernelBrkStart kernelBrkPages := kernelShape_range 2
    rw [spaces.getPhys range lt there]
    exact frame
  · obtain ⟨listed, type⟩ := (spaces.mem_areasOf live).mpr mem
    refine ⟨.page mm r k, live, listed, type, lt, ?_⟩
    rw [spaces.getPhys ((spaces.space mm live).regular r mem).range lt there, frame]

/-- Different roles are at different places. -/
theorem Spaces.place_inj {role role' : FrameRole} (plays : s.Plays role f) (plays' : s.Plays role' n)
    (same : s.place role = s.place role') : role = role' := by
  have range : Range kernelBrkStart kernelBrkPages := kernelShape_range 2
  cases role with
  | table mm path =>
    cases role' with
    | table mm' path' =>
      cases same
      rfl
    | heap k =>
      have short := plays.2.1
      cases same
      rw [pageAt_length] at short
      omega
    | page mm' vma k =>
      have short := plays.2.1
      cases same
      rw [pageAt_length] at short
      omega
  | heap k =>
    cases role' with
    | table mm' path' =>
      have short := plays'.2.1
      cases same
      rw [pageAt_length] at short
      omega
    | heap k' =>
      rw [pageAt_inj range.small plays.1 plays'.1 (congrArg Prod.snd same)]
    | page mm' vma k' =>
      have zero : 0 = mm' := congrArg Prod.fst same
      exact absurd zero (Nat.ne_of_lt plays'.1.1)
  | page mm vma k =>
    cases role' with
    | table mm' path' =>
      have short := plays'.2.1
      cases same
      rw [pageAt_length] at short
      omega
    | heap k' =>
      have zero : mm = 0 := congrArg Prod.fst same
      exact absurd zero (Nat.ne_of_gt plays.1.1)
    | page mm' vma' k' =>
      obtain ⟨live, listed, type, lt, _⟩ := plays
      obtain ⟨_, listed', type', lt', _⟩ := plays'
      obtain rfl : mm = mm' := congrArg Prod.fst same
      have path : pageAt (s.vmas vma).start k = pageAt (s.vmas vma').start k' := congrArg Prod.snd same
      have mem := (spaces.mem_areasOf live).mp ⟨listed, type⟩
      have mem' := (spaces.mem_areasOf live).mp ⟨listed', type'⟩
      have space := spaces.space mm live
      obtain rfl : vma = vma' := space.apart vma mem vma' mem' _ ⟨k, lt, rfl⟩ ⟨k', lt', path⟩
      rw [pageAt_inj (space.regular vma mem).range.small lt lt' path]

/-- Every frame handed out has one role. -/
theorem Spaces.exists_role (taken : f ∈ s.frames.taken) : ∃! role, s.Plays role f := by
  obtain ⟨place, holds⟩ := spaces.tables.exclusive.holder f taken
  cases place with
  | none => cases holds
  | some place =>
    obtain ⟨role, plays⟩ := spaces.plays_of_held holds
    refine ⟨role, plays, fun role' plays' => spaces.place_inj plays' plays ?_⟩
    have same := spaces.tables.exclusive.unique _ _ f (spaces.held_of_plays plays')
      (spaces.held_of_plays plays)
    exact Option.some.inj same

/-- A frame with a role is taken. -/
theorem Spaces.plays_taken {role : FrameRole} (plays : s.Plays role f) : f ∈ s.frames.taken :=
  spaces.tables.exclusive.handed _ f (spaces.held_of_plays plays)

end Roles

/-! ## Every run -/

/-- 64K pages from 2 MiB on. -/
def wideRegion : Region where
  start := 0x200000
  pages := 0x10000
  aligned := by decide
  fits := by decide

def wideTable : RegionTable := ⟨[wideRegion], List.pairwise_singleton _ _⟩

/-- No region of the sample begins at 0. -/
theorem wide_above : ∀ r ∈ wideTable.regions, 0 < r.start := by
  intro r mem
  rw [List.mem_singleton.mp mem]
  decide

/-- The kernel's areas lie in the upper half. -/
theorem KernelSpace.upper (kernel : KernelSpace s) (static : r < 3) : 2 ^ 47 ≤ (s.vmas r).start := by
  obtain ⟨_, start, _⟩ := VmArea.shape_inj ((kernel.shape r static).trans (kernelShape_shape r).symm)
  rw [start]
  unfold kernelShape
  split <;> decide

/-- All frames of a region are free at first. -/
theorem boot_left {q : Region} {m : Bytes} (mem : q ∈ rs.regions) :
    q.pages - q.bmapPages ≤ (meter rs).left (Vmm.boot rs m) := by
  have inj : Set.InjOn (fun i => q.start + i * pageSize) (Finset.Ico q.bmapPages q.pages) := by
    intro i _ j _ same
    simp only [pageSize] at same
    omega
  have sub : ∀ i ∈ Finset.Ico q.bmapPages q.pages,
      q.start + i * pageSize ∈ freeFrames rs (Vmm.boot rs m).frames := by
    intro i inside
    rw [Finset.mem_Ico] at inside
    exact mem_freeFrames.mpr ⟨⟨q, mem, i, inside.1, inside.2, rfl⟩, List.not_mem_nil⟩
  have card := Finset.card_le_card_of_injOn _ sub inj
  rwa [Nat.card_Ico] at card

/-- The frames of the wide region that are free at first. -/
theorem wide_left (m : Bytes) : 65534 ≤ (meter wideTable).left (Vmm.boot wideTable m) := by
  have size : wideRegion.pages - wideRegion.bmapPages = 65534 := by decide
  have mem : wideRegion ∈ wideTable.regions := List.mem_singleton_self wideRegion
  have room := boot_left (m := m) mem
  rwa [size] at room

/-- `kernel_mm_init` in a memory with a large region. -/
theorem exists_booted {q : Region} (rs : RegionTable) (m : Bytes) (mem : q ∈ rs.regions)
    (size : q.pages - q.bmapPages = n + 6784) : ∃ s₀,
    kernelMmInit rs 0 (Vmm.boot rs m) = .ok ((), s₀) ∧ ¬ s₀.ranOut = true ∧
      n ≤ (meter rs).left s₀ ∧ (Spaces rs s₀ (fun _ => []) fun _ => []) ∧ s₀.nmms = 1 := by
  have room := boot_left (m := m) mem
  rw [size] at room
  obtain ⟨_, s₀, booted, met₀, left₀, spaces₀, _, nmms⟩ := (kernelMmInit_runs rs m).total (by omega)
  exact ⟨s₀, booted, met₀, by omega, spaces₀, nmms⟩

/-- The sample boots with frames to spare. -/
theorem wide_booted : ∃ s₀,
    kernelMmInit wideTable 0 (Vmm.boot wideTable fun _ => 0) = .ok ((), s₀) ∧ ¬ s₀.ranOut = true ∧
      58750 ≤ (meter wideTable).left s₀ ∧ (Spaces wideTable s₀ (fun _ => []) fun _ => []) ∧
      s₀.nmms = 1 :=
  exists_booted wideTable (fun _ => 0) (List.mem_singleton_self wideRegion) (by decide)

/-- A space with one page, in a memory with room for more. -/
theorem exists_mapped : ∃ s₀ s lists areas mm r,
    kernelMmInit wideTable 0 (Vmm.boot wideTable fun _ => 0) = .ok ((), s₀) ∧
      Reach (Vmm.step wideTable) (Vmm.Allowed wideTable) s₀ s ∧ ¬ s.ranOut = true ∧
      Spaces wideTable s lists areas ∧ 40000 ≤ (meter wideTable).left s ∧ s.Live mm ∧
      areas mm = [r] ∧ (s.vmas r).pages = 1 := by
  obtain ⟨s₀, booted, met₀, left₀, spaces₀, _⟩ := wide_booted
  obtain ⟨mm, s₁, new, met₁, left₁, rfl, born⟩ := (mmNew_runs spaces₀ met₀).total (by omega)
  have live : s₁.Live s₀.nmms := (born.live_iff spaces₀).mpr (.inr rfl)
  have none : ∀ r ∈ Function.update (fun _ => []) s₀.nmms [] s₀.nmms, ∀ k < 1,
      ¬ InArea (s₁.vmas r) (pageAt 0x400000 k) := by
    intro r mem
    rw [Function.update_self] at mem
    cases mem
  have regular : Regular (anonArea 0x400000 1 3 true) := by
    refine ⟨rfl, ⟨by decide, by decide, by decide⟩, user_canonical (by decide), by decide, ?_⟩
    rintro b hb v ⟨k, lt, rfl⟩
    exact user_off_kernel (by decide) lt hb
  have page : Runs (meter wideTable) (anonMmap wideTable s₀.nmms 0x400000 1 3 true) (1 * 5) s₁ _ :=
    anonMmap_runs born.spaces met₁ live regular none
  obtain ⟨_, s₂, mapped, met₂, left₂, frame, area⟩ := page.total (by omega)
  have space := born.spaces.space _ live
  have areas : s₁.areasOf s₀.nmms = [2, 1, 0] := by
    rw [space.areasOf_eq, Function.update_self]
    rfl
  have allowed : Vmm.Allowed wideTable (.anonMmap s₀.nmms 0x400000 1 3 true) s₁ := by
    refine ⟨live, by decide, fun r mem x low high has => ?_⟩
    rw [areas, mem_kernelAreas] at mem
    have upper := born.spaces.kernel.upper mem
    have := has.1
    simp only [pageSize] at high
    omega
  have taken₁ : Vmm.step wideTable .mmNew s₀ = .ok s₁ := by
    show (·.2) <$> mmNew wideTable s₀ = _
    rw [new]
    rfl
  have taken₂ : Vmm.step wideTable (.anonMmap s₀.nmms 0x400000 1 3 true) s₁ = .ok s₂ := by
    show (·.2) <$> anonMmap wideTable _ _ _ _ _ s₁ = _
    rw [mapped]
    rfl
  refine ⟨s₀, s₂, _, _, s₀.nmms, s₁.nvmas, booted,
    .step (.step .start (show Vmm.Allowed wideTable .mmNew s₀ from trivial) taken₁) allowed taken₂, met₂, area.spaces, by omega, ?_, ?_, ?_⟩
  · exact (area.live_iff).mpr live
  · rw [Function.update_self, Function.update_self]
  · rw [area.area]

/-- Frame ownership is exclusive. In every state of a run from `kernel_mm_init` on in which frames
did not run out, no frame is handed out twice, a frame that is handed out has exactly one role, and
the frames with a role are handed out. So a page of a regular area shares its frame with no page of
another and with no table. -/
theorem frames_exclusive (rs : RegionTable) (m : Bytes) (s₀ s : Vmm)
    (booted : kernelMmInit rs 0 (Vmm.boot rs m) = .ok ((), s₀))
    (reached : Reach (Vmm.step rs) (Vmm.Allowed rs) s₀ s) (met : s.ranOut = false) :
    s.frames.taken.Nodup ∧ (∀ f ∈ s.frames.taken, ∃! role, s.Plays role f) ∧
      (∀ role f, s.Plays role f → f ∈ s.frames.taken) ∧
      (∀ mm vma k mm' vma' k' f, s.Plays (.page mm vma k) f → s.Plays (.page mm' vma' k') f →
        mm = mm' ∧ vma = vma' ∧ k = k') ∧
      ∀ mm vma k mm' path f, s.Plays (.page mm vma k) f → ¬ s.Plays (.table mm' path) f := by
  obtain ⟨lists, areas, spaces⟩ := spaces_of_boot booted reached (ne_true_of_eq_false met)
  refine ⟨spaces.tables.frames.nodup, fun f => spaces.exists_role, fun role f => spaces.plays_taken,
    fun mm vma k mm' vma' k' f one two => ?_, fun mm vma k mm' path f one two => ?_⟩
  · have same := (spaces.exists_role (spaces.plays_taken one)).unique one two
    cases same
    exact ⟨rfl, rfl, rfl⟩
  · have same := (spaces.exists_role (spaces.plays_taken one)).unique one two
    cases same

/-- A space with one page is duplicated. -/
theorem exists_forked : ∃ s₀ s s' mm,
    kernelMmInit wideTable 0 (Vmm.boot wideTable fun _ => 0) = .ok ((), s₀) ∧
      Reach (Vmm.step wideTable) (Vmm.Allowed wideTable) s₀ s ∧ s.Live mm ∧
      mmDupe wideTable mm s = .ok (s.nmms, s') ∧ Vmm.step wideTable (.mmDupe mm) s = .ok s' ∧
      s'.ranOut = false ∧ s'.Live mm ∧ s'.Live s.nmms := by
  obtain ⟨s₀, s, lists, areas, mm, r, booted, reached, met, spaces, room, live, one, size⟩ :=
    exists_mapped
  have budget : ((areas mm).map fun r => (s.vmas r).pages * 5).sum = 5 := by
    rw [one, List.map_singleton, List.sum_singleton, size]
  obtain ⟨new, s', ran, met', _, rfl, lists', areas', copying⟩ :=
    (mmDupe_runs spaces met live).total (by omega)
  have taken : Vmm.step wideTable (.mmDupe mm) s = .ok s' := by
    show (·.2) <$> mmDupe wideTable mm s = _
    rw [ran]
    rfl
  exact ⟨s₀, s, s', mm, booted, reached, live, ran, taken, Bool.eq_false_of_not_eq_true met',
    (copying.live_iff spaces).mpr (.inl live), (copying.live_iff spaces).mpr (.inr rfl)⟩

/-- After `mm_new`, `anon_mmap` and `mm_dupe`. -/
theorem frames_exclusive_forked : ∃ s₀ s mm new,
    kernelMmInit wideTable 0 (Vmm.boot wideTable fun _ => 0) = .ok ((), s₀) ∧
      Reach (Vmm.step wideTable) (Vmm.Allowed wideTable) s₀ s ∧ s.ranOut = false ∧ mm ≠ new ∧ s.Live mm ∧
      s.Live new ∧ ∀ f ∈ s.frames.taken, ∃! role, s.Plays role f := by
  obtain ⟨s₀, s, s', mm, booted, reached, live, _, taken, met', old, young⟩ := exists_forked
  have reached' := reached.step (show Vmm.Allowed wideTable (.mmDupe mm) s from live) taken
  exact ⟨s₀, s', mm, s.nmms, booted, reached', met', Nat.ne_of_lt live.2.1, old, young,
    (frames_exclusive wideTable (fun _ => 0) s₀ s' booted reached' met').2.1⟩

end Blackcomb.Mm
