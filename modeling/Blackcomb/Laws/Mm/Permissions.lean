import Blackcomb.Laws.Mm.Ownership

/-!
# Permissions of pages

The processor lets a page be written, or used in user mode, when the bit is set in all four entries
on the way to it. `vmm_map_page` gives the entries that it makes on the way the flags of the page it
was called for, and leaves those that are there alone. So an entry above the pages has the flags of
the first call that went through it, whatever the later calls ask for, and a page has what its last
call asked for exactly when the first calls through the three entries above it asked for no less.

**What it does not establish.** Only writing and user mode are looked at, the two that
`vmm_map_page` has flags for. One space is followed, and only calls that map.
-/

namespace Blackcomb.Mm

open Memory Run Budget Ownership

variable {rs : RegionTable} {s s' : Vmm} {own : Nat → Path → Prop} {mm : Nat} {p q v : Path}

/-- The arguments of a `vmm_map_page`: a page-aligned frame, `PAGE_PRESENT`, and `PAGE_WRITE` and
`PAGE_USER` or not. -/
structure MapCall where
  virt : Nat
  phys : Nat
  write : Bool
  user : Bool
  aligned : phys % pageSize = 0
  fits : phys < 2 ^ 64

namespace MapCall

/-- `flags`. -/
def flags (c : MapCall) : Nat :=
  pagePresent ||| (if c.write then pageWrite else 0) ||| (if c.user then pageUser else 0)

/-- The bits that permit. -/
def rights (c : MapCall) : Nat := c.flags &&& (pageWrite ||| pageUser)

/-- Flags stay below a page's size. -/
theorem flags_lt (c : MapCall) : c.flags < pageSize := by
  unfold flags
  cases c.write <;> cases c.user <;> decide

/-- A request has at least the present bit. -/
theorem flags_ne_zero (c : MapCall) : c.flags ≠ 0 := by
  unfold flags
  cases c.write <;> cases c.user <;> decide

theorem entry_lt (c : MapCall) : c.phys ||| c.flags < 2 ^ 64 := by
  have aligned := c.aligned
  have fits := c.fits
  have small := c.flags_lt
  rw [or_eq_add aligned small]
  simp only [pageSize] at *
  omega

theorem entry_ne_zero (c : MapCall) : c.phys ||| c.flags ≠ 0 := by
  intro zero
  exact c.flags_ne_zero (Nat.or_eq_zero_iff.mp zero).2

end MapCall

variable {calls done : List MapCall} {c d : MapCall}

/-- A sequence of `vmm_map_page`. -/
def mapPages (rs : RegionTable) (mm : Nat) : List MapCall → Op Unit
  | [] => pure ()
  | c :: calls => do
    vmmMapPage rs mm c.virt c.phys c.flags
    mapPages rs mm calls

/-- What the processor permits at an address: the bits that all four entries have. -/
def Vmm.effective (s : Vmm) (mm virt : Nat) : Nat :=
  (s.p4GetEntry mm (p4Ndx virt) &&& s.p3GetEntry mm (p4Ndx virt) (p3Ndx virt) &&&
    s.p2GetEntry mm (p4Ndx virt) (p3Ndx virt) (p2Ndx virt) &&&
    s.p1GetEntry mm (p4Ndx virt) (p3Ndx virt) (p2Ndx virt) (p1Ndx virt)) &&&
    (pageWrite ||| pageUser)

/-- The last call for a page. -/
def lastCall (calls : List MapCall) (v : Path) : Option MapCall :=
  calls.reverse.find? fun c => pathOf c.virt = v

/-- The first call whose page is below an entry. -/
def firstCall (calls : List MapCall) (q : Path) : Option MapCall :=
  calls.find? fun c => q <:+ pathOf c.virt

/-- Every page has the permissions that the last call for it asked for. -/
def AsRequested (s : Vmm) (mm : Nat) (calls : List MapCall) : Prop :=
  ∀ v c, lastCall calls v = some c → s.effective mm c.virt = c.rights

/-- The first calls through the three entries above a page asked for no less than the last call for
the page. -/
def WidestFirst (calls : List MapCall) : Prop :=
  ∀ v c, lastCall calls v = some c → ∀ q, q ≠ [] → q.length ≤ 3 → q <:+ v →
    ∀ d, firstCall calls q = some d → (c.write → d.write) ∧ (c.user → d.user)

/-- The last request for a page is one of the requests, for this page. -/
theorem lastCall_path (last : lastCall calls v = some c) : pathOf c.virt = v ∧ c ∈ calls := by
  have found := List.find?_some last
  exact ⟨of_decide_eq_true found, List.mem_reverse.mp (List.mem_of_find?_eq_some last)⟩

/-- A new request is the last one for its own page. -/
theorem lastCall_snoc : lastCall (calls ++ [c]) v =
    if pathOf c.virt = v then some c else lastCall calls v := by
  rw [lastCall, List.reverse_append, List.reverse_singleton, List.singleton_append, List.find?_cons]
  by_cases here : pathOf c.virt = v
  · simp [here]
  · simp [here, lastCall]

/-- A new request is the first below its tables, if there was none. -/
theorem firstCall_snoc : firstCall (calls ++ [c]) q =
    (firstCall calls q).or (if q <:+ pathOf c.virt then some c else none) := by
  rw [firstCall, List.find?_append, List.find?_singleton]
  simp [firstCall]

/-- A call is no earlier than the first one through what is above its page. -/
theorem firstCall_some (mem : c ∈ calls) (part : q <:+ pathOf c.virt) :
    ∃ d, firstCall calls q = some d := by
  apply Option.isSome_iff_exists.mp
  rw [firstCall, List.find?_isSome]
  exact ⟨c, mem, decide_eq_true part⟩

/-! ## Runs -/

/-- The tables of a space after a sequence of calls. -/
structure Described (rs : RegionTable) (s : Vmm) (own : Nat → Path → Prop) (mm : Nat)
    (calls : List MapCall) : Prop where
  tables : Tables rs s own none none
  missing : ∀ q, q ≠ [] → q.length ≤ 3 → firstCall calls q = none → s.slot mm q = 0
  made : ∀ q, q ≠ [] → q.length ≤ 3 → ∀ d, firstCall calls q = some d →
    s.slot mm q % pageSize = d.flags
  leaf : ∀ v, v.length = 4 → ∀ c, lastCall calls v = some c → s.slot mm v = c.phys ||| c.flags

/-- An entry that was made is there. -/
theorem Described.there (described : Described rs s own mm calls) (below : q ≠ [])
    (short : q.length ≤ 3) (first : firstCall calls q = some d) : s.slot mm q ≠ 0 := by
  intro zero
  have flags := described.made q below short d first
  rw [zero] at flags
  exact d.flags_ne_zero flags.symm

/-- A call that is not out of frames is described by the list with its request added. -/
theorem vmmMapPage_described (described : Described rs s own mm done) (met : ¬ s.ranOut = true)
    (unowned : ∀ v, ¬ own mm v) :
    Runs (meter rs) (vmmMapPage rs mm c.virt c.phys c.flags) 4 s fun _ s' =>
      Described rs s' own mm (done ++ [c]) := by
  refine (vmmMapPage_built described.tables met c.flags_lt c.entry_lt c.entry_ne_zero
    (unowned _)).imp ?_
  rintro _ s' ⟨⟨remapped, _, tables⟩, built⟩
  refine ⟨tables, fun q below short unseen => ?_, fun q below short d first => ?_,
    fun v long d last => ?_⟩
  · rw [firstCall_snoc, Option.or_eq_none_iff] at unseen
    have out : ¬ q <:+ pathOf c.virt := fun part => by
      rw [if_pos part] at unseen
      cases unseen.2
    rw [built.others mm q short fun both => out both.2]
    exact described.missing q below short unseen.1
  · rw [firstCall_snoc] at first
    cases before : firstCall done q with
    | some b =>
      rw [before, Option.some_or] at first
      cases first
      rw [built.kept q short (described.there below short before)]
      exact described.made q below short d before
    | none =>
      rw [before, Option.none_or] at first
      split at first
      · rename_i part
        cases first
        exact built.made q below short part (described.missing q below short before)
      · cases first
  · rw [lastCall_snoc] at last
    split at last
    · rename_i here
      cases last
      rw [← here]
      exact remapped.here
    · rename_i other
      rw [remapped.others mm v long fun same => other same.2.symm]
      exact described.leaf v long d last

theorem sticky_mapPages {M : Meter Vmm} [OfFrames rs M] : Sticky M (mapPages rs mm calls) := by
  induction calls with
  | nil => exact .pure ()
  | cons c calls ih => exact .bind sticky_vmmMapPage fun _ => ih

/-- A list of calls is described by the list of its requests. -/
theorem mapPages_runs (calls : List MapCall) (described : Described rs s own mm done) (met : ¬ s.ranOut = true)
    (unowned : ∀ v, ¬ own mm v) :
    Runs (meter rs) (mapPages rs mm calls) (calls.length * 4) s fun _ s' =>
      Described rs s' own mm (done ++ calls) := by
  induction calls generalizing s done with
  | nil =>
    rw [List.append_nil]
    exact .pure met described
  | cons c calls ih =>
    rw [List.length_cons, Nat.succ_mul, Nat.add_comm]
    refine .bind ((vmmMapPage_described described met unowned).imp ?_) fun _ => sticky_mapPages
    intro _ t next met'
    have rest := ih next met'
    rwa [List.append_assoc] at rest

/-- A space without a p4 table has no entries. -/
theorem slot_of_empty (empty : (s.mms mm).p4 = 0) (p : Path) : s.slot mm p = 0 := by
  induction p with
  | nil => exact empty
  | cons i p ih => exact Radix.slot_cons_zero ih

/-- No call yet. -/
theorem Tables.described (tables : Tables rs s own none none) (empty : (s.mms mm).p4 = 0) :
    Described rs s (fun k v => own k v ∧ k ≠ mm) mm [] := by
  refine ⟨⟨tables.frames, tables.exclusive.congr fun r => ?_, tables.root, tables.tight⟩,
    fun q _ _ _ => slot_of_empty empty q, fun q _ _ d first => (by cases first),
    fun v _ c last => (by cases last)⟩
  cases r with
  | none => rfl
  | some path =>
    obtain ⟨k, p⟩ := path
    by_cases here : k = mm
    · subst here
      rw [held_eq_none (slot_of_empty empty p), held_eq_none (slot_of_empty empty p)]
    · ext f
      rw [held_eq_some, held_eq_some, and_iff_left here]

/-! ## What the processor permits -/

/-- The bits that four entries have in common. -/
theorem and_four (a b c d : Nat) : (a &&& b &&& c &&& d) &&& (pageWrite ||| pageUser) =
    (a % pageSize &&& b % pageSize &&& c % pageSize &&& d % pageSize) &&&
      (pageWrite ||| pageUser) := by
  have split : ∀ x y z w m : Nat, (x &&& y &&& z &&& w) &&& m =
      (x &&& m) &&& (y &&& m) &&& (z &&& m) &&& (w &&& m) := by
    intro x y z w m
    apply Nat.eq_of_testBit_eq
    intro i
    simp only [Nat.testBit_and]
    cases x.testBit i <;> cases y.testBit i <;> cases z.testBit i <;> cases w.testBit i <;>
      cases m.testBit i <;> rfl
  have flags : pageWrite ||| pageUser < pageSize := by decide
  rw [split, and_flags flags (e := a), and_flags flags (e := b), and_flags flags (e := c),
    and_flags flags (e := d), ← split]

/-- Four calls have the rights of the last exactly when the others ask for no less. -/
theorem rights_iff (d₄ d₃ d₂ c : MapCall) :
    (d₄.flags &&& d₃.flags &&& d₂.flags &&& c.flags) &&& (pageWrite ||| pageUser) = c.rights ↔
      ((c.write → d₄.write) ∧ (c.user → d₄.user)) ∧ ((c.write → d₃.write) ∧ (c.user → d₃.user)) ∧
        (c.write → d₂.write) ∧ (c.user → d₂.user) := by
  unfold MapCall.rights MapCall.flags
  generalize d₄.write = w₄, d₄.user = u₄, d₃.write = w₃, d₃.user = u₃, d₂.write = w₂, d₂.user = u₂,
    c.write = w, c.user = u
  revert w₄ u₄ w₃ u₃ w₂ u₂ w u
  decide

/-- The entries above a page. -/
theorem above_iff (virt : Nat) : q ≠ [] ∧ q.length ≤ 3 ∧ q <:+ pathOf virt ↔
    q = [p4Ndx virt] ∨ q = [p3Ndx virt, p4Ndx virt] ∨
      q = [p2Ndx virt, p3Ndx virt, p4Ndx virt] := by
  constructor
  · rintro ⟨below, short, part⟩
    simp only [pathOf, List.suffix_cons_iff, List.suffix_nil] at part
    rcases part with rfl | rfl | rfl | rfl | rfl
    · exact absurd short (Nat.not_succ_le_self 3)
    · exact .inr (.inr rfl)
    · exact .inr (.inl rfl)
    · exact .inl rfl
    · exact absurd rfl below
  · rintro (rfl | rfl | rfl) <;> simp [pathOf, List.suffix_cons_iff]

/-- The flags that the processor reads on the way to a page. -/
theorem Described.effective_eq (described : Described rs s own mm calls)
    (last : lastCall calls (pathOf c.virt) = some c) {d₄ d₃ d₂ : MapCall}
    (first₄ : firstCall calls [p4Ndx c.virt] = some d₄)
    (first₃ : firstCall calls [p3Ndx c.virt, p4Ndx c.virt] = some d₃)
    (first₂ : firstCall calls [p2Ndx c.virt, p3Ndx c.virt, p4Ndx c.virt] = some d₂) :
    s.effective mm c.virt =
      (d₄.flags &&& d₃.flags &&& d₂.flags &&& c.flags) &&& (pageWrite ||| pageUser) := by
  have layout := described.tables.layout
  have entry : ∀ {q d}, q ≠ [] ∧ q.length ≤ 3 ∧ q <:+ pathOf c.virt → firstCall calls q = some d →
      s.slot mm q ≠ 0 ∧ s.slot mm q % pageSize = d.flags := fun above first =>
    ⟨described.there above.1 above.2.1 first, described.made _ above.1 above.2.1 _ first⟩
  obtain ⟨there₄, made₄⟩ := entry ((above_iff c.virt).mpr (.inl rfl)) first₄
  obtain ⟨there₃, made₃⟩ := entry ((above_iff c.virt).mpr (.inr (.inl rfl))) first₃
  obtain ⟨there₂, made₂⟩ := entry ((above_iff c.virt).mpr (.inr (.inr rfl))) first₂
  have leaf := described.leaf (pathOf c.virt) rfl c last
  have root : s.slot mm [] ≠ 0 := Radix.slot_above there₄
  rw [Vmm.effective, Vmm.p4GetEntry, Vmm.p3GetEntry, Vmm.p2GetEntry, Vmm.p1GetEntry,
    layout.getEntry_eq root, layout.getEntry_eq there₄, layout.getEntry_eq there₃,
    layout.getEntry_eq there₂, and_four, made₄, made₃, made₂, ← pathOf, leaf,
    or_mod c.aligned c.flags_lt]

/-- Pages have the rights asked for exactly if the first request through each table above them was
wide enough. -/
theorem Described.asRequested_iff (described : Described rs s own mm calls) :
    AsRequested s mm calls ↔ WidestFirst calls := by
  apply forall_congr'
  intro v
  apply forall_congr'
  intro c
  apply imp_congr_right
  intro last
  obtain ⟨rfl, mem⟩ := lastCall_path last
  have above₄ := (above_iff c.virt).mpr (.inl rfl)
  have above₃ := (above_iff c.virt).mpr (.inr (.inl rfl))
  have above₂ := (above_iff c.virt).mpr (.inr (.inr rfl))
  obtain ⟨d₄, first₄⟩ := firstCall_some mem above₄.2.2
  obtain ⟨d₃, first₃⟩ := firstCall_some mem above₃.2.2
  obtain ⟨d₂, first₂⟩ := firstCall_some mem above₂.2.2
  rw [described.effective_eq last first₄ first₃ first₂, rights_iff]
  constructor
  · intro wide q below short part d first
    rcases (above_iff c.virt).mp ⟨below, short, part⟩ with rfl | rfl | rfl
    · rw [first₄] at first
      cases first
      exact wide.1
    · rw [first₃] at first
      cases first
      exact wide.2.1
    · rw [first₂] at first
      cases first
      exact wide.2.2
  · intro wide
    exact ⟨wide _ above₄.1 above₄.2.1 above₄.2.2 d₄ first₄,
      wide _ above₃.1 above₃.2.1 above₃.2.2 d₃ first₃,
      wide _ above₂.1 above₂.2.1 above₂.2.2 d₂ first₂⟩

/-- The law of the permissions. -/
theorem effective_iff (rs : RegionTable) (s : Vmm) (own : Nat → Path → Prop) (mm : Nat)
    (calls : List MapCall) (tables : Tables rs s own none none) (met : s.ranOut = false)
    (empty : (s.mms mm).p4 = 0) :
    (calls.length * 4 ≤ (freeFrames rs s.frames).card →
      ∃ s', mapPages rs mm calls s = .ok ((), s') ∧ s'.ranOut = false) ∧
      ∀ s', mapPages rs mm calls s = .ok ((), s') → s'.ranOut = false →
        (AsRequested s' mm calls ↔ WidestFirst calls) := by
  have runs := mapPages_runs calls (tables.described empty) (by simp [met])
    fun v owned => owned.2 rfl
  constructor
  · intro enough
    obtain ⟨_, s', ran, met', _⟩ := runs.total enough
    exact ⟨s', ran, Bool.eq_false_iff.mpr met'⟩
  · intro s' ran met'
    have described : Described rs s' _ mm calls := runs.safe ran (Bool.eq_false_iff.mp met')
    exact described.asRequested_iff

/-- A page of code at 4 MiB. -/
def codePage : MapCall where
  virt := 0x400000
  phys := 0x300000
  write := false
  user := true
  aligned := by decide
  fits := by decide

/-- A page of data after it. -/
def dataPage : MapCall where
  virt := 0x401000
  phys := 0x301000
  write := true
  user := true
  aligned := by decide
  fits := by decide

/-- The sample has frames for two calls. -/
theorem wide_room (calls : List MapCall) (few : calls.length = 2) :
    calls.length * 4 ≤ (meter wideTable).left (Vmm.boot wideTable fun _ => 0) := by
  have room := wide_left fun _ => 0
  omega

/-- After the data, the code has what was asked for. -/
theorem effective_iff_data : ∃ s', mapPages wideTable 0 [dataPage, codePage]
    (Vmm.boot wideTable fun _ => 0) = .ok ((), s') ∧ s'.ranOut = false ∧
      AsRequested s' 0 [dataPage, codePage] := by
  obtain ⟨returns, iff⟩ := effective_iff wideTable (Vmm.boot wideTable fun _ => 0)
    (fun _ _ => False) 0 [dataPage, codePage] boot_tables rfl rfl
  have enough := wide_room [dataPage, codePage] rfl
  simp only [meter] at enough
  obtain ⟨s', ran, met⟩ := returns enough
  refine ⟨s', ran, met, (iff s' ran met).mpr ?_⟩
  intro v c last q _ _ part d first
  obtain ⟨rfl, mem⟩ := lastCall_path last
  have seen := List.mem_of_find?_eq_some first
  simp only [List.mem_cons, List.not_mem_nil, or_false] at mem seen
  rcases mem with rfl | rfl
  · have here : firstCall [dataPage, codePage] q = some dataPage :=
      List.find?_cons_of_pos (decide_eq_true part)
    rw [here] at first
    cases first
    exact ⟨id, id⟩
  · rcases seen with rfl | rfl
    · exact ⟨fun _ => rfl, fun _ => rfl⟩
    · exact ⟨id, id⟩

/-- After the code, the data cannot be written. -/
theorem effective_differs : ∃ s', mapPages wideTable 0 [codePage, dataPage]
    (Vmm.boot wideTable fun _ => 0) = .ok ((), s') ∧ s'.ranOut = false ∧
      lastCall [codePage, dataPage] (pathOf 0x401000) = some dataPage ∧
      s'.effective 0 0x401000 = pageUser ∧ dataPage.rights = pageWrite ||| pageUser := by
  have start : Described wideTable (Vmm.boot wideTable fun _ => 0) _ 0 [] :=
    boot_tables.described rfl
  have runs := mapPages_runs [codePage, dataPage] start Bool.false_ne_true
    fun v owned => owned.2 rfl
  obtain ⟨_, s', ran, met, _, described⟩ := runs.total (wide_room _ rfl)
  have last : lastCall [codePage, dataPage] (pathOf dataPage.virt) = some dataPage := by
    simp [lastCall]
  refine ⟨s', ran, Bool.eq_false_iff.mpr met, last, ?_, by decide⟩
  have first : ∀ q ∈ [[p4Ndx dataPage.virt], [p3Ndx dataPage.virt, p4Ndx dataPage.virt],
      [p2Ndx dataPage.virt, p3Ndx dataPage.virt, p4Ndx dataPage.virt]],
      firstCall [codePage, dataPage] q = some codePage := by
    intro q mem
    exact List.find?_cons_of_pos (by revert q; decide)
  have bits := described.effective_eq last (first _ (by simp)) (first _ (by simp))
    (first _ (by simp))
  exact bits.trans (by decide)

end Blackcomb.Mm
