import Blackcomb.Laws.Mm.Copy
import Blackcomb.Laws.Mm.Mmap

/-!
# Fresh pages in a tree

`anon_mmap` in a space of which nothing is known but that its tables form a tree: the pages may be mapped
already, by the same space or by others, and what they were mapped to is then lost. Each page gets a frame
that nothing had, and no frame twice, as long as no `pmm_alloc` runs out.

**What it does not establish.** Frames that the range was mapped to before are neither given back
nor named; who else may still use them is for the caller to know.
-/

namespace Blackcomb.Mm

open Memory Budget Ownership

variable {rs : RegionTable} {s s₁ s₂ t t' : Vmm} {mm start n k f g phys flags virt prot : Nat} {user : Bool}
  {p q : Path} {i : Fin 512} {tables new new' : List Nat} {frame : Nat → Nat}

/-! ## One page -/

/-- A tree that has grown: its new tables are frames that nothing had, its old entries and its pages
stay. -/
structure Extends (rs : RegionTable) (s t : Vmm) (mm : Nat) (tables new : List Nat) : Prop where
  tree : Tree rs t mm (new ++ tables)
  grows : s.frames.taken ⊆ t.frames.taken
  fresh : ∀ f ∈ new, f ∉ s.frames.taken
  kept : ∀ p, p.length ≤ 4 → s.slot mm p ≠ 0 → t.slot mm p = s.slot mm p
  pages : ∀ p, p.length = 4 → t.slot mm p = s.slot mm p

theorem Extends.refl (tree : Tree rs s mm tables) : Extends rs s s mm tables [] :=
  ⟨tree, fun _ mem => mem, fun _ absurd => (by cases absurd), fun _ _ _ => rfl, fun _ _ => rfl⟩

theorem Extends.trans (one : Extends rs s s₁ mm tables new)
    (two : Extends rs s₁ s₂ mm (new ++ tables) new') : Extends rs s s₂ mm tables (new' ++ new) := by
  refine ⟨?_, fun _ mem => two.grows (one.grows mem), fun f mem => ?_, fun p short there => ?_,
    fun p long => (two.pages p long).trans (one.pages p long)⟩
  · rw [List.append_assoc]
    exact two.tree
  · rcases List.mem_append.mp mem with later | first
    · exact fun old => two.fresh f later (one.grows old)
    · exact one.fresh f first
  · have same := one.kept p short there
    rw [two.kept p short (by rwa [same]), same]

/-- A table that was missing. -/
theorem EditOf.extends {e : Nat} (edit : EditOf s t mm q e) (above : q.length ≤ 3)
    (empty : s.slot mm q = 0) (grown : Tree rs t mm (f :: tables))
    (taken : t.frames.taken = f :: s.frames.taken) (fresh : f ∉ s.frames.taken) : Extends rs s t mm tables [f] := by
  refine ⟨grown, fun g mem => ?_, fun g mem => ?_, fun p short there => edit.apart short ?_,
    fun p long => edit.apart (by omega) ?_⟩
  · rw [taken]
    exact List.mem_cons_of_mem f mem
  · rwa [List.mem_singleton.mp mem]
  · rintro rfl
    exact there empty
  · rintro rfl
    omega

theorem Tree.growTable_runs (tree : Tree rs s mm tables) (met : ¬ s.ranOut = true)
    (here : s.slot mm p ≠ 0) (short : p.length ≤ 2) (small : flags < pageSize) :
    Runs (meter rs) (growTable rs mm p i flags) 1 s fun _ t =>
      ∃ new, Extends rs s t mm tables new ∧ t.slot mm (i :: p) ≠ 0 := by
  unfold growTable
  refine .of_get ?_
  rw [tree.getEntry_eq here]
  split
  · rename_i empty
    refine .bind (k := 0) ((allocFrame_runs tree.frames met).imp ?_) fun _ => .modify fun _ out => out
    intro f s₁ alloced met₁
    obtain ⟨edit, grown⟩ := tree.addTable here short empty small alloced
    refine .done rfl met₁ (Nat.le_refl _)
      ⟨[f], edit.extends (by simp only [List.length_cons]; omega) empty grown alloced.taken alloced.fresh,
        ?_⟩
    rw [edit.value]
    exact or_ne_zero (Nat.ne_of_gt alloced.frame.pos)
  · rename_i there
    exact .pure met ⟨[], .refl tree, there⟩

theorem Tree.growRoot_runs (tree : Tree rs s mm tables) (met : ¬ s.ranOut = true) :
    Runs (meter rs) (growRoot rs mm) 1 s fun _ t =>
      ∃ new, Extends rs s t mm tables new ∧ t.slot mm [] ≠ 0 := by
  unfold growRoot
  refine .of_get ?_
  split
  · rename_i empty
    refine .bind (k := 0) ((allocFrame_runs tree.frames met).imp ?_) fun _ => .modify fun _ out => out
    intro f s₁ alloced met₁
    obtain ⟨edit, grown⟩ := tree.addRoot empty alloced
    refine .done rfl met₁ (Nat.le_refl _)
      ⟨[f], edit.extends (Nat.zero_le 3) empty grown alloced.taken alloced.fresh, ?_⟩
    rw [edit.value]
    exact Nat.ne_of_gt alloced.frame.pos
  · rename_i there
    exact .pure met ⟨[], .refl tree, there⟩

/-- One more `if` of `vmm_map_page`. -/
theorem Extends.grow_runs {qs : List Path} (done : Extends rs s s₁ mm tables new)
    (way : ∀ q ∈ qs, q.length ≤ 4 ∧ s₁.slot mm q ≠ 0) (above : p ∈ qs) (met : ¬ s₁.ranOut = true)
    (short : p.length ≤ 2) (small : flags < pageSize) :
    Runs (meter rs) (growTable rs mm p i flags) 1 s₁ fun _ t =>
      ∃ new, Extends rs s t mm tables new ∧ ∀ q ∈ (i :: p) :: qs, q.length ≤ 4 ∧ t.slot mm q ≠ 0 := by
  refine (done.tree.growTable_runs met (way p above).2 short small).imp ?_
  intro _ t ⟨more, next, here⟩
  refine ⟨_, done.trans next, fun q mem => ?_⟩
  rcases List.mem_cons.mp mem with rfl | mem
  · refine ⟨?_, here⟩
    simp only [List.length_cons]
    omega
  · obtain ⟨bound, there⟩ := way q mem
    exact ⟨bound, by rwa [next.kept q bound there]⟩

/-- `vmm_map_page`, in a tree. -/
theorem Tree.vmmMapPage_runs (tree : Tree rs s mm tables) (met : ¬ s.ranOut = true)
    (small : flags < pageSize) (fits : phys ||| flags < 2 ^ 64) :
    Runs (meter rs) (vmmMapPage rs mm virt phys flags) 4 s fun _ t =>
      ∃ new, Tree rs t mm (new ++ tables) ∧ s.frames.taken ⊆ t.frames.taken ∧
        (∀ f ∈ new, f ∉ s.frames.taken) ∧ t.slot mm (pathOf virt) = phys ||| flags ∧
        ∀ p, p.length = 4 → p ≠ pathOf virt → t.slot mm p = s.slot mm p := by
  unfold vmmMapPage
  refine .bind (n := 1) (k := 3) ((tree.growRoot_runs met).imp ?_) fun _ =>
    .bind sticky_growTable fun _ => .bind sticky_growTable fun _ => .bind sticky_growTable fun _ =>
      .modify fun _ out => out
  intro _ s₁ ⟨_, done₁, root⟩ met₁
  have way₁ : ∀ q ∈ [[]], q.length ≤ 4 ∧ s₁.slot mm q ≠ 0 := by
    intro q mem
    rw [List.mem_singleton.mp mem]
    exact ⟨Nat.zero_le 4, root⟩
  refine .bind (n := 1) (k := 2) ((done₁.grow_runs way₁ (.head _) met₁ (by simp) small).imp ?_) fun _ =>
    .bind sticky_growTable fun _ => .bind sticky_growTable fun _ => .modify fun _ out => out
  intro _ s₂ ⟨_, done₂, way₂⟩ met₂
  refine .bind (n := 1) (k := 1) ((done₂.grow_runs way₂ (.head _) met₂ (by simp) small).imp ?_) fun _ =>
    .bind sticky_growTable fun _ => .modify fun _ out => out
  intro _ s₃ ⟨_, done₃, way₃⟩ met₃
  refine .bind (n := 1) (k := 0) ((done₃.grow_runs way₃ (.head _) met₃ (by simp) small).imp ?_) fun _ =>
    .modify fun _ out => out
  intro _ s₄ ⟨new, done, way⟩ met₄
  obtain ⟨edit, last⟩ := done.tree.setLeaf (i := p1Ndx virt) (way _ (.head _)).2 rfl fits
  refine .done rfl met₄ (Nat.le_refl _) ⟨new, last, done.grows, done.fresh, edit.value, ?_⟩
  intro p long ne
  exact (edit.apart long.le ne).trans (done.pages p long)

/-! ## Pages -/

/-- After some pages: each has a frame of its own, which is no table, and the others are what they were. -/
structure Drawn (rs : RegionTable) (s t : Vmm) (mm start flags : Nat) (frame : Nat → Nat) (k : Nat)
    (tables : List Nat) : Prop where
  tree : Tree rs t mm tables
  here : ∀ j < k, t.slot mm (pageAt start j) = frame j ||| flags
  isFrame : ∀ j < k, IsFrame rs (frame j)
  taken : ∀ j < k, frame j ∈ t.frames.taken
  page : ∀ j < k, frame j ∉ tables
  distinct : ∀ i < k, ∀ j < k, frame i = frame j → i = j
  others : ∀ p, p.length = 4 → (∀ j < k, p ≠ pageAt start j) → t.slot mm p = s.slot mm p

/-- The tree after `pmm_alloc`, with its slots. -/
theorem Tree.alloced (tree : Tree rs s mm tables) (alloced : Alloced rs s f s₁) :
    Tree rs s₁ mm tables ∧ ∀ p, p.length ≤ 4 → s₁.slot mm p = s.slot mm p := by
  have mms : s₁.mms = s.mms := by rw [alloced.state]
  have same : ∀ p, p.length ≤ 4 → s₁.slot mm p = s.slot mm p := fun p =>
    tree.slot_congr mms (tree.alloced_kept alloced)
  refine ⟨⟨alloced.inv, ?_, tree.exclusive.congr fun p => ?_, tree.nodup, fun g mem => ?_⟩, same⟩
  · rw [mms]
    exact tree.root
  · unfold Vmm.tableOf
    by_cases short : p.length ≤ 3
    · rw [same p (by omega)]
    · simp [short]
  · rw [alloced.taken]
    exact List.mem_cons_of_mem f (tree.handed mem)

/-- A tree is a matter of frames and of its root. -/
theorem Tree.records (tree : Tree rs s mm tables) (frames : t.frames = s.frames)
    (roots : ∀ k, (t.mms k).p4 = (s.mms k).p4) : Tree rs t mm tables := by
  refine ⟨frames ▸ tree.frames, ?_, tree.exclusive.congr fun p => ?_, tree.nodup, frames ▸ tree.handed⟩
  · rw [roots]
    exact tree.root
  · unfold Vmm.tableOf
    rw [slot_records frames roots]

theorem Drawn.records (done : Drawn rs s t mm start flags frame k tables) (frames : t'.frames = t.frames)
    (roots : ∀ k, (t'.mms k).p4 = (t.mms k).p4) : Drawn rs s t' mm start flags frame k tables := by
  refine ⟨done.tree.records frames roots, fun j lt => ?_, done.isFrame, fun j lt => ?_, done.page,
    done.distinct, fun p long other => (slot_records frames roots mm p).trans (done.others p long other)⟩
  · rw [slot_records frames roots]
    exact done.here j lt
  · rw [frames]
    exact done.taken j lt

/-- One round of `anon_mmap`. -/
theorem Drawn.round (few : n ≤ 2 ^ 19) (lt : k < n) (small : flags < pageSize)
    (met : ¬ t.ranOut = true) (done : Drawn rs s t mm start flags frame k tables) :
    Runs (meter rs) (mapFresh rs mm start flags k) 5 t fun _ t' =>
      ∃ frame tables, Drawn rs s t' mm start flags frame (k + 1) tables := by
  unfold mapFresh
  refine .step (intOffset_eq (by omega)) (Nat.le_refl _) ?_
  refine .bind (n := 1) (k := 4) ((allocFrame_runs done.tree.frames met).imp ?_)
    fun _ => sticky_vmmMapPage
  intro f t₁ alloced met₁
  obtain ⟨tree₁, same⟩ := done.tree.alloced alloced
  refine (tree₁.vmmMapPage_runs met₁ small (alloced.frame.or_lt small)).imp ?_
  intro _ t' ⟨new, tree', grows, fresh, here, kept⟩
  have mine : f ∈ t₁.frames.taken := by
    rw [alloced.taken]
    exact .head _
  have older : ∀ j < k, frame j ∈ t₁.frames.taken := by
    intro j less
    rw [alloced.taken]
    exact .tail _ (done.taken j less)
  have other : ∀ j < k, frame j ≠ f := fun j less same => alloced.fresh (same ▸ done.taken j less)
  have before : ∀ j < k, t'.slot mm (pageAt start j) = frame j ||| flags := by
    intro j less
    rw [← done.here j less, ← same _ (pageAt_length start j).le]
    apply kept _ (pageAt_length start j)
    exact fun path => Nat.ne_of_lt less (pageAt_inj few (by omega) lt path)
  have page : ∀ g ∈ t₁.frames.taken, g ∉ tables → g ∉ new ++ tables := fun g taken none mem =>
    (List.mem_append.mp mem).elim (fun late => fresh g late taken) none
  refine ⟨Function.update frame k f, new ++ tables, tree', ?_,
    forall_lt_update done.isFrame alloced.frame, ?_, ?_, ?_, fun p long other => ?_⟩
  · exact forall_lt_update (P := fun j g => t'.slot mm (pageAt start j) = g ||| flags) before here
  · exact forall_lt_update (P := fun _ g => g ∈ t'.frames.taken) (fun j less => grows (older j less))
      (grows mine)
  · exact forall_lt_update (P := fun _ g => g ∉ new ++ tables)
      (fun j less => page _ (older j less) (done.page j less))
      (page f mine fun old => alloced.fresh (done.tree.handed old))
  · refine forall_lt_update (P := fun i g => ∀ j < k + 1, g = Function.update frame k f j → i = j)
      (fun i less => ?_) ?_
    · exact forall_lt_update (P := fun j g => frame i = g → i = j) (done.distinct i less)
        fun same => absurd same (other i less)
    · exact forall_lt_update (P := fun j g => f = g → k = j)
        (fun j less same => absurd same.symm (other j less)) fun _ => rfl
  · rw [kept p long (other k (Nat.lt_succ_self k)), same p long.le]
    exact done.others p long fun j less => other j (Nat.lt_succ_of_lt less)

/-- `anon_mmap` in a tree. -/
theorem Tree.anonMmap_runs (tree : Tree rs s mm tables) (met : ¬ s.ranOut = true)
    (aligned : start % pageSize = 0) (few : n ≤ 2 ^ 19) :
    Runs (meter rs) (anonMmap rs mm start n prot user) (n * 5) s fun _ t =>
      ∃ frame tables, Drawn rs s t mm start (pageFlags prot user) frame n tables := by
  have small := pageFlags_lt prot user
  unfold anonMmap
  refine .step (panicIf_eq (not_not.mpr aligned)) (Nat.le_refl _) ?_
  refine .bind (k := 0) (Runs.imp (.forTo (fun k t => ∃ frame tables,
      Drawn rs s t mm start (pageFlags prot user) frame k tables) met
    ⟨fun _ => 0, tables, tree, ?_, ?_, ?_, ?_, ?_, fun _ _ _ => rfl⟩
    (fun k lt t met ⟨frame, tables, done⟩ => done.round few lt small met) fun _ => sticky_mapFresh) ?_)
    fun _ => .bind .get fun _ => .bind (.modify fun _ out => out) fun _ =>
      sticky_mmInsertVma ofFrames_meter
  · exact fun _ absurd => (by omega)
  · exact fun _ absurd => (by omega)
  · exact fun _ absurd => (by omega)
  · exact fun _ absurd => (by omega)
  · exact fun _ absurd => (by omega)
  intro _ t ⟨frame, tables, done⟩ met₁
  refine .of_get (.of_modify (Nat.le_refl _) ?_)
  have added : mmInsertVma mm t.nvmas { t with
      vmas := Function.update t.vmas t.nvmas (anonArea start n prot user), nvmas := t.nvmas + 1 } =
      .ok ((), t.addArea mm (anonArea start n prot user)) := rfl
  refine .done added ?_ ?_ ⟨frame, tables, ?_⟩
  · simp only [meter, Vmm.addArea, insertVma_ranOut] at met₁ ⊢
    exact met₁
  · simp only [meter, addArea_frames]
    exact Nat.le_refl _
  · exact done.records (addArea_frames _) fun _ => insertVma_p4

/-! ## What a fresh page is -/

section Drawn

variable (drawn : Drawn rs s t mm start flags frame n tables) (lt : k < n)

include drawn lt

theorem Drawn.there : t.slot mm (pageAt start k) ≠ 0 := by
  rw [drawn.here k lt]
  exact or_ne_zero (Nat.ne_of_gt (drawn.isFrame k lt).pos)

/-- A fresh page has the entry of its frame. -/
theorem Drawn.walk (small : flags < pageSize) :
    t.walk mm (add64 start (pageSize * k)) = some (frame k ||| flags) ∧
      pageOf (frame k ||| flags) = frame k := by
  refine ⟨walk_eq_some.mpr ⟨?_, ?_⟩, pageOf_or (drawn.isFrame k lt).aligned small⟩
  · rw [pathOf_page]
    exact drawn.here k lt
  · exact or_ne_zero (Nat.ne_of_gt (drawn.isFrame k lt).pos)

theorem Drawn.getPhys (small : flags < pageSize) :
    t.vmmGetPhys mm (add64 start (pageSize * k)) = frame k := by
  obtain ⟨walked, page⟩ := drawn.walk lt small
  rw [Vmm.vmmGetPhys, drawn.tree.leafEntry_eq walked, page]

/-- It has a frame that holds no table. -/
theorem Drawn.isPage (small : flags < pageSize) :
    t.vmmGetPhys mm (add64 start (pageSize * k)) ∉ tables ∧
      IsFrame rs (t.vmmGetPhys mm (add64 start (pageSize * k))) := by
  rw [drawn.getPhys lt small]
  exact ⟨drawn.page k lt, drawn.isFrame k lt⟩

end Drawn

end Blackcomb.Mm
