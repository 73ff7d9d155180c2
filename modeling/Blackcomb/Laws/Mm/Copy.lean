import Blackcomb.Laws.Mm.Walk
import Blackcomb.Mm.Copy

/-!
# A copy is exact

`mm_copy_from_buf` makes one round for every page that the bytes begin, and the source offset goes along
with the page. When every page has a frame of its own that holds no table of the space and no byte of the
buffer, each round finds its page where it was at the start and its bytes as they were: what is written is
the buffer, and nothing else is.

**What it does not establish.** Pages that share a frame, or a buffer that lies in the destination,
are outside the law: then the rounds see each other's bytes.
-/

namespace Blackcomb.Mm

open Memory Budget

variable {rs : RegionTable} {s t : Vmm} {m : Bytes} {mm dst dest start len virt a k n pg : Nat}
  {src : Nat → Nat} {tables : List Nat}

/-! ## Rounds -/

/-- How many rounds there are. -/
def copyRounds (len : Nat) : Nat := (len + pageSize - 1) / pageSize

/-- The state after some rounds. -/
def afterRounds (dst : Nat) (src : Nat → Nat) (start len : Nat) (s : Vmm) : Nat → Vmm
  | 0 => s
  | pg + 1 =>
    let t := afterRounds dst src start len s pg
    t.setMem (memcpyAt t.frames.mem (t.vmmGetPhys dst (add64 start (pageSize * pg)))
      (fun i => src (pageSize * pg + i)) (min (len - pageSize * pg) pageSize))

theorem copied_state (dst : Nat) (src : Nat → Nat) (start len : Nat) (s : Vmm) (pg : Nat) :
    afterRounds dst src start len s pg = s.setMem (afterRounds dst src start len s pg).frames.mem := by
  induction pg with
  | zero => rfl
  | succ pg ih =>
    rw [afterRounds, ih]
    rfl

theorem copied_mms (dst : Nat) (src : Nat → Nat) (start len : Nat) (s : Vmm) (pg : Nat) :
    (afterRounds dst src start len s pg).mms = s.mms := by
  rw [copied_state]
  rfl

/-- The call of `memcpy` in a round. -/
def callAt (dst : Nat) (src : Nat → Nat) (start len : Nat) (s : Vmm) (pg : Nat) : MemcpyCall where
  dest := (afterRounds dst src start len s pg).vmmGetPhys dst (add64 start (pageSize * pg))
  off := pageSize * pg
  bytes := min (len - pageSize * pg) pageSize

/-- The loop makes the rounds that are left. -/
theorem copyLoop_eq (fuel : Nat) (left : n + pg = copyRounds len) (enough : n ≤ fuel) :
    copyLoop dst src start fuel pg (len - pageSize * pg) (afterRounds dst src start len s pg) =
      .ok ((List.range' pg n).map (callAt dst src start len s),
        afterRounds dst src start len s (copyRounds len)) := by
  induction n generalizing fuel pg with
  | zero =>
    have done : ¬ len - pageSize * pg > 0 := by
      simp only [copyRounds, pageSize] at *
      omega
    obtain rfl : pg = copyRounds len := by omega
    cases fuel with
    | zero =>
      rw [copyLoop, if_neg done]
      rfl
    | succ fuel =>
      rw [copyLoop, if_neg done]
      rfl
  | succ n ih =>
    obtain ⟨fuel, rfl⟩ : ∃ f, fuel = f + 1 := ⟨fuel - 1, by omega⟩
    have more : len - pageSize * pg > 0 := by
      simp only [copyRounds, pageSize] at *
      omega
    have bytes : (if len - pageSize * pg > pageSize then pageSize else len - pageSize * pg) =
        min (len - pageSize * pg) pageSize := by
      split <;> omega
    have rest : len - pageSize * pg - min (len - pageSize * pg) pageSize = len - pageSize * (pg + 1) := by
      rw [Nat.mul_add, Nat.mul_one]
      omega
    rw [copyLoop, if_pos more, Budget.get_bind_apply, bytes, rest]
    refine Budget.bind_eq_ok.mpr ⟨(), afterRounds dst src start len s (pg + 1), rfl, ?_⟩
    refine Budget.bind_eq_ok.mpr ⟨_, _, ih fuel ?_ ?_, rfl⟩
    · omega
    · omega

/-- `mm_copy_from_buf` returns, after one round for every page that the bytes begin. -/
theorem mmCopyFromBufAt_eq (aligned : start % pageSize = 0) :
    mmCopyFromBufAt dst src start len s = .ok ((List.range (copyRounds len)).map
      (callAt dst src start len s), afterRounds dst src start len s (copyRounds len)) := by
  refine Budget.bind_eq_ok.mpr ⟨(), s, panicIf_eq (not_not.mpr aligned), ?_⟩
  have enough : copyRounds len ≤ len := by
    simp only [copyRounds, pageSize]
    omega
  have loop : copyLoop dst src start len 0 (len - pageSize * 0) (afterRounds dst src start len s 0) =
      .ok ((List.range' 0 (copyRounds len)).map (callAt dst src start len s),
        afterRounds dst src start len s (copyRounds len)) :=
    copyLoop_eq len (Nat.add_zero (copyRounds len)) enough
  rw [List.range_eq_range']
  exact loop

/-! ## Pages of their own -/

/-- What is written by a copy that does not go over its buffer. -/
theorem memcpyAt_apply (apart : ∀ i < n, src i < dest ∨ dest + n ≤ src i) :
    memcpyAt m dest src n a = if dest ≤ a ∧ a < dest + n then m (src (a - dest)) else m a := by
  suffices prefixes : ∀ k ≤ n, ∀ a, memcpyAt m dest src k a =
      if dest ≤ a ∧ a < dest + k then m (src (a - dest)) else m a from prefixes n (Nat.le_refl n) a
  intro k
  induction k with
  | zero =>
    intro _ a
    rw [memcpyAt, if_neg (by omega)]
  | succ k ih =>
    intro le a
    have out := apart k le
    have byte : memcpyAt m dest src k (src k) = m (src k) :=
      (ih (by omega) (src k)).trans (if_neg (by omega))
    rw [memcpyAt, Function.update_apply, byte, ih (by omega)]
    split
    · rename_i last
      rw [if_pos (by omega), last, Nat.add_sub_cancel_left]
    · split
      · rw [if_pos (by omega)]
      · rw [if_neg (by omega)]

/-- The pages that the bytes go to are mapped, each to a frame of its own, which has no table and no byte of
the buffer. -/
structure Backed (s : Vmm) (mm start len : Nat) (src : Nat → Nat) (tables : List Nat) : Prop where
  mapped : ∀ k < copyRounds len, s.slot mm (pageAt start k) ≠ 0
  distinct : ∀ j < copyRounds len, ∀ k < copyRounds len,
    s.vmmGetPhys mm (add64 start (pageSize * j)) = s.vmmGetPhys mm (add64 start (pageSize * k)) → j = k
  tables : ∀ k < copyRounds len, s.vmmGetPhys mm (add64 start (pageSize * k)) ∉ tables
  buffer : ∀ k < copyRounds len, ∀ i < len, src i < s.vmmGetPhys mm (add64 start (pageSize * k)) ∨
    s.vmmGetPhys mm (add64 start (pageSize * k)) + pageSize ≤ src i

/-- A page is found where it was, while the tables stay. -/
theorem Tree.vmmGetPhys_congr (tree : Tree rs s mm tables) (mms : t.mms = s.mms)
    (kept : ∀ g ∈ tables, SameFrame s.frames.mem t.frames.mem g)
    (here : s.slot mm (pathOf virt) ≠ 0) : t.vmmGetPhys mm virt = s.vmmGetPhys mm virt := by
  have same : (t.only mm).slot mm (pathOf virt) = s.slot mm (pathOf virt) := by
    rw [Vmm.only_slot]
    exact tree.slot_congr mms kept (pathOf_length virt).le
  have alone : (t.only mm).leafEntry mm virt = t.leafEntry mm virt := by
    unfold Vmm.leafEntry Vmm.p1GetEntry Vmm.getEntry
    rw [Vmm.only_tableAt]
    rfl
  have new : t.leafEntry mm virt = s.slot mm (pathOf virt) := by
    rw [← alone, Blackcomb.Mm.leafEntry_eq (tree.only_congr mms kept) virt (by rwa [same]), same]
  have old : s.leafEntry mm virt = s.slot mm (pathOf virt) := tree.getEntry_eq (Radix.slot_above here)
  rw [Vmm.vmmGetPhys, Vmm.vmmGetPhys, new, old]

theorem pathOf_page (start k : Nat) : pathOf (add64 start (pageSize * k)) = pageAt start k := by
  rw [pageAt, Nat.mul_comm]

theorem memcpyAt_outside (out : a < dest ∨ dest + n ≤ a) : memcpyAt m dest src n a = m a := by
  induction n with
  | zero => rfl
  | succ n ih => rw [memcpyAt, Function.update_of_ne (by omega), ih (by omega)]

/-- While the rounds go to pages that are mapped to no table, the tables stay. -/
theorem Tree.copied_tables (tree : Tree rs s mm tables)
    (mapped : ∀ k < pg, s.slot mm (pageAt start k) ≠ 0)
    (pages : ∀ k < pg, s.vmmGetPhys mm (add64 start (pageSize * k)) ∉ tables) :
    ∀ g ∈ tables, SameFrame s.frames.mem (afterRounds mm src start len s pg).frames.mem g := by
  induction pg with
  | zero => exact fun _ _ _ _ _ => rfl
  | succ pg ih =>
    have before := ih (fun k lt => mapped k (by omega)) fun k lt => pages k (by omega)
    intro g mem b low high
    have page := pages pg (Nat.lt_succ_self pg)
    have phys := tree.vmmGetPhys_congr (copied_mms mm src start len s pg) before
      ((pathOf_page start pg).symm ▸ mapped pg (Nat.lt_succ_self pg))
    have here : s.vmmGetPhys mm (add64 start (pageSize * pg)) % pageSize = 0 := pageOf_mod _
    have there := (tree.frames.frames g (tree.handed mem)).aligned
    have ne : s.vmmGetPhys mm (add64 start (pageSize * pg)) ≠ g := fun same => page (same ▸ mem)
    refine (memcpyAt_outside ?_).trans (before g mem b low high)
    rw [phys]
    simp only [pageSize] at *
    omega

/-- So the pages are where they were. -/
theorem Tree.copied_phys (tree : Tree rs s mm tables)
    (mapped : ∀ k < pg, s.slot mm (pageAt start k) ≠ 0)
    (pages : ∀ k < pg, s.vmmGetPhys mm (add64 start (pageSize * k)) ∉ tables)
    (here : s.slot mm (pathOf virt) ≠ 0) :
    (afterRounds mm src start len s pg).vmmGetPhys mm virt = s.vmmGetPhys mm virt :=
  tree.vmmGetPhys_congr (copied_mms mm src start len s pg) (tree.copied_tables mapped pages) here

theorem Tree.copied_slot {p : Path} (tree : Tree rs s mm tables)
    (mapped : ∀ k < pg, s.slot mm (pageAt start k) ≠ 0)
    (pages : ∀ k < pg, s.vmmGetPhys mm (add64 start (pageSize * k)) ∉ tables) (short : p.length ≤ 4) :
    (afterRounds mm src start len s pg).slot mm p = s.slot mm p :=
  tree.slot_congr (copied_mms mm src start len s pg) (tree.copied_tables mapped pages) short

/-- Every byte in no page of the copy stays. -/
theorem copied_outside (out : ∀ k < pg, a < (callAt mm src start len s k).dest ∨
    (callAt mm src start len s k).dest + pageSize ≤ a) :
    (afterRounds mm src start len s pg).frames.mem a = s.frames.mem a := by
  induction pg with
  | zero => rfl
  | succ pg ih =>
    have last := out pg (Nat.lt_succ_self pg)
    simp only [callAt] at last
    refine Eq.trans (memcpyAt_outside ?_) (ih fun k lt => out k (by omega))
    omega

/-- A copy to frames that are no tables leaves the tree as it was. -/
theorem Tree.copied_tree (tree : Tree rs s mm tables)
    (mapped : ∀ k < pg, s.slot mm (pageAt start k) ≠ 0)
    (pages : ∀ k < pg, s.vmmGetPhys mm (add64 start (pageSize * k)) ∉ tables)
    (frames : ∀ k < pg, IsFrame rs (s.vmmGetPhys mm (add64 start (pageSize * k)))) :
    Tree rs (afterRounds mm src start len s pg) mm tables := by
  have dest : ∀ k < pg, (callAt mm src start len s k).dest =
      s.vmmGetPhys mm (add64 start (pageSize * k)) := by
    intro k lt
    refine tree.copied_phys (fun j less => mapped j (by omega)) (fun j less => pages j (by omega)) ?_
    rw [pathOf_page]
    exact mapped k lt
  refine ⟨?_, ?_, tree.exclusive.congr fun p => ?_, tree.nodup, ?_⟩
  · rw [copied_state]
    refine tree.frames.congr fun r mem i lt => copied_outside fun k less => ?_
    rw [dest k less]
    exact (frames k less).apart_byte mem lt
  · rw [copied_mms]
    exact tree.root
  · unfold Vmm.tableOf
    by_cases short : p.length ≤ 3
    · rw [tree.copied_slot mapped pages (by omega)]
    · simp only [short, false_and, if_false]
  · rw [copied_state]
    exact tree.handed

/-- Where a byte of the copy goes. -/
theorem translate_eq {j : Nat} (aligned : start % pageSize = 0) :
    s.translate mm (add64 start j) =
      s.vmmGetPhys mm (add64 start (pageSize * (j / pageSize))) + j % pageSize := by
  have path : pathOf (add64 start j) = pathOf (add64 start (pageSize * (j / pageSize))) := by
    rw [pathOf_eq_iff]
    simp only [add64, pageSize] at *
    omega
  have offset : add64 start j % pageSize = j % pageSize := by
    simp only [add64, pageSize] at *
    omega
  have entry : s.leafEntry mm (add64 start j) =
      s.leafEntry mm (add64 start (pageSize * (j / pageSize))) := by
    simp only [pathOf, List.cons.injEq, and_true] at path
    obtain ⟨first, second, third, fourth⟩ := path
    rw [Vmm.leafEntry, Vmm.leafEntry, first, second, third, fourth]
  rw [Vmm.translate, offset, Vmm.vmmGetPhys, entry]
  rfl

/-- After some rounds: the bytes that were due have been written, and no others. -/
structure CopiedUpTo (s t : Vmm) (mm start len : Nat) (src : Nat → Nat) (pg : Nat) : Prop where
  written : ∀ j < len, j < pageSize * pg →
    t.frames.mem (s.translate mm (add64 start j)) = s.frames.mem (src j)
  kept : ∀ a, (∀ j < len, j < pageSize * pg → a ≠ s.translate mm (add64 start j)) →
    t.frames.mem a = s.frames.mem a

theorem div_lt_copyRounds {j : Nat} (lt : j < len) : j / pageSize < copyRounds len := by
  simp only [copyRounds, pageSize]
  omega

/-- The pages are where they were, after any rounds. -/
theorem Backed.copied_phys (backed : Backed s mm start len src tables) (tree : Tree rs s mm tables)
    (le : pg ≤ copyRounds len) (lt : k < copyRounds len) : (afterRounds mm src start len s pg).vmmGetPhys mm
      (add64 start (pageSize * k)) = s.vmmGetPhys mm (add64 start (pageSize * k)) := by
  refine tree.copied_phys (fun j less => backed.mapped j (by omega))
    (fun j less => backed.tables j (by omega)) ?_
  rw [pathOf_page]
  exact backed.mapped k lt

section Backed

variable (aligned : start % pageSize = 0) (backed : Backed s mm start len src tables)

include aligned backed

/-- A byte of the copy is in no other page's frame. -/
theorem Backed.page_apart {j : Nat} (less : j < len) (lt : k < copyRounds len) (ne : j / pageSize ≠ k) :
    s.translate mm (add64 start j) < s.vmmGetPhys mm (add64 start (pageSize * k)) ∨
      s.vmmGetPhys mm (add64 start (pageSize * k)) + pageSize ≤ s.translate mm (add64 start j) := by
  have differ : s.vmmGetPhys mm (add64 start (pageSize * (j / pageSize))) ≠
      s.vmmGetPhys mm (add64 start (pageSize * k)) := fun same =>
    ne (backed.distinct _ (div_lt_copyRounds less) k lt same)
  have here : s.vmmGetPhys mm (add64 start (pageSize * (j / pageSize))) % pageSize = 0 := pageOf_mod _
  have there : s.vmmGetPhys mm (add64 start (pageSize * k)) % pageSize = 0 := pageOf_mod _
  rw [translate_eq aligned]
  simp only [pageSize] at *
  omega

/-- A byte of the copy is no byte of the buffer. -/
theorem Backed.ne_buffer {j i : Nat} (less : j < len) (lt : i < len) :
    src i ≠ s.translate mm (add64 start j) := by
  have out := backed.buffer _ (div_lt_copyRounds less) i lt
  have small : j % pageSize < pageSize := Nat.mod_lt _ (by decide)
  rw [translate_eq aligned]
  omega

/-- One more round. -/
theorem CopiedUpTo.round (tree : Tree rs s mm tables) (lt : pg < copyRounds len)
    (done : CopiedUpTo s (afterRounds mm src start len s pg) mm start len src pg) :
    CopiedUpTo s (afterRounds mm src start len s (pg + 1)) mm start len src (pg + 1) := by
  rw [afterRounds, backed.copied_phys tree (Nat.le_of_lt lt) lt]
  generalize afterRounds mm src start len s pg = t at done
  have last : pageSize * pg < len := by
    simp only [copyRounds, pageSize] at *
    omega
  have next : pageSize * (pg + 1) = pageSize * pg + pageSize := Nat.mul_succ pageSize pg
  have due : ∀ o < min (len - pageSize * pg) pageSize,
      s.translate mm (add64 start (pageSize * pg + o)) =
        s.vmmGetPhys mm (add64 start (pageSize * pg)) + o := by
    intro o small
    have page : (pageSize * pg + o) / pageSize = pg := by
      simp only [pageSize] at *
      omega
    have offset : (pageSize * pg + o) % pageSize = o := by
      simp only [pageSize] at *
      omega
    rw [translate_eq aligned, page, offset]
  have bytes : ∀ a, memcpyAt t.frames.mem (s.vmmGetPhys mm (add64 start (pageSize * pg)))
      (fun i => src (pageSize * pg + i)) (min (len - pageSize * pg) pageSize) a = _ := fun a =>
    memcpyAt_apply fun i small => (backed.buffer pg lt (pageSize * pg + i) (by omega)).imp_right
      fun high => Nat.le_trans (by omega) high
  -- what the copy does to a byte is all that matters from here on
  generalize memcpyAt t.frames.mem (s.vmmGetPhys mm (add64 start (pageSize * pg)))
    (fun i => src (pageSize * pg + i)) (min (len - pageSize * pg) pageSize) = m' at bytes ⊢
  refine ⟨fun j less before => ?_, fun a other => ?_⟩
  · change m' _ = _
    by_cases now : pageSize * pg ≤ j
    · obtain ⟨o, rfl⟩ := Nat.exists_eq_add_of_le now
      have small : o < min (len - pageSize * pg) pageSize := by omega
      rw [bytes, due o small, if_pos (by omega), Nat.add_sub_cancel_left]
      exact done.kept _ fun j less' _ => backed.ne_buffer aligned less' less
    · have apart := backed.page_apart aligned less lt (k := pg) (by
        simp only [pageSize] at *
        omega)
      rw [bytes, if_neg (by omega)]
      exact done.written j less (by omega)
  · change m' a = _
    have out : ¬ (s.vmmGetPhys mm (add64 start (pageSize * pg)) ≤ a ∧
        a < s.vmmGetPhys mm (add64 start (pageSize * pg)) + min (len - pageSize * pg) pageSize) := by
      intro inside
      have small : a - s.vmmGetPhys mm (add64 start (pageSize * pg)) <
        min (len - pageSize * pg) pageSize := by omega
      apply other (pageSize * pg + (a - s.vmmGetPhys mm (add64 start (pageSize * pg)))) (by omega)
        (by omega)
      rw [due _ small]
      omega
    rw [bytes, if_neg out]
    exact done.kept a fun j less before => other j less (by omega)

/-- All the rounds. -/
theorem copied_upTo (tree : Tree rs s mm tables) (le : pg ≤ copyRounds len) :
    CopiedUpTo s (afterRounds mm src start len s pg) mm start len src pg := by
  induction pg with
  | zero => exact ⟨fun j _ absurd => (by omega), fun _ _ => rfl⟩
  | succ pg ih => exact (ih (by omega)).round aligned backed tree (by omega)

/-- With the bytes of the buffer given beforehand, `mm_copy_from_buf` is the one of `Vmm`. -/
theorem mmCopyFromBuf_refines (tree : Tree rs s mm tables) :
    mmCopyFromBuf mm (fun i => s.frames.mem (src i)) start len s =
      .ok ((), afterRounds mm src start len s (copyRounds len)) := by
  have rounds : ∀ n ≤ copyRounds len, forTo n (fun pg => (modify fun t : Vmm =>
      t.setMem (memcpyFrom t.frames.mem (t.vmmGetPhys mm (add64 start (pageSize * pg)))
        (fun i => s.frames.mem (src (pageSize * pg + i))) (min (len - pageSize * pg) pageSize)) :
      Op Unit)) s = .ok ((), afterRounds mm src start len s n) := by
    intro n le
    induction n with
    | zero => rfl
    | succ pg ih =>
      refine Budget.bind_eq_ok.mpr ⟨(), _, ih (by omega), ?_⟩
      have done : CopiedUpTo s (afterRounds mm src start len s pg) mm start len src pg :=
        copied_upTo aligned backed tree (by omega)
      have same : ∀ i < len, (afterRounds mm src start len s pg).frames.mem (src i) =
          s.frames.mem (src i) := fun i lt =>
        done.kept _ fun j less _ => backed.ne_buffer aligned less lt
      have page : (afterRounds mm src start len s pg).vmmGetPhys mm (add64 start (pageSize * pg)) =
          s.vmmGetPhys mm (add64 start (pageSize * pg)) := backed.copied_phys tree (by omega) (by omega)
      refine congrArg (fun m' => Except.ok ((), (afterRounds mm src start len s pg).setMem m')) ?_
      rw [page]
      funext a
      rw [memcpyFrom_apply, memcpyAt_apply fun i small =>
        (backed.buffer pg (by omega) (pageSize * pg + i) (by omega)).imp_right
          fun high => Nat.le_trans (by omega) high]
      split
      · exact (same _ (by omega)).symm
      · rfl
  exact Budget.bind_eq_ok.mpr ⟨(), s, panicIf_eq (not_not.mpr aligned), rounds _ (Nat.le_refl _)⟩

end Backed

/-- **Copying is exact.** For every space whose tables form a tree, and every buffer and range of bytes from
the start of a page such that the pages are mapped, each to a frame of its own that holds no table and no
byte of the buffer: `mm_copy_from_buf` returns after one round for every page that the bytes begin; then the
byte at every address of the range is the one of the buffer, and every other byte of memory and the rest of
the state are what they were. -/
theorem mmCopyFromBufAt_exact (rs : RegionTable) (s : Vmm) (mm : Nat) (tables : List Nat)
    (src : Nat → Nat) (start len : Nat) (tree : Tree rs s mm tables) (aligned : start % pageSize = 0)
    (backed : Backed s mm start len src tables) :
    ∃ calls s', mmCopyFromBufAt mm src start len s = .ok (calls, s') ∧
      calls.length = (len + pageSize - 1) / pageSize ∧ s' = s.setMem s'.frames.mem ∧
      (∀ j < len, s'.frames.mem (s'.translate mm (add64 start j)) = s.frames.mem (src j)) ∧
      ∀ a, (∀ j < len, a ≠ s.translate mm (add64 start j)) → s'.frames.mem a = s.frames.mem a := by
  have done := copied_upTo aligned backed tree (Nat.le_refl (copyRounds len))
  have all : ∀ j < len, j < pageSize * copyRounds len := by
    intro j lt
    simp only [copyRounds, pageSize]
    omega
  refine ⟨_, _, mmCopyFromBufAt_eq aligned, ?_, copied_state _ _ _ _ _ _, fun j lt => ?_, fun a other => ?_⟩
  · rw [List.length_map, List.length_range]
    rfl
  · rw [translate_eq aligned, backed.copied_phys tree (Nat.le_refl _) (div_lt_copyRounds lt),
      ← translate_eq aligned]
    exact done.written j lt (all j lt)
  · exact done.kept a fun j lt _ => other j lt

/-- A page and three bytes more, to two pages that lie next to each other on both sides. -/
theorem mmCopyFromBufAt_exact_pages : ∃ s₁ s calls s',
    vmmMapPage wideTable 0 0x400000 0xb8000 3 (Vmm.boot wideTable fun _ => 0) = .ok ((), s₁) ∧
      vmmMapPage wideTable 0 0x401000 0xb9000 3 s₁ = .ok ((), s) ∧
      mmCopyFromBufAt 0 (fun i => 0x1000 + i) 0x400000 4099 s = .ok (calls, s') ∧ calls.length = 2 ∧
      s'.frames.mem (s'.translate 0 0x400002) = s.frames.mem 0x1002 ∧
      s'.frames.mem (s'.translate 0 0x401001) = s.frames.mem 0x2001 := by
  obtain ⟨s₁, new₁, ran₁, first, whole⟩ := exists_first_page
  have small : 3 < pageSize := by decide
  have fits : 0xb9000 ||| 3 < 2 ^ 64 := by decide
  have enough : s₁.missing 0 0x401000 ≤ (meter wideTable).left s₁ := by
    rw [whole]
    exact Nat.zero_le _
  obtain ⟨s, new, ran, done⟩ := vmmMapPage_spec first.tree small fits enough
  have page₀ : s.slot 0 (pathOf 0x400000) = 0xb8000 ||| 3 := by
    have apart : ¬ pathOf 0x400000 <:+ pathOf 0x401000 := by decide
    rw [done.kept _ (Nat.le_of_eq (pathOf_length _)) (by decide) (.inr apart)]
    exact first.page
  have pages : ∀ k < 2, s.slot 0 (pageAt 0x400000 k) = (0xb8000 + pageSize * k) ||| 3 := by
    intro k lt
    obtain rfl | rfl : k = 0 ∨ k = 1 := by omega
    · exact page₀
    · exact done.page
  have phys : ∀ k < 2, s.vmmGetPhys 0 (add64 0x400000 (pageSize * k)) = 0xb8000 + pageSize * k := by
    intro k lt
    obtain rfl | rfl : k = 0 ∨ k = 1 := by omega
    · have page : s.walk 0 0x400000 = some (0xb8000 ||| 3) := walk_eq_some.mpr ⟨page₀, by decide⟩
      exact (congrArg pageOf (done.tree.leafEntry_eq page)).trans (by decide)
    · have page : s.walk 0 0x401000 = some (0xb9000 ||| 3) := walk_eq_some.mpr ⟨done.page, by decide⟩
      exact (congrArg pageOf (done.tree.leafEntry_eq page)).trans (by decide)
  have two : copyRounds 4099 = 2 := by decide
  have backed : Backed s 0 0x400000 4099 (fun i => 0x1000 + i) (new ++ (new₁ ++ [])) := by
    refine ⟨fun k lt => ?_, fun j ltJ k ltK same => ?_, fun k lt mem => ?_, fun k lt i small => ?_⟩
    · rw [pages k (two ▸ lt)]
      exact Nat.ne_of_gt (Nat.lt_of_lt_of_le (by decide) Nat.right_le_or)
    · rw [phys j (two ▸ ltJ), phys k (two ▸ ltK)] at same
      simp only [pageSize] at same
      omega
    · obtain ⟨r, region, i, _, _, same⟩ := done.tree.frames.frames _ (done.tree.handed mem)
      rw [phys k (two ▸ lt), List.mem_singleton.mp region] at same
      have start : wideRegion.start = 0x200000 := rfl
      rw [two] at lt
      simp only [pageSize] at same
      omega
    · rw [phys k (two ▸ lt)]
      simp only [pageSize]
      omega
  obtain ⟨calls, s', copied, count, _, written, _⟩ :=
    mmCopyFromBufAt_exact wideTable s 0 (new ++ (new₁ ++ [])) (fun i => 0x1000 + i) 0x400000 4099 done.tree
      (by decide) backed
  exact ⟨s₁, s, calls, s', ran₁, ran, copied, count, written 2 (by decide), written 4097 (by decide)⟩

end Blackcomb.Mm
