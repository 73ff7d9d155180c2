import Blackcomb.Laws.Fs.Segments

/-!
# Executables in the user half

`exec_elf` on a file whose segments lie in the user half, share no page with each other and with the
stack, and have no more bytes in the file than pages in memory. The invariant of address spaces holds
after it, the new space is live, and the tables of the others are not touched.

**What it does not establish.** Files that do not meet this are loaded, too, and break the
invariant; `Exec` and `Overrun` say how.
-/

namespace Blackcomb.Fs

open Memory Run Budget Mm

variable {rs : RegionTable} {s s' t t' : Vmm} {mm n start : Nat} {elf : Bytes}
  {done : List (Nat × Nat)} {lists areas : Nat → List Nat}

/-- A state of `exec_elf` after `mm_new`, which left `s`. -/
structure Executing (rs : RegionTable) (s t : Vmm) (mm : Nat) (done : List (Nat × Nat))
    (lists areas : Nat → List Nat) : Prop where
  spaces : Spaces rs t lists areas
  ranges : (areas mm).map (fun r => rangeOf (t.vmas r)) = done
  slots : ∀ k p, p.length ≤ 4 → k ≠ mm → t.slot k p = s.slot k p
  names : t.nmms = s.nmms ∧ t.freedMms = s.freedMms

namespace Executing

theorem live_iff {k : Nat} (executing : Executing rs s t mm done lists areas) :
    t.Live k ↔ s.Live k := by
  rw [Vmm.Live, Vmm.Live, executing.names.1, executing.names.2]

/-- The space that `mm_new` left. -/
theorem of_born (spaces : Spaces rs s lists areas) (born : Born rs s t lists areas) :
    Executing rs t t s.nmms [] (Function.update lists s.nmms [s.nlis + 2, s.nlis + 1, s.nlis])
      (Function.update areas s.nmms []) ∧ t.Live s.nmms := by
  refine ⟨⟨born.spaces, ?_, fun _ _ _ _ => rfl, rfl, rfl⟩, (born.live_iff spaces).mpr (.inr rfl)⟩
  rw [Function.update_self]
  rfl

/-- What is covered by no range has no entry, in the user half. -/
theorem unmapped {virt : Nat} (executing : Executing rs s t mm done lists areas) (live : s.Live mm)
    (user : virt + pageSize ≤ 2 ^ 47) (out : ∀ a ∈ done, ¬ Covers a (pathOf virt)) :
    t.slot mm (pathOf virt) = 0 := by
  have space := executing.spaces.space mm (executing.live_iff.mpr live)
  have path : pageAt virt 0 = pathOf virt := by
    rw [pageAt, pathOf_eq_iff]
    simp only [add64, pageSize] at *
    omega
  refine space.unmapped _ (pathOf_length virt) (fun r mem => ?_) fun a static => ?_
  · apply out (rangeOf (t.vmas r))
    rw [← executing.ranges]
    exact List.mem_map_of_mem mem
  · rw [← path]
    exact user_off_kernel (n := 1) (by omega) Nat.one_pos static

/-- `anon_mmap` of a range of the user half. -/
theorem anonMmap (executing : Executing rs s t mm done lists areas) (met : ¬ t.ranOut = true)
    (live : s.Live mm) (aligned : start % pageSize = 0) (few : n ≤ 2 ^ 19)
    (low : start + n * pageSize ≤ 2 ^ 47)
    (apart : ∀ b ∈ done, ∀ v, Covers (start, n) v → ¬ Covers b v) (prot : Nat) (user : Bool) :
    Runs (meter rs) (Mm.anonMmap rs mm start n prot user) (n * 5) t fun _ t' =>
      ∃ lists' areas', Executing rs s t' mm ((start, n) :: done) lists' areas' := by
  have spaces := executing.spaces
  have liveT := executing.live_iff.mpr live
  have regular : Regular (anonArea start n prot user) := by
    refine ⟨rfl, ⟨aligned, Nat.le_trans low (by decide), few⟩, user_canonical low,
      Nat.mod_lt _ (by decide), ?_⟩
    rintro b static v ⟨k, lt, rfl⟩
    exact user_off_kernel low lt static
  have free : ∀ r ∈ areas mm, ∀ k < n, ¬ InArea (t.vmas r) (pageAt start k) := by
    intro r mem k lt
    refine apart (rangeOf (t.vmas r)) ?_ _ ⟨k, lt, rfl⟩
    rw [← executing.ranges]
    exact List.mem_map_of_mem mem
  refine (anonMmap_runs spaces met liveT regular free).imp ?_
  rintro _ t' ⟨frame, mapped⟩
  refine ⟨_, _, mapped.spaces, ?_, fun k p short ne => ?_, ?_⟩
  · rw [Function.update_self, List.map_cons, mapped.area, ← executing.ranges]
    apply congrArg
    apply List.map_congr_left
    intro r mem
    rw [mapped.areas r ((spaces.space mm liveT).named r mem).2]
  · rw [mapped.slots k p short ne]
    exact executing.slots k p short ne
  · rw [mapped.live.1, mapped.live.2]
    exact executing.names

/-- `mm_copy_from_buf` into the last range. -/
theorem copyFromBuf {buf : Bytes} {len : Nat}
    (executing : Executing rs s t mm ((start, n) :: done) lists areas) (met : ¬ t.ranOut = true)
    (live : s.Live mm) (aligned : start % pageSize = 0) (fits : len ≤ n * pageSize) :
    Runs (meter rs) (mmCopyFromBuf mm buf start len) 0 t fun _ t' =>
      Executing rs s t' mm ((start, n) :: done) lists areas := by
  have spaces := executing.spaces
  have liveT := executing.live_iff.mpr live
  have rounds : (len + pageSize - 1) / pageSize ≤ n := by
    simp only [pageSize] at *
    omega
  obtain ⟨r, mem, range⟩ : ∃ r ∈ areas mm, rangeOf (t.vmas r) = (start, n) := by
    have head : (start, n) ∈ (areas mm).map fun r => rangeOf (t.vmas r) := by
      rw [executing.ranges]
      exact .head _
    exact List.mem_map.mp head
  obtain ⟨first, count⟩ := Prod.mk.inj range
  have inside : ∀ k < n, InArea (t.vmas r) (pageAt start k) := fun k lt =>
    ⟨k, count ▸ lt, by rw [first]⟩
  refine (mmCopyFromBuf_runs spaces.tables met aligned rounds
    (fun k lt => .inr ⟨liveT, r, mem, inside k lt⟩)
    fun k lt => ((spaces.space mm liveT).mapped r mem _ (inside k lt)).1).imp ?_
  intro _ t' filled
  have state := filled.state
  have tables := filled.tables
  have slots := filled.slots
  rw [state] at tables slots ⊢
  refine ⟨spaces.setMem tables slots, executing.ranges, fun k p short ne => ?_, executing.names⟩
  rw [slots k p short]
  exact executing.slots k p short ne

/-- `map_segment` of a header that fits. -/
theorem mapSegment {ph : Elf64Phdr} (elf : Bytes) (executing : Executing rs s t mm done lists areas)
    (met : ¬ t.ranOut = true) (live : s.Live mm) (few : ph.memPages ≤ 2 ^ 19)
    (low : ph.mapAddr + ph.memPages * pageSize ≤ 2 ^ 47)
    (apart : ∀ b ∈ done, ∀ v, Covers (ph.mapAddr, ph.memPages) v → ¬ Covers b v)
    (fits : ph.fileBytes ≤ ph.memPages * pageSize) :
    Runs (meter rs) (Fs.mapSegment rs mm elf ph) (ph.memPages * 5) t fun _ t' =>
      ∃ lists' areas', Executing rs s t' mm ((ph.mapAddr, ph.memPages) :: done) lists' areas' := by
  have aligned := ph.mapAddr_aligned
  have mapped := executing.anonMmap met live aligned few low apart (pageProtRead % 2 ^ 8) true
  refine .bind (k := 0) (mapped.imp ?_) fun _ => sticky_mmCopyFromBuf ofFrames_meter
  rintro _ u ⟨lists', areas', mapped⟩ met'
  refine (mapped.copyFromBuf met' live aligned fits).imp ?_
  intro _ t' copied
  exact ⟨lists', areas', copied⟩

/-- The loop of `exec_elf`. -/
theorem segments {c : Nat} (executing : Executing rs s s mm [] lists areas)
    (met : ¬ s.ranOut = true) (live : s.Live mm) (few : c ≤ 2 ^ 19)
    (low : ∀ a ∈ Fs.segments elf n, a.1 + a.2 * pageSize ≤ 2 ^ 47) (apart : Apart (Fs.segments elf n))
    (fits : ∀ i < n, (phArr elf i).pType = ptLoad →
      (phArr elf i).fileBytes ≤ (phArr elf i).memPages * pageSize)
    (small : ∀ i < n, (phArr elf i).pType = ptLoad → (phArr elf i).memPages ≤ c) :
    Runs (meter rs) (forTo n (loadSegment rs mm elf)) (n * (c * 5)) s fun _ t =>
      ∃ lists' areas', Executing rs s t mm (Fs.segments elf n) lists' areas' := by
  induction n with
  | zero => exact .pure met ⟨lists, areas, executing⟩
  | succ n ih =>
    rw [Fs.segments] at low apart
    have before := ih (fun a mem => low a (List.mem_append_right _ mem))
      (List.pairwise_append.mp apart).2.1 (fun i lt => fits i (Nat.lt_succ_of_lt lt))
      fun i lt => small i (Nat.lt_succ_of_lt lt)
    rw [Nat.succ_mul]
    refine .bind (n := n * (c * 5)) (before.imp ?_) fun _ => sticky_loadSegment
    rintro _ t ⟨lists', areas', earlier⟩ met'
    rw [loadSegment, Fs.segments]
    rw [segmentOf] at low apart ⊢
    split
    · rename_i load
      rw [if_pos load] at low apart
      have count := small n (Nat.lt_succ_self n) load
      have lower := low ((phArr elf n).mapAddr, (phArr elf n).memPages) List.mem_cons_self
      have mapped := earlier.mapSegment elf met' live (Nat.le_trans count few) lower
        (List.pairwise_cons.mp apart).1 (fits n (Nat.lt_succ_self n) load)
      exact mapped.mono (Nat.mul_le_mul_right 5 count) fun _ _ done => done
    · exact .pure met' ⟨lists', areas', earlier⟩

end Executing

/-- A loop that returned mapped few pages in each round. -/
theorem segments_returned {i : Nat} (ran : forTo n (loadSegment rs mm elf) s = .ok ((), t))
    (lt : i < n) (load : (phArr elf i).pType = ptLoad) : (phArr elf i).memPages ≤ 2 ^ 19 := by
  induction n generalizing t with
  | zero => exact absurd lt (Nat.not_lt_zero i)
  | succ n ih =>
    obtain ⟨_, u, before, round⟩ := Budget.bind_eq_ok.mp ran
    rcases Nat.lt_succ_iff_lt_or_eq.mp lt with less | rfl
    · exact ih before less
    · rw [loadSegment, if_pos load] at round
      obtain ⟨_, _, mapped, _⟩ := Budget.bind_eq_ok.mp round
      exact (anonMmap_returned mapped).2

/-! ## exec_elf -/

/-- What `exec_elf` did: there is a space more, with the ranges of the file, and the tables of the
others stay. -/
structure Executed (rs : RegionTable) (s s' : Vmm) (elf : Bytes) : Prop where
  spaces : ∃ lists areas, Spaces rs s' lists areas ∧
    (areas s.nmms).map (fun r => rangeOf (s'.vmas r)) = userRanges elf
  slots : ∀ k p, p.length ≤ 4 → k ≠ s.nmms → s'.slot k p = s.slot k p
  nmms : s'.nmms = s.nmms + 1
  freed : s'.freedMms = s.freedMms

theorem execElf_runs {c : Nat} (spaces : Spaces rs s lists areas) (met : ¬ s.ranOut = true)
    (user : UserSegments elf) (fits : FileFits elf) (few : c ≤ 2 ^ 19)
    (small : ∀ i < ePhnum elf, (phArr elf i).pType = ptLoad → (phArr elf i).memPages ≤ c) :
    Runs (meter rs) (execElf rs elf) (6656 + (ePhnum elf * (c * 5) + 160)) s fun new s' =>
      new = s.nmms ∧ Executed rs s s' elf := by
  obtain ⟨low, apart⟩ := user
  rw [userRanges, Apart, List.pairwise_cons] at apart
  refine .bind ((mmNew_runs spaces met).imp ?_) fun _ => sticky_load
  rintro mm s₁ ⟨rfl, born⟩ met₁
  obtain ⟨start, live⟩ := Executing.of_born spaces born
  have loop := start.segments met₁ live few (fun a mem => low a (.tail _ mem)) apart.2 fits small
  refine .bind (loop.imp ?_) fun _ => .bind sticky_anonMmapUser fun _ => .pure _
  rintro _ t ⟨lists', areas', loaded⟩ met'
  have stack := loaded.anonMmap met' live (by decide : userStackBase % pageSize = 0)
    (by decide : userStackPages ≤ 2 ^ 19) (by decide) apart.1
    ((pageProtRead ||| pageProtWrite) % 2 ^ 8) true
  refine .bind (n := 160) (k := 0) (stack.imp ?_) fun _ => .pure _
  rintro _ s' ⟨lists', areas', done⟩ met'
  refine .pure met' ⟨rfl, ⟨_, _, done.spaces, done.ranges⟩, fun k p short ne => ?_, ?_, ?_⟩
  · rw [done.slots k p short ne]
    exact born.slots k p short ne
  · rw [done.names.1]
    exact born.nmms
  · rw [done.names.2]
    exact born.freed

/-- `exec_elf` that returned. -/
theorem execElf_done {new : Nat} (spaces : Spaces rs s lists areas) (user : UserSegments elf)
    (fits : FileFits elf) (ran : execElf rs elf s = .ok (new, s')) (met' : ¬ s'.ranOut = true) :
    new = s.nmms ∧ Executed rs s s' elf := by
  obtain ⟨_, _, ⟨_, loaded, _⟩, met, _⟩ := execElf_stages ran met'
  exact (execElf_runs spaces met user fits (Nat.le_refl _) fun i lt load =>
    segments_returned loaded lt load).safe ran met'

end Blackcomb.Fs
