import Mathlib.Data.List.Pairwise
import Blackcomb.Lib.Chain
import Blackcomb.Mm.Kmalloc

/-!
# The heap as a list of blocks

The abstract heap is a list of blocks that tile a range of addresses: each begins where the one
before ends. `Rep h bs` says that the headers in the heap's memory hold this list: every header has
its block's size and flag, and the links run through the list both ways. Every edit that `kmalloc`
and `free` make is a `splice`: a run of blocks replaced by another run over the same addresses, with
the blocks before it untouched and of the blocks after it only the first one's `prev`.
-/

namespace Blackcomb.Mm

open Memory Chain

/-! ## Fields -/

/-- A block of the heap: the address of its header, the size of its payload and its flag. -/
structure Block where
  addr : Nat
  size : Nat
  used : Bool
  deriving DecidableEq, Repr

/-- The first address after a block. -/
def Block.stop (b : Block) : Nat := b.addr + sizeofBlock + b.size

namespace Heap

variable {h : Heap} {f g : Field} {b c v : Nat}

/-- A field's value fits its width. -/
theorem get_lt (h : Heap) (f : Field) (b : Nat) : h.get f b < 256 ^ f.width :=
  load_lt _ _ _

/-- A field assigned and read back, or another field of the same header. -/
theorem get_set_same : (h.set f b v).get g b =
    if g = f then v % 256 ^ f.width else h.get g b := by
  split
  · rename_i e
    subst e
    exact load_store_self _ _ _ _
  · rename_i ne
    apply load_store_of_disjoint
    cases f <;> cases g <;> simp [Field.offset, Field.width] at ne ⊢

/-- A field of a header that does not overlap the assigned one. -/
theorem get_set_apart (apart : b + 32 ≤ c ∨ c + 32 ≤ b) : (h.set f b v).get g c = h.get g c := by
  apply load_store_of_disjoint
  cases f <;> cases g <;> simp [Field.offset, Field.width] <;> omega

@[simp] theorem set_heapBase : (h.set f b v).heapBase = h.heapBase := rfl

@[simp] theorem set_kernelBrk : (h.set f b v).kernelBrk = h.kernelBrk := rfl

/-- The forward link of a block at an address, as the chain reads it. -/
def nextOf (h : Heap) (b : Block) : Nat := h.get .next b.addr

/-- The backward link, as the chain reads it. -/
def prevOf (h : Heap) (b : Block) : Nat := h.get .prev b.addr

end Heap

/-! ## Blocks -/

/-- The blocks cover the addresses from `a` to `e`, each beginning where the one before ends, and
each with a payload. -/
def Tiles : Nat → List Block → Nat → Prop
  | a, [], e => a = e
  | a, b :: bs, e => b.addr = a ∧ 0 < b.size ∧ Tiles b.stop bs e

/-- A tiling splits where one block ends and the next begins. -/
theorem tiles_append {a e : Nat} {xs ys : List Block} :
    Tiles a (xs ++ ys) e ↔ ∃ m, Tiles a xs m ∧ Tiles m ys e := by
  induction xs generalizing a with
  | nil => simp [Tiles]
  | cons x xs ih =>
    rw [List.cons_append, Tiles, ih]
    constructor
    · intro ⟨here, pos, m, left, right⟩
      exact ⟨m, ⟨here, pos, left⟩, right⟩
    · intro ⟨m, ⟨here, pos, left⟩, right⟩
      exact ⟨here, pos, m, left, right⟩

/-- Tiles end after they begin. -/
theorem Tiles.le {a e : Nat} {bs : List Block} (tiles : Tiles a bs e) : a ≤ e := by
  induction bs generalizing a with
  | nil => exact Nat.le_of_eq tiles
  | cons b bs ih =>
    have := ih tiles.2.2
    have start := tiles.1
    unfold Block.stop at this
    omega

/-- Every block of a tiling lies between its ends. -/
theorem Tiles.bounds {a e : Nat} {bs : List Block} (tiles : Tiles a bs e) {b : Block}
    (hb : b ∈ bs) : a ≤ b.addr ∧ 0 < b.size ∧ b.stop ≤ e := by
  induction bs generalizing a with
  | nil => cases hb
  | cons c bs ih =>
    rcases List.mem_cons.mp hb with rfl | hb
    · exact ⟨Nat.le_of_eq tiles.1.symm, tiles.2.1, tiles.2.2.le⟩
    · have rest := ih tiles.2.2 hb
      have start := tiles.1
      unfold Block.stop at rest
      unfold Block.stop
      omega

/-- A later block of a tiling begins after an earlier one has ended. -/
theorem Tiles.pairwise {a e : Nat} {bs : List Block} (tiles : Tiles a bs e) :
    bs.Pairwise fun b c => b.stop ≤ c.addr := by
  induction bs generalizing a with
  | nil => exact .nil
  | cons b bs ih =>
    refine .cons ?_ (ih tiles.2.2)
    intro c hc
    exact (tiles.2.2.bounds hc).1

/-- Two blocks of a tiling do not overlap. -/
theorem Tiles.apart {a e : Nat} {bs : List Block} (tiles : Tiles a bs e) {b c : Block} (hb : b ∈ bs)
    (hc : c ∈ bs) (ne : b ≠ c) : b.stop ≤ c.addr ∨ c.stop ≤ b.addr := by
  have pairs : bs.Pairwise fun b c => b.stop ≤ c.addr ∨ c.stop ≤ b.addr :=
    tiles.pairwise.imp fun le => .inl le
  have : Std.Symm fun b c : Block => b.stop ≤ c.addr ∨ c.stop ≤ b.addr := ⟨fun _ _ => Or.symm⟩
  exact pairs.forall hb hc ne

/-- A tiling has one block at an address. -/
theorem Tiles.addr_inj {a e : Nat} {bs : List Block} (tiles : Tiles a bs e) {b c : Block}
    (hb : b ∈ bs) (hc : c ∈ bs) (same : b.addr = c.addr) : b = c := by
  by_contra ne
  have := tiles.apart hb hc ne
  simp only [Block.stop, sizeofBlock] at this
  omega

/-- No block comes twice. -/
theorem Tiles.nodup {a e : Nat} {bs : List Block} (tiles : Tiles a bs e) : bs.Nodup := by
  refine tiles.pairwise.imp fun le same => ?_
  subst same
  unfold Block.stop sizeofBlock at le
  omega

/-- The address a link holds: of the block, or `NULL`. -/
def link : Option Block → Nat
  | some b => b.addr
  | none => 0

@[simp] theorem link_some (b : Block) : link (some b) = b.addr := rfl

@[simp] theorem link_none : link none = 0 := rfl

/-- The header of a block in memory. -/
structure Holds (h : Heap) (b : Block) : Prop where
  size : h.get .size b.addr = b.size
  used : h.get .inUse b.addr ≠ 0 ↔ b.used = true

/-- The heap's memory holds the list of blocks. -/
structure Rep (h : Heap) (bs : List Block) : Prop where
  base : h.heapBase = kernelBrkStart
  nonempty : bs ≠ []
  tiles : Tiles h.heapBase bs h.kernelBrk
  limit : h.kernelBrk < kernelBrkStart + heapBytes
  headers : ∀ b ∈ bs, Holds h b
  links : Seg link h.nextOf h.prevOf none bs none

namespace Rep

variable {h h' : Heap} {bs xs ys us vs : List Block} {b : Block}

/-- Every block lies in the heap's pages, far above `NULL` and below the end of the address
space. -/
theorem bounds (rep : Rep h bs) (hb : b ∈ bs) :
    0xFFFFC90000000000 ≤ b.addr ∧ 0 < b.size ∧ b.addr + 32 + b.size ≤ h.kernelBrk ∧
      h.kernelBrk < 0xFFFFC90000080000 := by
  have range := rep.tiles.bounds hb
  have limit := rep.limit
  rw [rep.base] at range
  simp only [kernelBrkStart, heapBytes, kernelBrkPages, pageSize, Block.stop, sizeofBlock] at *
  omega

/-- The links of a block are the addresses of its neighbours. -/
theorem neighbours (rep : Rep h (xs ++ [b] ++ ys)) :
    h.get .next b.addr = link ys.head? ∧ h.get .prev b.addr = link xs.getLast? := by
  have seg := rep.links
  rw [seg_append, seg_append] at seg
  obtain ⟨⟨_, back, forth, _⟩, _⟩ := seg
  rw [Option.or_none] at back forth
  exact ⟨forth, back⟩

/-- Distinct blocks do not overlap: the headers before a block end before it begins, those behind
it begin after it has ended. -/
theorem apart (rep : Rep h (xs ++ us ++ ys)) :
    (∀ x ∈ xs, ∀ u ∈ us, x.stop ≤ u.addr) ∧ (∀ x ∈ xs, ∀ y ∈ ys, x.stop ≤ y.addr) ∧
      (∀ u ∈ us, ∀ y ∈ ys, u.stop ≤ y.addr) ∧ ys.Pairwise fun b c => b.stop ≤ c.addr := by
  have pairs := rep.tiles.pairwise
  rw [List.pairwise_append, List.pairwise_append] at pairs
  obtain ⟨⟨_, _, left⟩, behind, right⟩ := pairs
  refine ⟨left, fun x hx y hy => right x ?_ y hy, fun u hu y hy => right u ?_ y hy, behind⟩
  · exact List.mem_append_left _ hx
  · exact List.mem_append_right _ hu

end Rep

/-! ## The edit -/

/-- `h'` is `h` with the blocks `us` replaced by `vs`, between `xs` and `ys`. -/
structure Splice (h h' : Heap) (xs us vs ys : List Block) : Prop where
  base : h'.heapBase = h.heapBase
  limit : h'.kernelBrk < kernelBrkStart + heapBytes
  tiles : Tiles h'.heapBase (xs ++ vs ++ ys) h'.kernelBrk
  start : link us.head? = link vs.head?
  replaced : us ≠ []
  nonempty : vs ≠ []
  before : ∀ x ∈ xs, ∀ f, h'.get f x.addr = h.get f x.addr
  after : ∀ y ∈ ys, ∀ f, f ≠ .prev ∨ ys.head? ≠ some y → h'.get f y.addr = h.get f y.addr
  seam : ∀ y, ys.head? = some y → h'.get .prev y.addr = link vs.getLast?
  headers : ∀ v ∈ vs, Holds h' v
  links : Seg link h'.nextOf h'.prevOf xs.getLast? vs ys.head?

/-- Blocks can be exchanged in the middle of a heap when the edit links them to their neighbours.
-/
theorem Rep.splice {h h' : Heap} {xs us vs ys : List Block} (rep : Rep h (xs ++ us ++ ys))
    (edit : Splice h h' xs us vs ys) : Rep h' (xs ++ vs ++ ys) where
  base := edit.base.trans rep.base
  nonempty := by simp [edit.nonempty]
  tiles := edit.tiles
  limit := edit.limit
  headers := by
    intro b hb
    rcases List.mem_append.mp hb with hb | hy
    · rcases List.mem_append.mp hb with hx | hv
      · have old := rep.headers b (by simp [hx])
        exact ⟨(edit.before b hx .size).trans old.size, by rw [edit.before b hx]; exact old.used⟩
      · exact edit.headers b hv
    · have old := rep.headers b (by simp [hy])
      refine ⟨(edit.after b hy .size (.inl (by decide))).trans old.size, ?_⟩
      rw [edit.after b hy .inUse (.inl (by decide))]
      exact old.used
  links := by
    have seg := rep.links
    simp only [seg_append, Option.or_none] at seg ⊢
    obtain ⟨⟨left, _⟩, right⟩ := seg
    obtain ⟨u, us', rfl⟩ := List.exists_cons_of_ne_nil edit.replaced
    obtain ⟨v, vs', rfl⟩ := List.exists_cons_of_ne_nil edit.nonempty
    refine ⟨⟨?_, edit.links⟩, ?_⟩
    · -- the blocks before keep their links, and lead to the same address
      have kept : Seg link h'.nextOf h'.prevOf none xs ((u :: us').head?.or ys.head?) :=
        left.congr fun x hx => ⟨edit.before x hx .next, edit.before x hx .prev⟩
      exact kept.leave edit.start
    · refine right.relink ?_ ?_ ?_ ?_
      · exact (List.nodup_append.mp rep.tiles.nodup).2.1
      · exact fun y hy => edit.after y hy .next (.inl (by decide))
      · exact fun y hy other => edit.after y hy .prev (.inr other)
      · intro y hy
        refine (edit.seam y hy).trans ?_
        rw [List.getLast?_append, List.getLast?_cons, Option.some_or]

/-- Outside the addresses from `lo` to `hi` every header is as before, but for the `prev` field of the
block at `next`, if there is one, which is `v`. -/
def Relinked (h h' : Heap) (lo hi next v : Nat) : Prop :=
  ∀ f c, c + 32 ≤ lo ∨ hi ≤ c → next = 0 ∨ c = next ∨ next + 32 ≤ c ∨ c + 32 ≤ next →
    h'.get f c = if next ≠ 0 ∧ c = next ∧ f = .prev then v else h.get f c

/-- The edits within a heap that keeps its break: what is left to show of one is the new headers
and their links. -/
theorem Rep.replace {h h' : Heap} {xs us vs ys : List Block} {lo hi : Nat}
    (rep : Rep h (xs ++ us ++ ys)) (base : h'.heapBase = h.heapBase)
    (brk : h'.kernelBrk = h.kernelBrk) (start : link us.head? = link vs.head?)
    (replaced : us ≠ []) (nonempty : vs ≠ []) (low : ∀ x ∈ xs, x.stop ≤ lo)
    (high : ∀ y ∈ ys, hi ≤ y.addr) (tiles : ∀ a e, Tiles a us e → Tiles a vs e)
    (relinked : Relinked h h' lo hi (link ys.head?) (link vs.getLast?))
    (headers : ∀ v ∈ vs, Holds h' v)
    (links : Seg link h'.nextOf h'.prevOf xs.getLast? vs ys.head?) : Rep h' (xs ++ vs ++ ys) := by
  obtain ⟨_, across, _, behind⟩ := rep.apart
  have first : ∀ y ∈ ys, ys.head? ≠ some y → link ys.head? + 32 ≤ y.addr := by
    intro y hy other
    cases ys with
    | nil => cases hy
    | cons z zs =>
      rcases List.mem_cons.mp hy with rfl | hy
      · exact absurd rfl other
      · have := List.rel_of_pairwise_cons behind hy
        simp only [Block.stop, sizeofBlock] at this
        simp only [List.head?_cons, link_some]
        omega
  apply rep.splice
  constructor
  case base => exact base
  case limit => exact brk ▸ rep.limit
  case tiles =>
    have old := rep.tiles
    rw [tiles_append] at old ⊢
    obtain ⟨m, front, back⟩ := old
    rw [tiles_append] at front
    obtain ⟨k, front, mid⟩ := front
    rw [base, brk]
    exact ⟨m, tiles_append.mpr ⟨k, front, tiles k m mid⟩, back⟩
  case start => exact start
  case replaced => exact replaced
  case nonempty => exact nonempty
  case headers => exact headers
  case links => exact links
  case before =>
    intro x hx f
    have end_ := low x hx
    have place : link ys.head? = 0 ∨ x.addr + 32 ≤ link ys.head? := by
      cases ys with
      | nil => exact .inl rfl
      | cons y ys =>
        have := across x hx y List.mem_cons_self
        simp only [Block.stop, sizeofBlock, List.head?_cons, link_some] at this ⊢
        omega
    simp only [Block.stop, sizeofBlock] at end_
    rw [relinked f x.addr (by omega) (by omega), if_neg (by omega)]
  case after =>
    intro y hy f other
    have start_ := high y hy
    by_cases head : ys.head? = some y
    · have field : f ≠ .prev := other.resolve_right (fun ne => ne head)
      rw [relinked f y.addr (.inr start_) (.inr (.inl (by rw [head, link_some]))), if_neg]
      exact fun all => field all.2.2
    · have := first y hy head
      rw [relinked f y.addr (.inr start_) (by omega), if_neg (by omega)]
  case seam =>
    intro y head
    have hy : y ∈ ys := List.mem_of_mem_head? head
    have at_ : y.addr = link ys.head? := by rw [head, link_some]
    have pos : link ys.head? ≠ 0 := by
      have := (rep.bounds (b := y) (by simp [hy])).1
      omega
    rw [relinked .prev y.addr (.inr (high y hy)) (.inr (.inl at_)), if_pos ⟨pos, at_, rfl⟩]

/-! ## What an edit leaves alone -/

/-- The memories differ only within the headers at the given addresses. -/
def Touches (headers : List Nat) (h h' : Heap) : Prop :=
  ∀ a, (∀ b ∈ headers, a < b ∨ b + 32 ≤ a) → h'.mem a = h.mem a

/-- Writing a field touches its own header. -/
theorem touches_set {h : Heap} {f : Field} {b v : Nat} {headers : List Nat} (hb : b ∈ headers) :
    Touches headers h (h.set f b v) := by
  intro a out
  have := out b hb
  apply store_outside
  cases f <;> simp [Field.offset, Field.width] <;> omega

/-- Two calls that touch the same headers. -/
theorem Touches.trans {h h' h'' : Heap} {headers : List Nat} (one : Touches headers h h')
    (two : Touches headers h' h'') : Touches headers h h'' :=
  fun a out => (two a out).trans (one a out)

/-- More headers may be touched. -/
theorem Touches.mono {h h' : Heap} {headers headers' : List Nat} (touches : Touches headers h h')
    (sub : headers ⊆ headers') : Touches headers' h h' :=
  fun a out => touches a fun b hb => out b (sub hb)

end Blackcomb.Mm
