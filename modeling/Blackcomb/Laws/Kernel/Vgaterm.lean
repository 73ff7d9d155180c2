import Mathlib.Data.List.Induction
import Blackcomb.Kernel.Vgaterm

/-!
# What the terminal shows

The text that was put out, broken into rows, stands on the screen as long as it fills no more than the
screen: a newline on the last row reads and writes behind the screen, and a wrap there goes on at the top.
A character with its upper bit set has the attribute `0xff`, whatever the color.

**What it does not establish.** The screen is the bytes at the frame buffer's address; what the card
makes of them is left out.
-/

namespace Blackcomb.Kernel

variable {v : Vgaterm} {c color : BitVec 8} {cs : List (BitVec 8)}

/-! ## Text -/

/-- A text broken into rows: those that are ended, and the one that is not. -/
structure Text where
  above : List (List (BitVec 8))
  row : List (BitVec 8)

namespace Text

/-- A row ends at a newline and after 80 characters. -/
def put (t : Text) (c : BitVec 8) : Text :=
  if c = newline then ⟨t.above ++ [t.row], []⟩
  else if t.row.length + 1 = vgatermWidth then ⟨t.above ++ [t.row ++ [c]], []⟩
  else ⟨t.above, t.row ++ [c]⟩

/-- All rows. -/
def rows (t : Text) : List (List (BitVec 8)) := t.above ++ [t.row]

/-- The first row that is shown: the last 25 are. -/
def first (t : Text) : Nat := t.rows.length - vgatermHeight

/-- The character at a place of the screen, if the text has one there. -/
def charAt (t : Text) (x y : Nat) : Option (BitVec 8) :=
  (t.rows[t.first + y]?).bind fun row => row[x]?

/-- The text of a sequence of characters. -/
def of (cs : List (BitVec 8)) : Text := cs.foldl put ⟨[], []⟩

theorem of_append_singleton (cs : List (BitVec 8)) (c : BitVec 8) :
    of (cs ++ [c]) = (of cs).put c := by
  rw [of, List.foldl_append]
  rfl

theorem rows_length (t : Text) : t.rows.length = t.above.length + 1 := by
  rw [rows, List.length_append]
  rfl

end Text

/-- A cell that shows nothing. -/
def Blank (e : BitVec 16) : Prop := e.setWidth 8 = 32 ∨ e.setWidth 8 = 0

/-- What is promised of the terminal when a text was put out in a color. -/
structure Behaves (color : BitVec 8) (v : Vgaterm) (t : Text) : Prop where
  touched : ∀ i ∈ v.touched, i < vgatermHeight * vgatermWidth
  x : v.x < vgatermWidth
  y : v.y < vgatermHeight
  cursor : v.x = t.row.length ∧ t.first + v.y + 1 = t.rows.length
  shown : ∀ y < vgatermHeight, ∀ x < vgatermWidth, ∀ c, t.charAt x y = some c →
    v.buf (vgatermAddr x y) = color ++ c
  blank : ∀ y < vgatermHeight, ∀ x < vgatermWidth, t.charAt x y = none →
    Blank (v.buf (vgatermAddr x y))

/-- The terminal of a machine that was just turned on, with any bytes in the screen's memory. -/
def vgatermStart (buf : Nat → BitVec 16) : Vgaterm := ⟨0, 0, 0, buf, 0, []⟩

/-- The terminal after it was cleared and given characters in a color. -/
def vgatermRun (buf : Nat → BitVec 16) (fg bg : BitVec 4) (cs : List (BitVec 8)) : Vgaterm :=
  cs.foldl vgatermPutchar (vgatermSetcolor (vgatermClear (vgatermStart buf)) fg bg)

theorem vgatermRun_append_singleton (buf : Nat → BitVec 16) (fg bg : BitVec 4) (cs : List (BitVec 8))
    (c : BitVec 8) : vgatermRun buf fg bg (cs ++ [c]) = vgatermPutchar (vgatermRun buf fg bg cs) c := by
  rw [vgatermRun, List.foldl_append]
  rfl

/-! ## Entries -/

/-- An entry has the character and, when that is no negative number, the color. -/
theorem vgatermEntry_eq (c color : BitVec 8) :
    vgatermEntry c color = (if c.msb then 0xff else color) ++ c := by
  have wide : c.signExtend 16 = (if c.msb then (0xff : BitVec 8) else 0) ++ c := by
    revert c
    decide +kernel
  have both : vgatermEntry c color = c.signExtend 16 ||| (color ++ (0 : BitVec 8)) := by
    apply BitVec.eq_of_getLsbD_eq
    intro i lt
    simp only [vgatermEntry, BitVec.getLsbD_setWidth, BitVec.getLsbD_or, BitVec.getLsbD_signExtend,
      BitVec.getLsbD_shiftLeft, BitVec.getLsbD_append]
    grind
  rw [both, wide]
  apply BitVec.eq_of_getLsbD_eq
  intro i lt
  simp only [BitVec.getLsbD_or, BitVec.getLsbD_append]
  by_cases low : i < 8
  · simp [low]
  · cases c.msb
    · simp [low]
    · have ones : (0xff : BitVec 8).getLsbD (i - 8) = true := by
        rw [show (0xff : BitVec 8) = BitVec.allOnes 8 from rfl, BitVec.getLsbD_allOnes]
        exact decide_eq_true (by omega)
      simp only [low, if_false, if_true, ones, Bool.true_or]

/-- Two attributes of one character. -/
theorem attribute_inj {color' : BitVec 8} (same : color ++ c = color' ++ c) : color = color' := by
  apply BitVec.eq_of_getLsbD_eq
  intro i lt
  have bit : (color ++ c).getLsbD (i + 8) = (color' ++ c).getLsbD (i + 8) := by rw [same]
  rw [BitVec.getLsbD_append, BitVec.getLsbD_append, if_neg (by omega), if_neg (by omega),
    Nat.add_sub_cancel] at bit
  exact bit

/-- The character of an entry. -/
theorem setWidth_entry (color c : BitVec 8) : (color ++ c).setWidth 8 = c := by
  apply BitVec.eq_of_getLsbD_eq
  intro i lt
  rw [BitVec.getLsbD_setWidth, BitVec.getLsbD_append, if_pos lt, decide_eq_true lt, Bool.true_and]

/-! ## Clearing -/

/-- The cells from one index to another were filled with spaces. -/
structure Filled (v v' : Vgaterm) (lo hi : Nat) : Prop where
  globals : v'.y = v.y ∧ v'.x = v.x ∧ v'.color = v.color
  buf : ∀ i, v'.buf i = if lo ≤ i ∧ i < hi then vgatermEntry 32 v.color else v.buf i
  touched : ∀ i ∈ v'.touched, i ∈ v.touched ∨ lo ≤ i ∧ i < hi

theorem Filled.none (v : Vgaterm) (lo : Nat) : Filled v v lo lo := by
  constructor
  case globals => exact ⟨rfl, rfl, rfl⟩
  case buf =>
    intro i
    rw [if_neg (by omega)]
  case touched => exact fun i mem => .inl mem

theorem Filled.trans {v' v'' : Vgaterm} {lo mid hi : Nat} (first : Filled v v' lo mid)
    (second : Filled v' v'' mid hi) (le : lo ≤ mid) (le' : mid ≤ hi) : Filled v v'' lo hi := by
  obtain ⟨y, x, color⟩ := first.globals
  obtain ⟨y', x', color'⟩ := second.globals
  constructor
  case globals => exact ⟨y'.trans y, x'.trans x, color'.trans color⟩
  case buf =>
    intro i
    rw [second.buf, first.buf, color]
    split_ifs <;> first | rfl | omega
  case touched =>
    intro i mem
    rcases second.touched i mem with before | here
    · exact (first.touched i before).imp_right fun inside => ⟨inside.1, by omega⟩
    · exact .inr ⟨by omega, here.2⟩

theorem Filled.write (v : Vgaterm) (i : Nat) :
    Filled v (v.write i (vgatermEntry 32 v.color)) i (i + 1) := by
  constructor
  case globals => exact ⟨rfl, rfl, rfl⟩
  case buf =>
    intro j
    show Function.update v.buf i _ j = _
    rw [Function.update_apply]
    congr 1
    exact propext (by omega)
  case touched =>
    intro j mem
    rcases List.mem_cons.mp mem with rfl | before
    · exact .inr ⟨Nat.le_refl _, Nat.lt_succ_self _⟩
    · exact .inl before

/-- The inner loop of `vgaterm_clear`. -/
theorem Filled.row (v : Vgaterm) (y n : Nat) : Filled v ((List.range n).foldl (fun v x =>
    v.write (y * vgatermWidth + x) (vgatermEntry 32 v.color)) v) (y * vgatermWidth)
      (y * vgatermWidth + n) := by
  induction n with
  | zero => exact .none v _
  | succ n ih =>
    rw [List.range_succ, List.foldl_append, List.foldl_cons, List.foldl_nil]
    exact ih.trans (.write _ _) (Nat.le_add_right _ _) (Nat.le_succ _)

/-- The loops of `vgaterm_clear`. -/
theorem Filled.rows (v : Vgaterm) (n : Nat) : Filled v ((List.range n).foldl (fun v y =>
    (List.range vgatermWidth).foldl (fun v x =>
      v.write (y * vgatermWidth + x) (vgatermEntry 32 v.color)) v) v) 0 (n * vgatermWidth) := by
  induction n with
  | zero => exact .none v _
  | succ n ih =>
    rw [List.range_succ, List.foldl_append, List.foldl_cons, List.foldl_nil, Nat.succ_mul]
    exact ih.trans (.row _ n vgatermWidth) (Nat.zero_le _) (Nat.le_add_right _ _)

/-! ## Where the code is right -/

namespace Text

/-- A text that fills no more than the screen stands on it from the top. -/
theorem charAt_of_le {t : Text} (fits : t.rows.length ≤ vgatermHeight) (x y : Nat) :
    t.charAt x y = (t.rows[y]?).bind fun row => row[x]? := by
  rw [charAt, first, Nat.sub_eq_zero_of_le fits, Nat.zero_add]

/-- The row that is not ended. -/
theorem charAt_row {above : List (List (BitVec 8))} {row : List (BitVec 8)}
    (fits : above.length + 1 ≤ vgatermHeight) (x y : Nat) : (Text.mk above row).charAt x y =
      if y < above.length then (above[y]?).bind fun row => row[x]?
      else if y = above.length then row[x]? else none := by
  rw [charAt_of_le (by rwa [rows_length]), rows, List.getElem?_append]
  dsimp only
  by_cases before : y < above.length
  · rw [if_pos before, if_pos before]
  by_cases here : y = above.length
  · rw [if_neg before, if_neg before, if_pos here, here, Nat.sub_self]
    rfl
  · rw [if_neg before, if_neg before, if_neg here,
      List.getElem?_eq_none (by simp only [List.length_singleton]; omega)]
    rfl

/-- Ending a row shows nothing new. -/
theorem charAt_ended {above : List (List (BitVec 8))} {row : List (BitVec 8)}
    (fits : above.length + 2 ≤ vgatermHeight) (x y : Nat) :
    (Text.mk (above ++ [row]) []).charAt x y = (Text.mk above row).charAt x y := by
  have length : (above ++ [row]).length = above.length + 1 := List.length_append
  rw [charAt_row (by omega), charAt_row (by omega), length, List.getElem?_append]
  by_cases before : y < above.length
  · rw [if_pos (by omega), if_pos before, if_pos before]
  · by_cases here : y = above.length
    · rw [if_pos (by omega), if_neg before, if_neg before, if_pos here, here, Nat.sub_self]
      rfl
    · rw [if_neg (by omega), if_neg before, if_neg here]
      split <;> rfl

/-- A character more in the row. -/
theorem charAt_more {above : List (List (BitVec 8))} {row : List (BitVec 8)}
    (fits : above.length + 1 ≤ vgatermHeight) (c : BitVec 8) (x y : Nat) :
    (Text.mk above (row ++ [c])).charAt x y =
      if y = above.length ∧ x = row.length then some c else (Text.mk above row).charAt x y := by
  rw [charAt_row fits, charAt_row fits]
  by_cases before : y < above.length
  · rw [if_pos before, if_pos before, if_neg (by omega)]
  · by_cases here : y = above.length
    · rw [if_neg before, if_neg before, if_pos here, if_pos here, List.getElem?_append]
      rcases Nat.lt_trichotomy x row.length with less | last | more
      · rw [if_pos less, if_neg (by omega)]
      · subst last
        rw [if_neg (Nat.lt_irrefl _), if_pos ⟨here, rfl⟩, Nat.sub_self]
        rfl
      · rw [if_neg (by omega), if_neg (by omega),
          List.getElem?_eq_none (by simp only [List.length_singleton]; omega),
          List.getElem?_eq_none (by omega)]
    · rw [if_neg before, if_neg before, if_neg here, if_neg here, if_neg (fun both => here both.1)]

end Text

/-- A cleared screen behaves. -/
theorem Behaves.start (buf : Nat → BitVec 16) (fg bg : BitVec 4) :
    Behaves (vgatermColor fg bg) (vgatermRun buf fg bg []) (Text.of []) := by
  have filled : Filled (vgatermSetcolor (vgatermStart buf) vgaColorLightGrey vgaColorBlack)
      (vgatermClear (vgatermStart buf)) 0 (vgatermHeight * vgatermWidth) := Filled.rows _ _
  unfold vgatermRun
  rw [List.foldl_nil]
  generalize vgatermClear (vgatermStart buf) = v at filled ⊢
  have y : v.y = 0 := filled.globals.1
  have x : v.x = 0 := filled.globals.2.1
  have none : ∀ x y, (Text.of []).charAt x y = none := by
    intro x y
    show (Text.mk [] []).charAt x y = none
    rw [Text.charAt_row (by decide), if_neg (by simp)]
    split <;> rfl
  constructor
  case touched =>
    intro i mem
    rcases filled.touched i mem with before | inside
    · cases before
    · exact inside.2
  case x =>
    show v.x < vgatermWidth
    rw [x]
    decide
  case y =>
    show v.y < vgatermHeight
    rw [y]
    decide
  case cursor =>
    refine ⟨x, ?_⟩
    show _ + v.y + 1 = _
    rw [y]
    rfl
  case shown =>
    intro y _ x _ c here
    rw [none] at here
    cases here
  case blank =>
    intro y lowY x lowX _
    left
    show (v.buf (vgatermAddr x y)).setWidth 8 = 32
    rw [filled.buf, if_pos, vgatermEntry_eq, setWidth_entry]
    simp only [vgatermAddr, vgatermWidth, vgatermHeight] at lowY lowX ⊢
    omega

/-! ## A character -/

/-- A character that is no newline is written at the cursor. -/
theorem vgatermPutchar_char (ne : c ≠ newline) :
    (vgatermPutchar v c).buf = Function.update v.buf (vgatermAddr v.x v.y) (vgatermEntry c v.color) ∧
      (vgatermPutchar v c).color = v.color ∧
      (vgatermPutchar v c).touched = vgatermAddr v.x v.y :: v.touched ∧
      (vgatermPutchar v c).x = (if v.x + 1 = vgatermWidth then 0 else v.x + 1) ∧
      (vgatermPutchar v c).y = (if v.x + 1 = vgatermWidth then
        if v.y + 1 = vgatermHeight then 0 else v.y + 1 else v.y) := by
  unfold vgatermPutchar
  rw [if_neg ne]
  by_cases wrap : v.x + 1 = vgatermWidth
  · by_cases bottom : v.y + 1 = vgatermHeight
    · simp [Vgaterm.write, vgatermSetCursor, vgatermAddr, wrap, bottom]
    · simp [Vgaterm.write, vgatermSetCursor, vgatermAddr, wrap, bottom]
  · simp [Vgaterm.write, vgatermSetCursor, vgatermAddr, wrap]

/-- A newline above the last row only moves the cursor. -/
theorem vgatermPutchar_newline (above : v.y + 1 < vgatermHeight) :
    vgatermPutchar v newline = { v with y := v.y + 1, x := 0 } := by
  unfold vgatermPutchar vgatermNewline
  rw [if_pos rfl, if_neg (by omega)]

/-- Where a character is, or was before the row was ended. -/
theorem Text.charAt_put {t : Text} (ne : c ≠ newline) (fits : (t.put c).rows.length ≤ vgatermHeight)
    (x y : Nat) : (t.put c).charAt x y =
      if y = t.above.length ∧ x = t.row.length then some c else t.charAt x y := by
  obtain ⟨above, row⟩ := t
  unfold Text.put at fits ⊢
  rw [if_neg ne] at fits ⊢
  split at fits
  · rename_i full
    rw [Text.rows_length, List.length_append, List.length_singleton] at fits
    rw [if_pos full, Text.charAt_ended fits, Text.charAt_more (by omega)]
  · rename_i more
    rw [Text.rows_length] at fits
    rw [if_neg more, Text.charAt_more fits]

/-- The rows after a character. -/
theorem Text.rows_put (t : Text) (c : BitVec 8) : (t.put c).rows.length =
    if c = newline ∨ t.row.length + 1 = vgatermWidth then t.rows.length + 1 else t.rows.length := by
  rw [Text.rows_length, Text.rows_length, Text.put]
  by_cases ends : c = newline
  · rw [if_pos ends, if_pos (.inl ends), List.length_append]
    rfl
  by_cases full : t.row.length + 1 = vgatermWidth
  · rw [if_neg ends, if_pos full, if_pos (.inr full), List.length_append]
    rfl
  · rw [if_neg ends, if_neg full, if_neg (by tauto)]

/-- Every place of the screen has an index of its own, below the screen's end. -/
theorem vgatermAddr_inj {x y x' y' : Nat} (lt : x < vgatermWidth) (lt' : x' < vgatermWidth) :
    vgatermAddr x y = vgatermAddr x' y' ↔ y = y' ∧ x = x' := by
  unfold vgatermAddr vgatermWidth at *
  omega

theorem vgatermAddr_lt {x y : Nat} (lt : x < vgatermWidth) (below : y < vgatermHeight) :
    vgatermAddr x y < vgatermHeight * vgatermWidth := by
  unfold vgatermAddr vgatermWidth vgatermHeight at *
  omega

/-- **A character on the screen.** -/
theorem Behaves.put {t : Text} (before : Behaves color v t) (same : v.color = color)
    (fits : (t.put c).rows.length ≤ vgatermHeight)
    (plain : c = newline ∨ c.msb = false ∨ color = 0xff) :
    Behaves color (vgatermPutchar v c) (t.put c) ∧ (vgatermPutchar v c).color = color := by
  obtain ⟨x, y⟩ := before.cursor
  have rows := t.rows_put c
  have length := t.rows_length
  have first : t.first = 0 := by
    unfold Text.first
    split at rows <;> omega
  have first' : (t.put c).first = 0 := Nat.sub_eq_zero_of_le fits
  have lowX := before.x
  have lowY := before.y
  rw [first] at y
  by_cases ends : c = newline
  · subst ends
    rw [if_pos (.inl rfl)] at rows
    rw [vgatermPutchar_newline (by omega)]
    have row : (t.put newline).row = [] := congrArg Text.row (if_pos rfl)
    have shows : ∀ x y, (t.put newline).charAt x y = t.charAt x y := by
      intro x y
      rw [Text.put, if_pos rfl]
      exact Text.charAt_ended (by omega) x y
    refine ⟨?_, same⟩
    constructor
    case touched => exact before.touched
    case x => exact Nat.zero_lt_succ 79
    case y =>
      show v.y + 1 < vgatermHeight
      omega
    case cursor =>
      rw [row, first', rows]
      refine ⟨rfl, ?_⟩
      show 0 + (v.y + 1) + 1 = _
      omega
    case shown =>
      intro y low x less d here
      exact before.shown y low x less d (shows x y ▸ here)
    case blank =>
      intro y low x less here
      exact before.blank y low x less (shows x y ▸ here)
  · obtain ⟨buf, color', touched, x', y'⟩ := vgatermPutchar_char (v := v) ends
    have entry : vgatermEntry c v.color = color ++ c := by
      rw [vgatermEntry_eq, same]
      rcases plain.resolve_left ends with low | ones
      · rw [low]
        rfl
      · rw [ones]
        split <;> rfl
    have shows := Text.charAt_put ends fits
    have cell : ∀ y x, x < vgatermWidth → (vgatermPutchar v c).buf (vgatermAddr x y) =
        if y = t.above.length ∧ x = t.row.length then color ++ c else v.buf (vgatermAddr x y) := by
      intro y₁ x₁ less
      rw [buf, Function.update_apply, entry]
      refine if_congr ?_ rfl rfl
      rw [vgatermAddr_inj less lowX, x, show v.y = t.above.length by omega]
    refine ⟨?_, color'.trans same⟩
    constructor
    case touched =>
      rw [touched]
      intro i mem
      rcases List.mem_cons.mp mem with rfl | older
      · exact vgatermAddr_lt lowX lowY
      · exact before.touched i older
    case x =>
      rw [x']
      split
      · exact Nat.zero_lt_succ 79
      · omega
    case y =>
      rw [y']
      split_ifs
      · exact Nat.zero_lt_succ 24
      · omega
      · exact lowY
    case cursor =>
      rw [x', y', first', rows]
      by_cases full : t.row.length + 1 = vgatermWidth
      · rw [if_pos (.inr full)] at rows
        rw [if_pos (by omega), if_pos (by omega), if_neg (by omega), if_pos (.inr full)]
        refine ⟨?_, by omega⟩
        rw [Text.put, if_neg ends, if_pos full]
        rfl
      · rw [if_neg (by omega), if_neg (by omega), if_neg (by tauto)]
        refine ⟨?_, by omega⟩
        rw [Text.put, if_neg ends, if_neg full, List.length_append, x]
        rfl
    case shown =>
      intro y low x less d here
      rw [shows] at here
      rw [cell y x less]
      split at here
      · rename_i there
        rw [if_pos there, Option.some.inj here]
      · rename_i elsewhere
        rw [if_neg elsewhere]
        exact before.shown y low x less d here
    case blank =>
      intro y low x less here
      rw [shows] at here
      rw [cell y x less]
      split at here
      · cases here
      · rename_i elsewhere
        rw [if_neg elsewhere]
        exact before.blank y low x less here

/-! ## Where it is not -/

/-- A loop of writes touches what it writes. -/
theorem mem_touched_foldl (f : Nat → Nat) (e : BitVec 16) (l : List Nat) (v : Vgaterm) {i : Nat}
    (mem : i ∈ v.touched ∨ ∃ n ∈ l, f n = i) :
    i ∈ (l.foldl (fun v n => v.write (f n) e) v).touched := by
  induction l generalizing v with
  | nil =>
    rcases mem with mem | ⟨n, none, _⟩
    · exact mem
    · cases none
  | cons n l ih =>
    rw [List.foldl_cons]
    apply ih
    rcases mem with mem | ⟨k, mem, rfl⟩
    · exact .inl (List.mem_cons_of_mem _ mem)
    · rcases List.mem_cons.mp mem with rfl | later
      · exact .inl List.mem_cons_self
      · exact .inr ⟨k, later, rfl⟩

/-- Scrolling writes the row behind the screen. -/
theorem vgatermScroll_touched (v : Vgaterm) :
    vgatermHeight * vgatermWidth ∈ (vgatermScroll v).touched := by
  have first : ∃ col ∈ List.range vgatermWidth,
      vgatermAddr col vgatermHeight = vgatermHeight * vgatermWidth :=
    ⟨0, List.mem_range.mpr (Nat.zero_lt_succ 79), Nat.add_zero _⟩
  unfold vgatermScroll
  exact mem_touched_foldl (fun col => vgatermAddr col vgatermHeight) 0 _ _ (.inr first)

/-- A character after which the screen is right ended no row at the bottom, and has the color. -/
theorem Behaves.plain {t : Text} (before : Behaves color v t)
    (few : t.rows.length ≤ vgatermHeight) (after : Behaves color (vgatermPutchar v c) (t.put c)) :
    (t.put c).rows.length ≤ vgatermHeight ∧ (c = newline ∨ c.msb = false ∨ color = 0xff) := by
  obtain ⟨x, y⟩ := before.cursor
  have rows := t.rows_put c
  have length := t.rows_length
  have first : t.first = 0 := Nat.sub_eq_zero_of_le few
  rw [first] at y
  have fits : (t.put c).rows.length ≤ vgatermHeight := by
    by_contra more
    have bottom : v.y = vgatermHeight - 1 ∧ (t.put c).rows.length = vgatermHeight + 1 := by
      split at rows <;> omega
    by_cases ends : c = newline
    · -- the row behind the screen is written
      have scrolls : (vgatermPutchar v c).touched = (vgatermScroll v).touched := by
        unfold vgatermPutchar vgatermNewline
        rw [if_pos ends, if_pos bottom.1]
      have low := after.touched (vgatermHeight * vgatermWidth)
        (scrolls.symm ▸ vgatermScroll_touched v)
      generalize vgatermHeight * vgatermWidth = size at low
      omega
    · -- the cursor goes to the top
      obtain ⟨_, _, _, _, y'⟩ := vgatermPutchar_char (v := v) ends
      have full : t.row.length + 1 = vgatermWidth := by
        by_contra room
        rw [if_neg (by tauto)] at rows
        omega
      have height : v.y + 1 = vgatermHeight := by
        rw [bottom.1]
        rfl
      rw [if_pos (by omega), if_pos height] at y'
      have cursor := after.cursor.2
      rw [Text.first, y', bottom.2, vgatermHeight] at cursor
      omega
  refine ⟨fits, ?_⟩
  by_cases ends : c = newline
  · exact .inl ends
  cases negative : c.msb with
  | false => exact .inr (.inl rfl)
  | true =>
    obtain ⟨buf, _⟩ := vgatermPutchar_char (v := v) ends
    have there : (t.put c).charAt v.x v.y = some c := by
      rw [Text.charAt_put ends fits, if_pos ⟨by omega, x⟩]
    have cell := after.shown v.y before.y v.x before.x c there
    rw [buf, Function.update_self, vgatermEntry_eq, negative, if_pos rfl] at cell
    exact .inr (.inr (attribute_inj cell).symm)

/-! ## A sequence -/

/-- A text that fills no more than the screen, of plain characters or in the color `0xff`. -/
def Plain (color : BitVec 8) (cs : List (BitVec 8)) : Prop :=
  (Text.of cs).rows.length ≤ vgatermHeight ∧ ∀ c ∈ cs, c = newline ∨ c.toNat < 128 ∨ color = 0xff

/-- The first part of such a text is one. -/
theorem Plain.init (plain : Plain color (cs ++ [c])) : Plain color cs := by
  obtain ⟨fits, chars⟩ := plain
  have rows := (Text.of cs).rows_put c
  rw [Text.of_append_singleton] at fits
  refine ⟨?_, fun d mem => chars d (List.mem_append_left _ mem)⟩
  split at rows <;> omega

theorem msb_eq_false_iff (c : BitVec 8) : c.msb = false ↔ c.toNat < 128 := by
  rw [BitVec.msb_eq_false_iff_two_mul_lt]
  omega

/-- It is shown. -/
theorem Plain.behaves (buf : Nat → BitVec 16) {fg bg : BitVec 4}
    (plain : Plain (vgatermColor fg bg) cs) :
    Behaves (vgatermColor fg bg) (vgatermRun buf fg bg cs) (Text.of cs) ∧
      (vgatermRun buf fg bg cs).color = vgatermColor fg bg := by
  induction cs using List.reverseRecOn with
  | nil => exact ⟨.start buf fg bg, rfl⟩
  | append_singleton cs c ih =>
    obtain ⟨before, same⟩ := ih plain.init
    have last := plain.2 c (List.mem_append_right _ (List.mem_singleton_self c))
    rw [vgatermRun_append_singleton, Text.of_append_singleton]
    apply before.put same
    · rw [← Text.of_append_singleton]
      exact plain.1
    · rwa [msb_eq_false_iff]

/-- **The terminal.** For every color, every sequence of characters and whatever the screen's memory held:
after every part of the sequence the screen shows the last rows of the text and nothing behind it was
touched, exactly when the text has no more rows than the screen and every character but the newline is
below `0x80`, or the color is `0xff`. -/
theorem vgaterm_behaves_iff (buf : Nat → BitVec 16) (fg bg : BitVec 4) (cs : List (BitVec 8)) :
    (∀ front, front <+: cs →
      Behaves (vgatermColor fg bg) (vgatermRun buf fg bg front) (Text.of front)) ↔
    (Text.of cs).rows.length ≤ vgatermHeight ∧
      ∀ c ∈ cs, c = newline ∨ c.toNat < 128 ∨ vgatermColor fg bg = 0xff := by
  constructor
  · intro behaves
    show Plain _ cs
    induction cs using List.reverseRecOn with
    | nil => exact ⟨by decide, fun _ none => by cases none⟩
    | append_singleton cs c ih =>
      have before := ih fun front pre => behaves front (pre.trans (List.prefix_append _ _))
      have shown := (before.behaves buf).1
      have after := behaves _ (List.prefix_refl _)
      rw [vgatermRun_append_singleton, Text.of_append_singleton] at after
      obtain ⟨fits, last⟩ := shown.plain before.1 after
      refine ⟨Text.of_append_singleton cs c ▸ fits, ?_⟩
      intro d mem
      rcases List.mem_append.mp mem with older | latest
      · exact before.2 d older
      · obtain rfl := List.mem_singleton.mp latest
        rwa [msb_eq_false_iff] at last
  · intro plain front pre
    obtain ⟨rest, rfl⟩ := pre
    have whole : Plain (vgatermColor fg bg) (front ++ rest) := plain
    induction rest using List.reverseRecOn with
    | nil =>
      rw [List.append_nil] at whole
      exact (whole.behaves buf).1
    | append_singleton rest c ih =>
      rw [← List.append_assoc] at whole
      exact ih whole.init whole.init

/-- A character at the end of the last row: the cursor is at the top, and nothing was scrolled. -/
theorem vgaterm_wraps_to_top :
    (vgatermRun (fun _ => 0) 7 0 (List.replicate 24 newline ++ List.replicate 80 97)).y = 0 ∧
      (Text.of (List.replicate 24 newline ++ List.replicate 80 97)).rows.length = 26 ∧
      ¬ Behaves (vgatermColor 7 0)
        (vgatermRun (fun _ => 0) 7 0 (List.replicate 24 newline ++ List.replicate 80 97))
        (Text.of (List.replicate 24 newline ++ List.replicate 80 97)) := by
  have top : (vgatermRun (fun _ => 0) 7 0
      (List.replicate 24 newline ++ List.replicate 80 97)).y = 0 := by decide +kernel
  have rows : (Text.of (List.replicate 24 newline ++ List.replicate 80 97)).rows.length = 26 := by
    decide +kernel
  refine ⟨top, rows, ?_⟩
  intro behaves
  have cursor := behaves.cursor.2
  rw [top, Text.first, rows] at cursor
  exact absurd cursor (by decide)

end Blackcomb.Kernel
