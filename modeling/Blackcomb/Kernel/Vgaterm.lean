import Mathlib.Logic.Function.Basic

/-!
# The VGA terminal

`vgaterm.c`. The screen's memory is a cell for every index from `VGATERM_BUF_START` on, also behind the
2000 that are shown. `touched` is history that no function reads: the indices that were read or written.
`pos` is what the two cursor registers of the display hold.
-/

namespace Blackcomb.Kernel

/-- `VGATERM_WIDTH`. -/
def vgatermWidth : Nat := 80

/-- `VGATERM_HEIGHT`. -/
def vgatermHeight : Nat := 25

/-- `VGATERM_ENTRY`. The character is signed, and both are an `int` before they are cut off. -/
def vgatermEntry (c color : BitVec 8) : BitVec 16 :=
  (c.signExtend 32 ||| color.setWidth 32 <<< 8).setWidth 16

/-- `VGATERM_COLOR`. -/
def vgatermColor (fg bg : BitVec 4) : BitVec 8 := fg.setWidth 8 ||| bg.setWidth 8 <<< 4

/-- `VGATERM_ADDR`. -/
def vgatermAddr (x y : Nat) : Nat := y * vgatermWidth + x

/-- `VGA_COLOR_BLACK`. -/
def vgaColorBlack : BitVec 4 := 0

/-- `VGA_COLOR_LIGHT_GREY`. -/
def vgaColorLightGrey : BitVec 4 := 7

/-- The globals of `vgaterm.c` and the display. -/
structure Vgaterm where
  y : Nat
  x : Nat
  color : BitVec 8
  buf : Nat → BitVec 16
  pos : BitVec 16
  touched : List Nat

namespace Vgaterm

/-- `vgaterm_buf[i] = e`. -/
def write (v : Vgaterm) (i : Nat) (e : BitVec 16) : Vgaterm :=
  { v with buf := Function.update v.buf i e, touched := i :: v.touched }

/-- `vgaterm_buf[i] = vgaterm_buf[j]`. -/
def copy (v : Vgaterm) (i j : Nat) : Vgaterm :=
  ({ v with touched := j :: v.touched } : Vgaterm).write i (v.buf j)

end Vgaterm

/-- `vgaterm_scroll`. -/
def vgatermScroll (v : Vgaterm) : Vgaterm :=
  let v := (List.range vgatermHeight).foldl (fun v row =>
    (List.range vgatermWidth).foldl (fun v col =>
      v.copy (vgatermAddr col row) (vgatermAddr col (row + 1))) v) v
  (List.range vgatermWidth).foldl (fun v col => v.write (vgatermAddr col vgatermHeight) 0) v

/-- `vgaterm_newline`. -/
def vgatermNewline (v : Vgaterm) : Vgaterm :=
  let v := if v.y = vgatermHeight - 1 then vgatermScroll v else { v with y := v.y + 1 }
  { v with x := 0 }

/-- `vgaterm_set_cursor`. It shows where the globals say, whatever it is given. -/
def vgatermSetCursor (v : Vgaterm) : Vgaterm :=
  { v with pos := BitVec.ofNat 16 (v.y * vgatermWidth + v.x) }

/-- `'\n'`. -/
def newline : BitVec 8 := 10

/-- `vgaterm_putchar`. -/
def vgatermPutchar (v : Vgaterm) (c : BitVec 8) : Vgaterm :=
  if c = newline then vgatermNewline v
  else
    let v := v.write (v.y * vgatermWidth + v.x) (vgatermEntry c v.color)
    let v := { v with x := v.x + 1 }
    let v :=
      if v.x = vgatermWidth then
        let v := { v with x := 0, y := v.y + 1 }
        if v.y = vgatermHeight then { v with y := 0 } else v
      else v
    vgatermSetCursor v

/-- `vgaterm_setcolor`. -/
def vgatermSetcolor (v : Vgaterm) (fg bg : BitVec 4) : Vgaterm :=
  { v with color := vgatermColor fg bg }

/-- `vgaterm_clear`. -/
def vgatermClear (v : Vgaterm) : Vgaterm :=
  let v := { v with y := 0, x := 0, color := vgatermColor vgaColorLightGrey vgaColorBlack }
  (List.range vgatermHeight).foldl (fun v y =>
    (List.range vgatermWidth).foldl (fun v x =>
      v.write (y * vgatermWidth + x) (vgatermEntry 32 v.color)) v) v

end Blackcomb.Kernel
