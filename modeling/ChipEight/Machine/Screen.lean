import ChipEight.Machine.State

/-! The framebuffer operations of ncurses_io.c and bench_io.c.

Both backends run the same pixel loop; only the rendering differs, and it is not
modelled.
-/

set_option autoImplicit false

namespace ChipEight.Screen

def displaySize : Nat := 128 * 64

/-- `init_io`. -/
def initIo (width height : Nat) : Screen := ⟨width, height, fun _ => 0#8⟩

/-- The body of the inner loop of `draw_io`: pixel `i` of sprite row `j`. -/
def drawPixel (x y : Nat) (byte : Byte) (j : Nat) (st : Screen × Byte) (i : Nat) : Screen × Byte :=
  let screen := st.1
  let x2 := i + x
  let y2 := j + y
  if x2 ≥ screen.width then st
  else
    let bit := flag (byte &&& 0x80#8 >>> i != 0#8)
    let oldPixel := screen.display (x2 + y2 * screen.width)
    let newPixel := oldPixel ^^^ bit
    ({ screen with display := Function.update screen.display (x2 + y2 * screen.width) newPixel },
      if oldPixel != 0#8 && bit != 0#8 then st.2 ||| 1#8 else st.2)

/-- The body of the outer loop of `draw_io`: sprite row `j`. -/
def drawRow (x y : Nat) (mem : List Byte) (st : Screen × Byte) (j : Nat) : Screen × Byte :=
  if j + y ≥ st.1.height then st
  else (List.range 8).foldl (drawPixel x y (mem.getD j 0#8) j) st

/-- `draw_io`: wrap the origin, clip the sprite, XOR and report a collision. -/
def drawIo (screen : Screen) (x y n : Nat) (mem : List Byte) : Screen × Byte :=
  (List.range n).foldl (drawRow (x % screen.width) (y % screen.height) mem) (screen, 0#8)

/-- `clearscreen_io`. -/
def clearscreenIo (screen : Screen) : Screen :=
  { screen with display := fun i => if i < displaySize then 0#8 else screen.display i }

end ChipEight.Screen

namespace ChipEight

/-- The machine `main` starts. -/
def VM.boot (rom : List Byte) : VM where
  regs := fun _ => 0#8
  memory := loadRom rom
  stack := fun _ => 0#16
  stackPointer := 0
  addr := 0#16
  programCounter := entrypoint
  screen := Screen.initIo 64 32

end ChipEight
